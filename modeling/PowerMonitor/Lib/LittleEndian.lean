import Mathlib.Algebra.Group.Nat.Defs

/-!
# Numbers as bytes, the lowest first

A number is stored in a fixed number of bytes, which are the digits of the number to base 256; what does not fit is cut off.
-/

namespace LittleEndian

/-- The lowest `k` bytes of a number. -/
def encode : Nat → Nat → List UInt8
  | 0, _ => []
  | k + 1, v => .ofNat v :: encode k (v / 256)

/-- The number that bytes stand for. -/
def decode : List UInt8 → Nat
  | [] => 0
  | b :: bs => b.toNat + 256 * decode bs

@[simp] theorem encode_length (k v : Nat) : (encode k v).length = k := by
  induction k generalizing v with
  | zero => rfl
  | succ k ih => rw [encode, List.length_cons, ih]

theorem decode_encode (k v : Nat) : decode (encode k v) = v % 256 ^ k := by
  induction k generalizing v with
  | zero => simp [encode, decode, Nat.mod_one]
  | succ k ih =>
    have hb : (UInt8.ofNat v).toNat = v % 256 := UInt8.toNat_ofNat'
    rw [encode, decode, ih, hb, Nat.pow_succ', Nat.mod_mul]

/-- A number that fits is read back. -/
theorem decode_encode_of_lt {k v : Nat} (h : v < 256 ^ k) : decode (encode k v) = v := by
  rw [decode_encode, Nat.mod_eq_of_lt h]

end LittleEndian
