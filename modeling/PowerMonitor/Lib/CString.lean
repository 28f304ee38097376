import Mathlib.Data.Nat.Digits.Defs
import Mathlib.Data.List.Infix
import Mathlib.Tactic.IntervalCases

/-!
# C strings

The functions of the C library on strings. A string is the list of the bytes before its NUL; `text` is the string that a block
of memory begins with, and the functions that change memory work on the block. The end of a list counts as a NUL.
-/

namespace PowerMonitor

namespace CString

/-- The bytes of a string literal. -/
def bytes (s : String) : List UInt8 := s.toList.map fun c => UInt8.ofNat c.toNat

/-- `'\r'`. -/
def cr : UInt8 := 13

/-- `'\n'`. -/
def lf : UInt8 := 10

/-- `':'`. -/
def colon : UInt8 := 58

/-- The string that a block of memory begins with. -/
def text (mem : List UInt8) : List UInt8 := mem.takeWhile (· ≠ 0)

/-- `isspace`. -/
def isspace (c : UInt8) : Bool := c = 32 || (9 ≤ c && c ≤ 13)

/-- `isdigit`. -/
def isdigit (c : UInt8) : Bool := 48 ≤ c && c ≤ 57

/-- `strlen` of the string at an index of a block of memory. -/
def strlen (mem : List UInt8) (ptr : Nat) : Nat := (text (mem.drop ptr)).length

/-- `strchr` on the string at an index of a block of memory: the index of the first `c`. -/
def strchr (mem : List UInt8) (ptr : Nat) (c : UInt8) : Option Nat := ((text (mem.drop ptr)).idxOf? c).map (ptr + ·)

/-- `strncmp`. -/
def strncmp : List UInt8 → List UInt8 → Nat → Int
  | _, _, 0 => 0
  | [], [], _ => 0
  | [], b :: _, _ => -b.toNat
  | a :: _, [], _ => a.toNat
  | a :: s, b :: t, n + 1 => if a = b then strncmp s t n else a.toNat - b.toNat

/-- `n` bytes stored at an index of a block of memory. -/
def store (mem : List UInt8) (ptr : Nat) (data : List UInt8) : List UInt8 :=
  mem.take ptr ++ data ++ mem.drop (ptr + data.length)

/-- `memmove` within a block of memory. -/
def memmove (mem : List UInt8) (dst src n : Nat) : List UInt8 := store mem dst ((mem.drop src).take n)

/-- The number a string of digits stands for. -/
def digitsValue (t : List UInt8) : Nat := t.foldl (fun n c => 10 * n + (c.toNat - 48)) 0

/-- `strtol` to base 10 for a `long` of `w` bits: it stops at the largest and the smallest value. -/
def strtol (w : Nat) (t : List UInt8) : Int :=
  let t := t.dropWhile isspace
  let (neg, t) : Bool × List UInt8 :=
    match t with
    | c :: rest => if c = 45 then (true, rest) else if c = 43 then (false, rest) else (false, t)
    | [] => (false, [])
  let n : Nat := digitsValue (t.takeWhile isdigit)
  if neg then max (-n) (-2 ^ (w - 1)) else min n (2 ^ (w - 1) - 1)

/-- `%lu`. -/
def decimal (n : Nat) : List UInt8 := if n = 0 then [48] else (Nat.digits 10 n).reverse.map fun d => UInt8.ofNat (48 + d)

/-- `%ld`. -/
def signedDecimal (v : Int) : List UInt8 := if v < 0 then 45 :: decimal v.natAbs else decimal v.natAbs

/-- `%08lX`. -/
def hex8 (n : Nat) : List UInt8 :=
  (List.range 8).reverse.map fun i =>
    let d := n / 16 ^ i % 16
    UInt8.ofNat (if d < 10 then 48 + d else 55 + d)

/-! ## Spaces and digits -/

theorem isdigit_not_space {c : UInt8} (h : isdigit c = true) : isspace c = false := by
  simp only [isdigit, Bool.and_eq_true, decide_eq_true_eq, UInt8.le_iff_toNat_le] at h
  simp only [isspace, Bool.or_eq_false_iff, Bool.and_eq_false_iff, decide_eq_false_iff_not, UInt8.le_iff_toNat_le]
  refine ⟨?_, Or.inr ?_⟩
  · rintro rfl
    simp at h
  · intro h'
    have h1 := h.1
    simp at h1 h'
    omega

/-- The first bytes of a list up to a byte that does not satisfy a test. -/
theorem takeWhile_append_stop {p : UInt8 → Bool} {l : List UInt8} (hl : ∀ a ∈ l, p a = true) {c : UInt8} (hc : p c = false)
    (r : List UInt8) : (l ++ c :: r).takeWhile p = l := by
  rw [List.takeWhile_append_of_pos hl, List.takeWhile_cons_of_neg (by simp [hc]), List.append_nil]

theorem dropWhile_append_stop {p : UInt8 → Bool} {l : List UInt8} (hl : ∀ a ∈ l, p a = true) {c : UInt8} (hc : p c = false)
    (r : List UInt8) : (l ++ c :: r).dropWhile p = c :: r := by
  rw [List.dropWhile_append_of_pos hl, List.dropWhile_cons_of_neg (by simp [hc])]

/-! ## Memory -/

/-- A string followed by its NUL. -/
theorem text_append_nul {t : List UInt8} (h : (0 : UInt8) ∉ t) (r : List UInt8) : text (t ++ 0 :: r) = t := by
  refine takeWhile_append_stop ?_ (by simp) r
  intro a ha
  simp only [decide_eq_true_eq]
  rintro rfl
  exact h ha

/-- The string of a block of memory does not depend on what is behind its first NUL. -/
theorem text_append_zero (t m : List UInt8) : text (t ++ 0 :: m) = text t := by
  unfold text
  induction t with
  | nil => simp
  | cons a t ih => rw [List.cons_append, List.takeWhile_cons, List.takeWhile_cons, ih]

/-- Memory without a NUL is all string. -/
theorem text_of_not_mem {t : List UInt8} (h : (0 : UInt8) ∉ t) : text t = t := by
  rw [← text_append_zero t [], text_append_nul h]

/-- The string of a block of memory begins with what the block begins with, up to a NUL. -/
theorem prefix_text_iff {e : List UInt8} (he : (0 : UInt8) ∉ e) (mem : List UInt8) : e <+: text mem ↔ e <+: mem := by
  constructor
  · exact fun h => h.trans (List.takeWhile_prefix _)
  · rintro ⟨r, rfl⟩
    have hpos : ∀ a ∈ e, decide (a ≠ 0) = true := fun a ha => decide_eq_true fun h => he (h ▸ ha)
    rw [text, List.takeWhile_append_of_pos hpos]
    exact List.prefix_append _ _

theorem nul_not_mem_text (mem : List UInt8) : (0 : UInt8) ∉ text mem := by
  intro h
  have hall := List.all_takeWhile (p := fun c : UInt8 => decide (c ≠ 0)) (l := mem)
  simpa using List.all_eq_true.mp hall 0 h

theorem text_length_le (mem : List UInt8) : (text mem).length ≤ mem.length := (List.takeWhile_prefix _).length_le

/-- A block of memory with a NUL in it is its string, the NUL and the rest. -/
theorem exists_text_append {mem : List UInt8} (h : (0 : UInt8) ∈ mem) : ∃ r, mem = text mem ++ 0 :: r := by
  induction mem with
  | nil => exact absurd h (by simp)
  | cons a mem ih =>
    by_cases ha : a = 0
    · exact ⟨mem, by simp [text, ha]⟩
    · obtain ⟨r, hr⟩ := ih ((List.mem_cons.mp h).resolve_left (Ne.symm ha))
      exact ⟨r, by simpa [text, ha] using hr⟩

theorem store_length {mem : List UInt8} {ptr : Nat} {data : List UInt8} (h : ptr + data.length ≤ mem.length) :
    (store mem ptr data).length = mem.length := by
  simp only [store, List.length_append, List.length_take, List.length_drop]
  omega

/-! ## Comparing -/

theorem strncmp_comm (s t : List UInt8) (n : Nat) : strncmp s t n = -strncmp t s n := by
  induction n generalizing s t with
  | zero => cases s <;> cases t <;> rfl
  | succ n ih =>
    cases s with
    | nil => cases t <;> simp [strncmp]
    | cons a s =>
      cases t with
      | nil => simp [strncmp]
      | cons b t =>
        by_cases hab : a = b
        · simp [strncmp, hab, ih s t]
        · simp [strncmp, hab, Ne.symm hab]

/-- A comparison over the length of a literal asks whether the string begins with it. -/
theorem strncmp_eq_zero_iff {e : List UInt8} (he : (0 : UInt8) ∉ e) (t : List UInt8) :
    strncmp e t e.length = 0 ↔ e <+: t := by
  induction e generalizing t with
  | nil => simp [strncmp]
  | cons a e ih =>
    have ha : a ≠ 0 := fun h => he (h ▸ List.mem_cons_self)
    have ha' : (a.toNat : Int) ≠ 0 := by
      intro h
      exact ha (UInt8.toNat_inj.mp (by simpa using h))
    cases t with
    | nil => simpa [strncmp] using ha'
    | cons b t =>
      have ih' := ih (fun h => he (List.mem_cons_of_mem a h)) t
      by_cases hab : a = b
      · subst hab
        simp only [List.length_cons, strncmp, if_true, List.cons_prefix_cons, true_and]
        exact ih'
      · have hne : (a.toNat : Int) - b.toNat ≠ 0 := by
          intro h
          exact hab (UInt8.toNat_inj.mp (by omega))
        simp [strncmp, hab, List.cons_prefix_cons, hne]

/-! ## Numbers -/

/-- The printed digits are digits. -/
theorem decimal_digits (n : Nat) : ∀ c ∈ decimal n, isdigit c = true := by
  intro c hc
  unfold decimal at hc
  split at hc
  · rw [List.mem_singleton.mp hc]
    rfl
  · obtain ⟨d, hd, rfl⟩ := List.mem_map.mp hc
    have hlt : d < 10 := Nat.digits_lt_base (by decide) (List.mem_reverse.mp hd)
    interval_cases d <;> rfl

theorem decimal_ne_nil (n : Nat) : decimal n ≠ [] := by
  unfold decimal
  split
  · simp
  · next h => simpa [Nat.digits_ne_nil_iff_ne_zero] using h

theorem digit_toNat {d : Nat} (h : d < 10) : (UInt8.ofNat (48 + d)).toNat - 48 = d := by
  interval_cases d <;> rfl

/-- Reading the printed digits gives the number back. -/
theorem digitsValue_decimal (n : Nat) : digitsValue (decimal n) = n := by
  unfold decimal
  split
  · next h =>
    rw [h]
    rfl
  · have hfold : ∀ l : List Nat, (∀ d ∈ l, d < 10) →
        digitsValue (l.reverse.map fun d => UInt8.ofNat (48 + d)) = Nat.ofDigits 10 l := by
      intro l hl
      rw [Nat.ofDigits_eq_foldr, digitsValue, List.foldl_map, List.foldl_reverse]
      induction l with
      | nil => rfl
      | cons d l ih =>
        rw [List.foldr_cons, List.foldr_cons, ih fun x hx => hl x (List.mem_cons_of_mem d hx),
          digit_toNat (hl d List.mem_cons_self), Nat.cast_id, Nat.add_comm]
    rw [hfold _ fun d hd => Nat.digits_lt_base (by decide) hd, Nat.ofDigits_digits]

/-- The text is the decimal integer: digits, behind a sign or without one. -/
inductive Numeral : List UInt8 → Int → Prop where
  | plain {ds : List UInt8} (hne : ds ≠ []) (hd : ∀ c ∈ ds, isdigit c = true) : Numeral ds (digitsValue ds)
  | plus {ds : List UInt8} (hne : ds ≠ []) (hd : ∀ c ∈ ds, isdigit c = true) : Numeral (43 :: ds) (digitsValue ds)
  | minus {ds : List UInt8} (hne : ds ≠ []) (hd : ∀ c ∈ ds, isdigit c = true) : Numeral (45 :: ds) (-digitsValue ds)

theorem numeral_decimal (n : Nat) : Numeral (decimal n) n := by
  have h := Numeral.plain (decimal_ne_nil n) (decimal_digits n)
  rwa [digitsValue_decimal] at h

theorem numeral_signedDecimal (v : Int) : Numeral (signedDecimal v) v := by
  unfold signedDecimal
  split
  · next hv =>
    have h := Numeral.minus (decimal_ne_nil v.natAbs) (decimal_digits v.natAbs)
    rwa [digitsValue_decimal, Int.ofNat_natAbs_of_nonpos (Int.le_of_lt hv), Int.neg_neg] at h
  · next hv =>
    have h := numeral_decimal v.natAbs
    rwa [Int.natAbs_of_nonneg (Int.not_lt.mp hv)] at h

/-- A numeral begins with a sign or a digit, and not with a space. -/
theorem Numeral.exists_cons {t : List UInt8} {n : Int} (h : Numeral t n) : ∃ c l, t = c :: l ∧ isspace c = false := by
  cases h with
  | plain hne hd =>
    obtain ⟨c, l, rfl⟩ := List.exists_cons_of_ne_nil hne
    exact ⟨c, l, rfl, isdigit_not_space (hd c List.mem_cons_self)⟩
  | plus => exact ⟨_, _, rfl, by decide⟩
  | minus => exact ⟨_, _, rfl, by decide⟩

/-- There is nothing to skip in front of a numeral. -/
theorem Numeral.dropWhile_isspace {t : List UInt8} {n : Int} (h : Numeral t n) (r : List UInt8) :
    (t ++ r).dropWhile isspace = t ++ r := by
  obtain ⟨c, l, rfl, hc⟩ := h.exists_cons
  rw [List.cons_append, List.dropWhile_cons_of_neg (by simp [hc])]

/-- `strtol` reads the numeral that a text begins with, and stops at the largest and the smallest value. -/
theorem strtol_numeral {w : Nat} {t : List UInt8} {n : Int} (h : Numeral t n) {r : List UInt8}
    (hr : ∀ c, r.head? = some c → isdigit c = false) :
    strtol w (t ++ r) = max (-2 ^ (w - 1)) (min n (2 ^ (w - 1) - 1)) := by
  have hstop : r.takeWhile isdigit = [] := by
    cases r with
    | nil => rfl
    | cons c r => exact List.takeWhile_cons_of_neg (by simp [hr c rfl])
  have hval : ∀ {ds : List UInt8}, (∀ c ∈ ds, isdigit c = true) → (ds ++ r).takeWhile isdigit = ds := by
    intro ds hd
    rw [List.takeWhile_append_of_pos hd, hstop, List.append_nil]
  have hpos : (0 : Int) < 2 ^ (w - 1) := Int.pow_pos (by decide)
  unfold strtol
  simp only [h.dropWhile_isspace r]
  cases h with
  | plain hne hd =>
    obtain ⟨c, l, hl⟩ := List.exists_cons_of_ne_nil hne
    have hc : isdigit c = true := hd c (hl ▸ List.mem_cons_self)
    have h45 : c ≠ 45 := by rintro rfl; simp [isdigit] at hc
    have h43 : c ≠ 43 := by rintro rfl; simp [isdigit] at hc
    have hv := hval hd
    rw [hl, List.cons_append] at hv ⊢
    simp only [h45, h43, if_false, hv, Bool.false_eq_true]
    omega
  | plus _ hd =>
    simp only [List.cons_append, hval hd, if_true, if_false, Bool.false_eq_true, show (43 : UInt8) ≠ 45 by decide]
    omega
  | minus _ hd =>
    simp only [List.cons_append, hval hd, if_true]
    omega

end CString

end PowerMonitor
