import Mathlib.Logic.Function.Basic
import Mathlib.Data.Nat.ModEq

/-!
# Ring buffers

A ring of `n` cells holds a queue between its two indices: the producer stores at the first index, the consumer reads at the
second, and both wrap at `n`. The indices alone tell the length of the queue up to `n`, so a ring of `n` cells holds at most
`n - 1` elements: one more and it looks empty.
-/

namespace PowerMonitor

/-- The cells of a ring of `n` cells from the index `o` up to the index `i` hold the queue `q`, the oldest element first. -/
structure Ring.Holds {α : Type*} (n : Nat) (mem : Nat → α) (i o : Nat) (q : List α) : Prop where
  out_lt : o < n
  in_eq : i = (o + q.length) % n
  room : q.length < n
  cells : ∀ j, (h : j < q.length) → mem ((o + j) % n) = q[j]

namespace Ring.Holds

variable {α : Type*} {n i o : Nat} {mem : Nat → α} {q : List α}

/-! ## The indices -/

/-- Offsets below the size of the ring that land on one cell are the same. -/
theorem offset_inj {j k : Nat} (hj : j < n) (hk : k < n) (h : (o + j) % n = (o + k) % n) : j = k := by
  have hm : j ≡ k [MOD n] := Nat.ModEq.add_left_cancel' o h
  rwa [Nat.ModEq, Nat.mod_eq_of_lt hj, Nat.mod_eq_of_lt hk] at hm

theorem in_lt (h : Holds n mem i o q) : i < n := by
  rw [h.in_eq]
  exact Nat.mod_lt _ (Nat.zero_lt_of_lt h.out_lt)

/-- The index after one index of the ring, without the wrap. -/
theorem succ_eq_iff {a b : Nat} (hb : b < n) : a + 1 = b ↔ (a + 1) % n = b ∧ a + 1 < n := by
  constructor
  · rintro rfl
    exact ⟨Nat.mod_eq_of_lt hb, hb⟩
  · rintro ⟨h, hlt⟩
    rwa [Nat.mod_eq_of_lt hlt] at h

/-- The indices meet exactly when the queue is empty. -/
theorem in_eq_out_iff (h : Holds n mem i o q) : i = o ↔ q = [] := by
  have hn : 0 < n := Nat.zero_lt_of_lt h.out_lt
  constructor
  · intro he
    have ho : (o + q.length) % n = (o + 0) % n := by rw [← h.in_eq, he, Nat.add_zero, Nat.mod_eq_of_lt h.out_lt]
    exact List.length_eq_zero_iff.mp (offset_inj h.room hn ho)
  · rintro rfl
    rw [h.in_eq, List.length_nil, Nat.add_zero, Nat.mod_eq_of_lt h.out_lt]

/-- The consumer's next index is the producer's exactly when one element is left. -/
theorem next_out_iff (h : Holds n mem i o q) (hn : 1 < n) : (o + 1) % n = i ↔ q.length = 1 := by
  rw [h.in_eq]
  constructor
  · intro he
    exact (offset_inj hn h.room he).symm
  · intro he
    rw [he]

/-- The producer's next index is the consumer's exactly when there is no room left. -/
theorem next_in_iff (h : Holds n mem i o q) : (i + 1) % n = o ↔ q.length + 1 = n := by
  have hn : 0 < n := Nat.zero_lt_of_lt h.out_lt
  have hi : (i + 1) % n = (o + (q.length + 1)) % n := by rw [h.in_eq, Nat.mod_add_mod, Nat.add_assoc]
  rw [hi]
  constructor
  · intro he
    by_contra hne
    have hlt : q.length + 1 < n := by have := h.room; omega
    have h0 : (o + (q.length + 1)) % n = (o + 0) % n := by rw [he, Nat.add_zero, Nat.mod_eq_of_lt h.out_lt]
    have := offset_inj hlt hn h0
    omega
  · intro he
    rw [he, Nat.add_mod_right, Nat.mod_eq_of_lt h.out_lt]

/-! ## The operations -/

/-- Equal indices hold the empty queue. -/
theorem empty (ho : o < n) : Holds n mem o o [] where
  out_lt := ho
  in_eq := by rw [List.length_nil, Nat.add_zero, Nat.mod_eq_of_lt ho]
  room := Nat.zero_lt_of_lt ho
  cells := fun j hj => absurd hj (Nat.not_lt_zero j)

/-- A store with room to spare appends to the queue. -/
theorem push (h : Holds n mem i o q) (hr : q.length + 1 < n) (a : α) :
    Holds n (Function.update mem i a) ((i + 1) % n) o (q ++ [a]) where
  out_lt := h.out_lt
  in_eq := by rw [h.in_eq, Nat.mod_add_mod, List.length_append, List.length_singleton, Nat.add_assoc]
  room := by simpa using hr
  cells := by
    intro j hj
    rw [List.length_append, List.length_singleton] at hj
    by_cases hq : j < q.length
    · have hne : (o + j) % n ≠ i := by
        intro he
        rw [h.in_eq] at he
        have := offset_inj (hq.trans h.room) h.room he
        omega
      rw [Function.update_of_ne hne, List.getElem_append_left hq]
      exact h.cells j hq
    · obtain rfl : j = q.length := by omega
      rw [← h.in_eq, Function.update_self, List.getElem_concat_length rfl]

/-- The consumer reads the oldest element. -/
theorem head {a : α} (h : Holds n mem i o (a :: q)) : mem o = a := by
  have h0 := h.cells 0 (by simp)
  rwa [Nat.add_zero, Nat.mod_eq_of_lt h.out_lt] at h0

/-- Past the oldest element the ring holds the rest. -/
theorem pop {a : α} (h : Holds n mem i o (a :: q)) : Holds n mem i ((o + 1) % n) q where
  out_lt := Nat.mod_lt _ (Nat.zero_lt_of_lt h.out_lt)
  in_eq := by rw [h.in_eq, Nat.mod_add_mod, List.length_cons, Nat.add_assoc, Nat.add_comm 1]
  room := by
    have := h.room
    rw [List.length_cons] at this
    omega
  cells := by
    intro j hj
    have hc := h.cells (j + 1) (by simpa using hj)
    rw [Nat.mod_add_mod, Nat.add_assoc, Nat.add_comm 1, hc, List.getElem_cons_succ]

end Ring.Holds

end PowerMonitor
