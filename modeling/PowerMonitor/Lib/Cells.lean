import Mathlib.Data.List.GetD
import Mathlib.Logic.Function.Basic

/-!
# Cells and the writes to them

The cells of a memory are written one after another. After any number of the writes a cell holds what it held at first, or what
one of the writes to it put there (`apply_cases`): a memory whose cells are written as a whole holds no part of a write.

Keys and values are arbitrary types; numbered cells can also be written a row at a time (`put`).
-/

namespace Cells

section Apply

variable {K V : Type*} [DecidableEq K]

/-- The cells after writes, oldest first. -/
def apply (ws : List (K × V)) (f : K → V) : K → V := ws.foldl (fun f w => Function.update f w.1 w.2) f

@[simp] theorem apply_nil (f : K → V) : apply [] f = f := rfl

theorem apply_append (ws ws' : List (K × V)) (f : K → V) : apply (ws ++ ws') f = apply ws' (apply ws f) := List.foldl_append

/-- A cell that no write is for stays. -/
theorem apply_of_not_mem {ws : List (K × V)} {k : K} (h : ∀ w ∈ ws, w.1 ≠ k) (f : K → V) : apply ws f k = f k := by
  induction ws generalizing f with
  | nil => rfl
  | cons w ws ih =>
    have hw : apply ws (Function.update f w.1 w.2) k = Function.update f w.1 w.2 k :=
      ih (fun x hx => h x (List.mem_cons_of_mem w hx)) _
    exact hw.trans (Function.update_of_ne (Ne.symm (h w List.mem_cons_self)) _ _)

/-- A cell holds what it held, or what a write to it put there. -/
theorem apply_cases (ws : List (K × V)) (f : K → V) (k : K) : apply ws f k = f k ∨ ∃ w ∈ ws, w.1 = k ∧ apply ws f k = w.2 := by
  induction ws generalizing f with
  | nil => exact Or.inl rfl
  | cons w ws ih =>
    have hcons : apply (w :: ws) f = apply ws (Function.update f w.1 w.2) := rfl
    rw [hcons]
    rcases ih (Function.update f w.1 w.2) with he | ⟨x, hx, hk, he⟩
    · by_cases hw : w.1 = k
      · subst hw
        exact Or.inr ⟨w, List.mem_cons_self, rfl, he.trans (Function.update_self _ _ _)⟩
      · exact Or.inl (he.trans (Function.update_of_ne (Ne.symm hw) _ _))
    · exact Or.inr ⟨x, List.mem_cons_of_mem w hx, hk, he⟩

end Apply

/-! ## Rows of cells -/

section Put

variable {V : Type*}

/-- The cells after the values `vs` have been written from cell `a` on. -/
def put (f : Nat → V) (a : Nat) (vs : List V) : Nat → V := fun x => if a ≤ x then vs.getD (x - a) (f x) else f x

@[simp] theorem put_nil (f : Nat → V) (a : Nat) : put f a [] = f := by
  funext x
  simp [put]

/-- A row is written cell by cell. -/
theorem put_cons (f : Nat → V) (a : Nat) (v : V) (vs : List V) : put f a (v :: vs) = put (Function.update f a v) (a + 1) vs := by
  funext x
  rcases Nat.lt_trichotomy x a with hx | rfl | hx
  · rw [put, put, if_neg (by omega), if_neg (by omega), Function.update_of_ne (by omega)]
  · rw [put, put, if_pos (Nat.le_refl _), if_neg (by omega), Function.update_self, Nat.sub_self, List.getD_cons_zero]
  · obtain ⟨d, rfl⟩ := Nat.exists_eq_add_of_lt hx
    rw [put, put, if_pos (by omega), if_pos (by omega), Function.update_of_ne (by omega), show a + d + 1 - a = d + 1 by omega,
      List.getD_cons_succ, show a + d + 1 - (a + 1) = d by omega]

theorem put_of_lt (f : Nat → V) (a : Nat) {vs : List V} {i : Nat} (h : i < vs.length) : put f a vs (a + i) = vs[i] := by
  rw [put, if_pos (Nat.le_add_right a i), Nat.add_sub_cancel_left, List.getD_eq_getElem _ _ h]

theorem put_zero_of_lt (f : Nat → V) {vs : List V} {i : Nat} (h : i < vs.length) : put f 0 vs i = vs[i] := by
  have hput := put_of_lt f 0 h
  rwa [Nat.zero_add] at hput

/-- The cells before and behind the row stay. -/
theorem put_of_outside (f : Nat → V) {a x : Nat} {vs : List V} (h : x < a ∨ a + vs.length ≤ x) : put f a vs x = f x := by
  rw [put]
  split
  · rw [List.getD_eq_default _ _ (by omega)]
  · rfl

/-- The row is read back. -/
theorem map_put (f : Nat → V) (a : Nat) (vs : List V) : (List.range' a vs.length).map (put f a vs) = vs := by
  refine List.ext_getElem (by simp) fun i hi hi' => ?_
  rw [List.getElem_map, List.getElem_range', Nat.one_mul, put_of_lt f a hi']

end Put

end Cells
