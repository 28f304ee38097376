import Mathlib.Logic.Function.Basic

/-!
# Postconditions of computations that may stop

A computation ends in a value or stops with a reason. A postcondition says something about each; the rules below take a sequence
of computations apart.
-/

namespace PowerMonitor

namespace Outcome

universe u v

variable {ε : Type v} {α β : Type u} {I : α → Prop} {J : β → Prop} {E : ε → Prop}

/-- The computation ends in a value that satisfies `I`, or stops with a reason that satisfies `E`. -/
def Ends (I : α → Prop) (E : ε → Prop) : Except ε α → Prop
  | .ok a => I a
  | .error e => E e

theorem Ends.mono {I' : α → Prop} {E' : ε → Prop} {x : Except ε α} (h : Ends I E x) (hI : ∀ a, I a → I' a)
    (hE : ∀ e, E e → E' e) : Ends I' E' x := by
  cases x with
  | ok a => exact hI a h
  | error e => exact hE e h

theorem Ends.and {I' : α → Prop} {E' : ε → Prop} {x : Except ε α} (h : Ends I E x) (h' : Ends I' E' x) :
    Ends (fun a => I a ∧ I' a) (fun e => E e ∧ E' e) x := by
  cases x with
  | ok a => exact ⟨h, h'⟩
  | error e => exact ⟨h, h'⟩

/-- A sequence of two computations. -/
theorem Ends.bind {x : Except ε α} {f : α → Except ε β} (hx : Ends I E x) (hf : ∀ a, I a → Ends J E (f a)) :
    Ends J E (x >>= f) := by
  cases x with
  | ok a => exact hf a hx
  | error e => exact hx

end Outcome

end PowerMonitor
