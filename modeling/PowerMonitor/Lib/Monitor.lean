import Mathlib.Data.List.Induction
import Mathlib.Data.List.Infix

/-!
# Monitors of traces

A monitor reads the actions of a process in order and says of each whether it is allowed where it happens. A trace is safe when
every action of it is; safety of a trace that goes on is safety of both parts, the second one from the state the first one leads
to.
-/

namespace PowerMonitor

/-- A state that every action moves on, and which actions a state allows. -/
structure Monitor (α σ : Type*) where
  next : σ → α → σ
  Allows : σ → α → Prop

namespace Monitor

variable {α σ : Type*} (m : Monitor α σ)

/-- The state after a trace. -/
def run (s : σ) (t : List α) : σ := t.foldl m.next s

/-- Every action of the trace is allowed where it happens. -/
def Safe : σ → List α → Prop
  | _, [] => True
  | s, a :: t => m.Allows s a ∧ Safe (m.next s a) t

instance decidableSafe [∀ s a, Decidable (m.Allows s a)] : ∀ s t, Decidable (m.Safe s t)
  | _, [] => inferInstanceAs (Decidable True)
  | s, a :: t =>
    have := decidableSafe (m.next s a) t
    inferInstanceAs (Decidable (m.Allows s a ∧ m.Safe (m.next s a) t))

/-- An action that is allowed and changes nothing. -/
def Idle (s : σ) (a : α) : Prop := m.Allows s a ∧ m.next s a = s

@[simp] theorem run_nil (s : σ) : m.run s [] = s := rfl

@[simp] theorem run_cons (s : σ) (a : α) (t : List α) : m.run s (a :: t) = m.run (m.next s a) t := rfl

@[simp] theorem run_append (s : σ) (t u : List α) : m.run s (t ++ u) = m.run (m.run s t) u := List.foldl_append

@[simp] theorem safe_nil (s : σ) : m.Safe s [] := trivial

@[simp] theorem safe_cons (s : σ) (a : α) (t : List α) : m.Safe s (a :: t) ↔ m.Allows s a ∧ m.Safe (m.next s a) t := Iff.rfl

@[simp] theorem safe_append (s : σ) (t u : List α) : m.Safe s (t ++ u) ↔ m.Safe s t ∧ m.Safe (m.run s t) u := by
  induction t generalizing s with
  | nil => simp
  | cons a t ih => simp [ih, and_assoc]

/-- Idle actions are safe and leave the state. -/
theorem idle_all {s : σ} {t : List α} (h : ∀ a ∈ t, m.Idle s a) : m.Safe s t ∧ m.run s t = s := by
  induction t with
  | nil => exact ⟨trivial, rfl⟩
  | cons a t ih =>
    obtain ⟨hal, hn⟩ := h a List.mem_cons_self
    obtain ⟨hs, hr⟩ := ih fun b hb => h b (List.mem_cons_of_mem a hb)
    rw [safe_cons, run_cons, hn]
    exact ⟨⟨hal, hs⟩, hr⟩

/-- What every allowed action keeps holds after a safe trace. -/
theorem Safe.keeps {P : σ → Prop} (hn : ∀ s a, P s → m.Allows s a → P (m.next s a)) {s : σ} {t : List α} (h : m.Safe s t)
    (hs : P s) : P (m.run s t) := by
  induction t generalizing s with
  | nil => exact hs
  | cons a t ih => exact ih h.2 (hn s a hs h.1)

theorem Safe.of_prefix {s : σ} {t u : List α} (h : m.Safe s u) (hp : t <+: u) : m.Safe s t := by
  obtain ⟨v, rfl⟩ := hp
  exact ((m.safe_append s t v).mp h).1

end Monitor

/-- What holds after every part of a trace, one action later. -/
theorem forall_prefix_snoc {α : Type*} {P : List α → Prop} (t : List α) (a : α) :
    (∀ pre, pre <+: t ++ [a] → P pre) ↔ (∀ pre, pre <+: t → P pre) ∧ P (t ++ [a]) := by
  simp only [List.prefix_concat_iff]
  constructor
  · intro h
    exact ⟨fun pre hp => h pre (Or.inr hp), h _ (Or.inl rfl)⟩
  · rintro ⟨h, hl⟩ pre (rfl | hp)
    · exact hl
    · exact h pre hp

end PowerMonitor
