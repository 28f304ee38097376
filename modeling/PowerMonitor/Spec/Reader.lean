import PowerMonitor.Daemon.PMonLib
import PowerMonitor.Spec.Publisher

/-!
# What a reader is for

Seen from a client, a call looks at the segment once and answers from what is there: nothing here is about the mutex, or about the
loads that a call is made of.

Values are in thousandths, as the daemon's lines have them, before the division by 1000 that makes a `float` of them.
-/

namespace PowerMonitor

namespace Shared

/-- The value that a call asks for, or -1 where it asks for none. Nothing is known of the value of a negative channel. -/
def asked (array : Fin 2 → Int) (ptr : Bool) (ch : Int) : Option Int :=
  if ptr = true ∧ ch < 2 then
    if ch = 0 then some (array ⟨0, Nat.zero_lt_two⟩) else if ch = 1 then some (array ⟨1, Nat.one_lt_two⟩) else none
  else some (-1000)

theorem asked_of_lt {ptr : Bool} {ch : Int} (h : ptr = true ∧ ch < 2) (array : Fin 2 → Int) :
    asked array ptr ch = Client.element array ch := by
  unfold asked Client.element
  rw [if_pos h]
  by_cases h0 : ch = 0
  · subst h0
    rfl
  · by_cases h1 : ch = 1
    · subst h1
      rfl
    · rw [if_neg h0, if_neg h1, dif_neg (by omega)]

theorem asked_of_not {ptr : Bool} {ch : Int} (h : ¬ (ptr = true ∧ ch < 2)) (array : Fin 2 → Int) :
    asked array ptr ch = some (-1000) := if_neg h

/-- The two published arrays are the same. -/
def SameValues (s s' : Shared) : Prop := s'.voltage = s.voltage ∧ s'.current = s.current

theorem SameValues.refl (s : Shared) : SameValues s s := ⟨rfl, rfl⟩

theorem SameValues.trans {s s' s'' : Shared} (h : SameValues s s') (h' : SameValues s' s'') : SameValues s s'' :=
  ⟨h'.1.trans h.1, h'.2.trans h.2⟩

end Shared

/-- The answer of a call to which the segment stands still. -/
def Call.answer (s : Shared) : Call → Answer
  | .isConnected ptr => .int (if ptr then s.portConnected else 0)
  | .getVoltage ptr ch => .float (Shared.asked s.voltage ptr ch)
  | .getVoltages ptr v1 v2 =>
    if ptr then
      .floats 0 (if v1 then some (s.voltage ⟨0, Nat.zero_lt_two⟩) else none) (if v2 then some (s.voltage ⟨1, Nat.one_lt_two⟩) else none)
    else .floats (-1) none none
  | .getCurrent ptr ch => .float (Shared.asked s.current ptr ch)

/-- What an operation of the daemon publishes. -/
def Op.reading : Op → Option Reading
  | .receiveVoltage (some a) => (Reading.channel a).map fun ch => .voltage ch (numberOf a)
  | .receiveCurrent (some a) => some (.current (PMon.atoi (CmdParse.skipSpace a)))
  | _ => none

/-- The segment holds nothing but values of some readings, or the zeros of a segment without any. -/
structure Shared.Tells (rs : List Reading) (s : Shared) : Prop where
  voltage : ∀ ch : Channel, s.voltage ch.index = 0 ∨ .voltage ch (s.voltage ch.index) ∈ rs
  current : s.current ⟨0, Nat.zero_lt_two⟩ = 0 ∨ .current (s.current ⟨0, Nat.zero_lt_two⟩) ∈ rs
  current_one : s.current ⟨1, Nat.one_lt_two⟩ = 0
  connected : s.portConnected = 0 ∨ s.portConnected = 1

namespace Shared

variable {rs : List Reading} {s : Shared}

theorem Tells.zero (rs : List Reading) : Tells rs .zero := ⟨fun _ => Or.inl rfl, Or.inl rfl, rfl, Or.inl rfl⟩

theorem Tells.setConnected (h : Tells rs s) {n : Int} (hn : n = 0 ∨ n = 1) : Tells rs { s with portConnected := n } :=
  ⟨h.voltage, h.current, h.current_one, hn⟩

theorem Tells.setVoltage (h : Tells rs s) (ch : Channel) {n : Int} (hn : n = 0 ∨ .voltage ch n ∈ rs) :
    Tells rs { s with voltage := Function.update s.voltage ch.index n } := by
  refine ⟨fun ch' => ?_, h.current, h.current_one, h.connected⟩
  by_cases hch : ch' = ch
  · subst hch
    dsimp only
    rwa [Function.update_self]
  · have hne : ch'.index ≠ ch.index := fun he => hch (by cases ch <;> cases ch' <;> simp_all [Channel.index])
    dsimp only
    rw [Function.update_of_ne hne]
    exact h.voltage ch'

theorem Tells.setCurrent (h : Tells rs s) {n : Int} (hn : n = 0 ∨ .current n ∈ rs) :
    Tells rs { s with current := Function.update s.current ⟨0, Nat.zero_lt_two⟩ n } :=
  ⟨h.voltage, hn, h.current_one, h.connected⟩

theorem Tells.mono (h : Tells rs s) {rs' : List Reading} (hsub : ∀ r ∈ rs, r ∈ rs') : Tells rs' s :=
  ⟨fun ch => (h.voltage ch).imp_right (hsub _), h.current.imp_right (hsub _), h.current_one, h.connected⟩

end Shared

end PowerMonitor
