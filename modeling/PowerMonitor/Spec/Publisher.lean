import PowerMonitor.Lemmas.Replies
import Mathlib.Data.List.Induction

/-!
# What the daemon is for

Seen from the shared memory the daemon is a publisher: it reads lines, and a line that reports a reading replaces the value of that
reading's supply. Losing the connection takes all values back.

Nothing here is about the receive buffer, the reads or the descriptor of the daemon.
-/

namespace PowerMonitor

open CString CmdParse

/-- What a line reports: a voltage of a supply, or the one current that the daemon knows. -/
inductive Reading where
  | voltage (ch : Channel) (n : Int)
  | current (n : Int)
  deriving DecidableEq, Repr

namespace Reading

/-- The supply that an argument begins with. -/
def channel (a : List UInt8) : Option Channel :=
  if bytes "Pri" <+: skipSpace a then some .pri else if bytes "Sec" <+: skipSpace a then some .sec else none

/-- What a line reports. Its label is only compared as far as the label goes. -/
def ofLine (l : List UInt8) : Option Reading :=
  if bytes "Voltage" <+: nameOf l then
    (argOf l).bind fun a => (channel a).map fun ch => .voltage ch (numberOf a)
  else if bytes "current" <+: nameOf l then (argOf l).map fun a => .current (PMon.atoi (skipSpace a))
  else none

theorem channel_eq_some {a : List UInt8} {ch : Channel} (h : channel a = some ch) : ch.name <+: skipSpace a := by
  unfold channel at h
  split at h
  · next hp =>
    obtain rfl := Option.some.inj h
    exact hp
  · split at h
    · next hs =>
      obtain rfl := Option.some.inj h
      exact hs
    · cases h

theorem channel_eq_none {a : List UInt8} (h : channel a = none) (ch : Channel) : ¬ ch.name <+: skipSpace a := by
  unfold channel at h
  split at h
  · cases h
  · next hp =>
    split at h
    · cases h
    · next hs =>
      cases ch with
      | pri => exact hp
      | sec => exact hs

end Reading

/-- The values that are published, in thousandths. -/
structure Published where
  voltage : Channel → Int
  current : Fin 2 → Int

namespace Published

/-- No value. -/
def zero : Published := { voltage := fun _ => 0, current := fun _ => 0 }

/-- A reading replaces a value. -/
def put (v : Published) : Reading → Published
  | .voltage ch n => { v with voltage := Function.update v.voltage ch n }
  | .current n => { v with current := Function.update v.current ⟨0, Nat.zero_lt_two⟩ n }

/-- The readings of some lines, one after another. -/
def after (v : Published) (ls : List (List UInt8)) : Published := (ls.filterMap Reading.ofLine).foldl put v

theorem after_append (v : Published) (ls ls' : List (List UInt8)) : v.after (ls ++ ls') = (v.after ls).after ls' := by
  rw [after, after, after, List.filterMap_append, List.foldl_append]

end Published

end PowerMonitor
