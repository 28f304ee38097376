import Mathlib.Algebra.Group.Nat.Defs

/-!
# The heartbeat (Heartbeat.c)

The SysTick interrupt counts milliseconds and the main loop takes them one at a time. The counters have 8, 32 and 16 bits and
wrap.
-/

namespace PowerMonitor

/-- The statics of Heartbeat.c. -/
structure Heartbeat where
  msCounter : Nat
  aliveCounter : Nat
  count10ms : Nat
  count100ms : Nat
  count1s : Nat
  deriving DecidableEq, Repr

namespace Heartbeat

/-- The counters at reset. -/
def reset : Heartbeat := { msCounter := 0, aliveCounter := 0, count10ms := 0, count100ms := 0, count1s := 0 }

/-- `Heartbeat_Tick`. -/
def tick (b : Heartbeat) : Heartbeat :=
  { b with msCounter := (b.msCounter + 1) % 256, aliveCounter := (b.aliveCounter + 1) % 2 ^ 32 }

/-- `Hearbeat_Run`. -/
def run (b : Heartbeat) : Bool × Heartbeat :=
  if b.msCounter ≠ 0 then
    (true, { b with
      msCounter := b.msCounter - 1
      count1s := (b.count1s + 1) % 65536
      count10ms := (b.count10ms + 1) % 256
      count100ms := (b.count100ms + 1) % 256 })
  else (false, b)

/-- `Is_10ms`. -/
def is10ms (b : Heartbeat) : Bool × Heartbeat := if b.count10ms ≥ 10 then (true, { b with count10ms := 0 }) else (false, b)

/-- `Is_1s`. -/
def is1s (b : Heartbeat) : Bool × Heartbeat := if b.count1s ≥ 1000 then (true, { b with count1s := 0 }) else (false, b)

end Heartbeat

end PowerMonitor
