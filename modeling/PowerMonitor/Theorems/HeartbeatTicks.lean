import PowerMonitor.Firmware.Heartbeat
import PowerMonitor.Lib.Monitor

/-!
# Milliseconds between the interrupt and the main loop

The SysTick interrupt and the main loop share an 8-bit counter. Each time it wraps, 256 ticks are lost for good: the ticks that
have occurred are those taken and those in the counter exactly as long as no more than 255 have been waiting.
-/

namespace PowerMonitor

/-- A call of `Heartbeat_Tick` or of `Hearbeat_Run`. -/
inductive BeatOp where
  | tick
  | run
  deriving DecidableEq, Repr

namespace Heartbeat

/-- The number of calls of `Hearbeat_Run` that have returned true, and the counters, after one more call. -/
def step (s : Nat × Heartbeat) : BeatOp → Nat × Heartbeat
  | .tick => (s.1, s.2.tick)
  | .run => (if s.2.run.1 then s.1 + 1 else s.1, s.2.run.2)

/-- The calls of a run. -/
def calls (ops : List BeatOp) : Nat × Heartbeat := ops.foldl step (0, .reset)

/-- No tick is lost: those that have occurred have been taken or are in the counter. -/
def TickLaw (ops : List BeatOp) : Prop := ops.count .tick = (calls ops).1 + (calls ops).2.msCounter

instance (ops : List BeatOp) : Decidable (TickLaw ops) :=
  inferInstanceAs (Decidable (ops.count .tick = (calls ops).1 + (calls ops).2.msCounter))

/-- The ticks that wait for `Hearbeat_Run`, one more for each tick and one less for each call. -/
def waiting (ops : List BeatOp) : Nat :=
  ops.foldl (fun n op => match op with
    | .tick => n + 1
    | .run => n - 1) 0

/-- What a run keeps, with the number of times the counter has wrapped. -/
structure Counted (ops : List BeatOp) (wraps : Nat) : Prop where
  ticks : ops.count .tick = (calls ops).1 + (calls ops).2.msCounter + 256 * wraps
  small : (calls ops).2.msCounter < 256
  waiting : wraps = 0 → waiting ops = (calls ops).2.msCounter
  never : wraps = 0 ↔ ∀ pre, pre <+: ops → Heartbeat.waiting pre ≤ 255

end Heartbeat

open Heartbeat

theorem calls_snoc (ops : List BeatOp) (op : BeatOp) : calls (ops ++ [op]) = step (calls ops) op := by
  rw [calls, List.foldl_append, calls, List.foldl_cons, List.foldl_nil]

namespace Heartbeat

/-- Step lemma: a tick. The counter wraps when 255 ticks were in it. -/
theorem Counted.tick {ops : List BeatOp} {wraps : Nat} (h : Counted ops wraps) : ∃ wraps', Counted (ops ++ [.tick]) wraps' := by
  obtain ⟨ht, hs, hw, hn⟩ := h
  have hcalls : calls (ops ++ [.tick]) = ((calls ops).1, (calls ops).2.tick) := calls_snoc ops .tick
  have hms : (calls (ops ++ [.tick])).2.msCounter = ((calls ops).2.msCounter + 1) % 256 := by rw [hcalls]; rfl
  have hcount : (ops ++ [BeatOp.tick]).count .tick = ops.count .tick + 1 := by simp
  have hwait : Heartbeat.waiting (ops ++ [.tick]) = Heartbeat.waiting ops + 1 := by simp [Heartbeat.waiting]
  have hfst : (calls (ops ++ [.tick])).1 = (calls ops).1 := by rw [hcalls]
  by_cases hfull : (calls ops).2.msCounter = 255
  · refine ⟨wraps + 1, ?_, by omega, by omega, ?_⟩
    · rw [hcount, hfst, hms, ht]
      omega
    · rw [forall_prefix_snoc, ← hn, hwait]
      constructor
      · omega
      · rintro ⟨h0, hle⟩
        have := hw h0
        omega
  · refine ⟨wraps, ?_, by omega, ?_, ?_⟩
    · rw [hcount, hfst, hms, ht]
      omega
    · intro h0
      rw [hwait, hms, hw h0]
      omega
    · rw [forall_prefix_snoc, ← hn, hwait]
      constructor
      · intro h0
        have := hw h0
        exact ⟨h0, by omega⟩
      · exact fun h => h.1

/-- Step lemma: a call of `Hearbeat_Run`. -/
theorem Counted.run {ops : List BeatOp} {wraps : Nat} (h : Counted ops wraps) : Counted (ops ++ [.run]) wraps := by
  obtain ⟨ht, hs, hw, hn⟩ := h
  have hcalls : calls (ops ++ [.run]) = step (calls ops) .run := calls_snoc ops .run
  have hcount : (ops ++ [BeatOp.run]).count .tick = ops.count .tick := by simp
  have hwait : Heartbeat.waiting (ops ++ [.run]) = Heartbeat.waiting ops - 1 := by simp [Heartbeat.waiting]
  have hms : (calls (ops ++ [.run])).2.msCounter = (calls ops).2.msCounter - 1 ∧
      (calls (ops ++ [.run])).1 + (calls (ops ++ [.run])).2.msCounter = (calls ops).1 + (calls ops).2.msCounter := by
    rw [hcalls]
    by_cases h0 : (calls ops).2.msCounter = 0
    · simp [step, Heartbeat.run, h0]
    · simp only [step, Heartbeat.run, ne_eq, h0, not_false_eq_true, if_true, true_and]
      omega
  refine ⟨by rw [hcount, ht, hms.2], by omega, fun h0 => by rw [hwait, hms.1, hw h0], ?_⟩
  rw [forall_prefix_snoc, ← hn, hwait]
  constructor
  · intro h0
    have := hw h0
    exact ⟨h0, by omega⟩
  · exact fun h => h.1

/-- Run lemma. -/
theorem exists_counted (ops : List BeatOp) : ∃ wraps, Counted ops wraps := by
  induction ops using List.reverseRecOn with
  | nil => exact ⟨0, rfl, by decide, fun _ => rfl, by simp [waiting]⟩
  | append_singleton ops op ih =>
    obtain ⟨wraps, h⟩ := ih
    cases op with
    | tick => exact h.tick
    | run => exact ⟨wraps, h.run⟩

end Heartbeat

/-- The ticks that have occurred are those for which `Hearbeat_Run` returned true and those in `ms_counter`, exactly when no
more than 255 ticks have ever been waiting. -/
theorem no_tick_lost_iff (ops : List BeatOp) : TickLaw ops ↔ ∀ pre, pre <+: ops → waiting pre ≤ 255 := by
  obtain ⟨wraps, h⟩ := exists_counted ops
  rw [← h.never, TickLaw, h.ticks]
  omega

/-- The main loop is held up for 256 ms: the counter is back at 0, and `Hearbeat_Run` takes nothing. -/
theorem tick_lost :
    (calls (List.replicate 256 .tick)).2.msCounter = 0 ∧ (calls (List.replicate 256 .tick)).2.run.1 = false ∧
      ¬ TickLaw (List.replicate 256 .tick) := by
  decide +kernel

end PowerMonitor
