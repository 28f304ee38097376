import PowerMonitor.Lemmas.Lookups

/-!
# The triggers of the main loop

`Hearbeat_Run` counts the milliseconds it takes in a divider for 10 ms and one for 1 s. The main loop looks at both dividers
after every call, so neither goes past its period and the reset to zero loses nothing: the triggers are the milliseconds taken,
divided by the period.
-/

namespace PowerMonitor

open CString CmdProcessor Outcome

/-- The ticks of a pass of the main loop that arrive before `Hearbeat_Run`, between it and `Is_10ms`, and between that and
`Is_1s`. -/
structure PassTicks where
  beforeRun : Nat
  before10ms : Nat
  before1s : Nat
  deriving DecidableEq, Repr

/-- The counters, and how often `Hearbeat_Run`, `Is_10ms` and `Is_1s` have returned true. -/
structure Triggers where
  beat : Heartbeat
  runs : Nat
  tens : Nat
  seconds : Nat
  deriving DecidableEq, Repr

namespace Triggers

/-- Before the first pass. -/
def reset : Triggers := { beat := .reset, runs := 0, tens := 0, seconds := 0 }

/-- A pass of the main loop. -/
def pass (s : Triggers) (ticks : PassTicks) : Triggers :=
  let r₁ := (Nat.iterate Heartbeat.tick ticks.beforeRun s.beat).run
  let r₂ := (Nat.iterate Heartbeat.tick ticks.before10ms r₁.2).is10ms
  let r₃ := (Nat.iterate Heartbeat.tick ticks.before1s r₂.2).is1s
  { beat := r₃.2, runs := s.runs + r₁.1.toNat, tens := s.tens + r₂.1.toNat, seconds := s.seconds + r₃.1.toNat }

/-- The passes of a run. -/
def run (passes : List PassTicks) : Triggers := passes.foldl pass reset

/-- A divider that has seen `k` milliseconds: it has triggered `fired` times, and `count` milliseconds of the next period are over. -/
structure Divided (period k count fired : Nat) : Prop where
  lt : count < period
  eq : period * fired + count = k

theorem Divided.fired_eq {period k count fired : Nat} (h : Divided period k count fired) : fired = k / period := by
  obtain ⟨hlt, rfl⟩ := h
  rw [Nat.add_comm, Nat.add_mul_div_left _ _ (Nat.zero_lt_of_lt hlt), Nat.div_eq_of_lt hlt, Nat.zero_add]

/-- A divider is looked at that has not gone past its period: it starts again when the period is full. -/
theorem Divided.poll {period k n fired : Nat} (hpos : 0 < period) (hn : n ≤ period) (h : period * fired + n = k) :
    if n ≥ period then Divided period k 0 (fired + 1) else Divided period k n fired := by
  split
  · refine ⟨hpos, ?_⟩
    rw [Nat.mul_succ]
    omega
  · exact ⟨by omega, h⟩

/-- Between two passes both dividers have seen the milliseconds taken. -/
structure InStep (s : Triggers) : Prop where
  tens : Divided 10 s.runs s.beat.count10ms s.tens
  seconds : Divided 1000 s.runs s.beat.count1s s.seconds

/-! ## Calls -/

/-- Ticks leave the dividers alone. -/
theorem iterate_tick_counts (n : Nat) : ∀ b : Heartbeat,
    (Nat.iterate Heartbeat.tick n b).count10ms = b.count10ms ∧ (Nat.iterate Heartbeat.tick n b).count1s = b.count1s := by
  induction n with
  | zero => exact fun _ => ⟨rfl, rfl⟩
  | succ n ih => exact fun b => ih b.tick

/-- `Hearbeat_Run` counts the millisecond it takes in both dividers: they are too small to wrap. -/
theorem run_counts (b : Heartbeat) (h10 : b.count10ms < 10) (h1 : b.count1s < 1000) :
    b.run.2.count10ms = b.count10ms + b.run.1.toNat ∧ b.run.2.count1s = b.count1s + b.run.1.toNat := by
  unfold Heartbeat.run
  split
  · exact ⟨Nat.mod_eq_of_lt (by omega), Nat.mod_eq_of_lt (by omega)⟩
  · exact ⟨rfl, rfl⟩

theorem is10ms_divided {b : Heartbeat} {k fired : Nat} (hn : b.count10ms ≤ 10) (h : 10 * fired + b.count10ms = k) :
    Divided 10 k b.is10ms.2.count10ms (fired + b.is10ms.1.toNat) ∧ b.is10ms.2.count1s = b.count1s := by
  have hpoll := Divided.poll (by decide) hn h
  unfold Heartbeat.is10ms
  split
  · next hge => exact ⟨by rwa [if_pos hge] at hpoll, rfl⟩
  · next hge => exact ⟨by rwa [if_neg hge] at hpoll, rfl⟩

theorem is1s_divided {b : Heartbeat} {k fired : Nat} (hn : b.count1s ≤ 1000) (h : 1000 * fired + b.count1s = k) :
    Divided 1000 k b.is1s.2.count1s (fired + b.is1s.1.toNat) ∧ b.is1s.2.count10ms = b.count10ms := by
  have hpoll := Divided.poll (by decide) hn h
  unfold Heartbeat.is1s
  split
  · next hge => exact ⟨by rwa [if_pos hge] at hpoll, rfl⟩
  · next hge => exact ⟨by rwa [if_neg hge] at hpoll, rfl⟩

/-! ## Runs -/

/-- Step lemma. -/
theorem InStep.pass {s : Triggers} (h : s.InStep) (ticks : PassTicks) : (s.pass ticks).InStep := by
  obtain ⟨⟨hlt10, heq10⟩, ⟨hlt1, heq1⟩⟩ := h
  unfold Triggers.pass
  dsimp only
  obtain ⟨h₀10, h₀1⟩ := iterate_tick_counts ticks.beforeRun s.beat
  generalize Nat.iterate Heartbeat.tick ticks.beforeRun s.beat = b₀ at *
  obtain ⟨h₁10, h₁1⟩ := run_counts b₀ (by omega) (by omega)
  have hone : b₀.run.1.toNat ≤ 1 := Bool.toNat_le _
  obtain ⟨h₂10, h₂1⟩ := iterate_tick_counts ticks.before10ms b₀.run.2
  generalize Nat.iterate Heartbeat.tick ticks.before10ms b₀.run.2 = b₂ at *
  have hsum10 : 10 * s.tens + b₂.count10ms = s.runs + b₀.run.1.toNat := by omega
  obtain ⟨htens, h₃1⟩ := is10ms_divided (by omega) hsum10
  obtain ⟨h₄10, h₄1⟩ := iterate_tick_counts ticks.before1s b₂.is10ms.2
  generalize Nat.iterate Heartbeat.tick ticks.before1s b₂.is10ms.2 = b₄ at *
  have hsum1 : 1000 * s.seconds + b₄.count1s = s.runs + b₀.run.1.toNat := by omega
  obtain ⟨hsec, h₅10⟩ := is1s_divided (by omega) hsum1
  refine ⟨?_, hsec⟩
  dsimp only
  rw [h₅10, h₄10]
  exact htens

/-- Run lemma. -/
theorem run_inStep (passes : List PassTicks) : (run passes).InStep := by
  unfold run
  refine List.foldlRecOn passes pass ?_ fun s h ticks _ => h.pass ticks
  exact ⟨⟨by decide, rfl⟩, ⟨by decide, rfl⟩⟩

end Triggers

/-- After every pass of the main loop, with ticks arriving anywhere: when `Hearbeat_Run` has returned true `k` times, `Is_10ms` has
returned true `k / 10` times and `Is_1s` `k / 1000` times. -/
theorem triggers_in_step (passes : List PassTicks) :
    (Triggers.run passes).tens = (Triggers.run passes).runs / 10 ∧
      (Triggers.run passes).seconds = (Triggers.run passes).runs / 1000 := by
  have h := Triggers.run_inStep passes
  exact ⟨h.tens.fired_eq, h.seconds.fired_eq⟩

/-! ## The firmware -/

namespace Firmware

/-- How often `EE_Cache_Check` has run in the main loop. -/
def cacheChecks (fw : Firmware) : Nat := fw.events.count .cacheCheck

/-- The heartbeat is the same in both states, and `EE_Cache_Check` has not run in between. -/
structure SameBeat (fw fw' : Firmware) : Prop where
  beat : fw'.beat = fw.beat
  checks : fw'.cacheChecks = fw.cacheChecks

theorem SameBeat.refl (fw : Firmware) : SameBeat fw fw := ⟨rfl, rfl⟩

theorem SameBeat.trans {fw fw' fw'' : Firmware} (h : SameBeat fw fw') (h' : SameBeat fw' fw'') : SameBeat fw fw'' :=
  ⟨h'.beat.trans h.beat, h'.checks.trans h.checks⟩

theorem CommandFrame.sameBeat {fw fw' : Firmware} (h : CommandFrame fw fw') : SameBeat fw fw' := by
  obtain ⟨es, he, hes⟩ := h.events
  have hnot : FwEvent.cacheCheck ∉ es := fun hm => (hes _ hm).2 rfl
  refine ⟨?_, ?_⟩
  · rw [h.rest]
  · rw [cacheChecks, he, List.count_append, List.count_eq_zero_of_not_mem hnot, Nat.add_zero, cacheChecks]

/-- A complete line runs no cache check. -/
theorem handleLine_sameBeat (b : Build) (line : List UInt8) (fw : Firmware) :
    Ends (SameBeat fw) (fun _ => True) (handleLine b line fw) := by
  have hl : SameBeat fw ((fw.putChar lf).log (.line line)) := by
    refine (putChar_printed fw lf).commandFrame.sameBeat.trans ⟨rfl, ?_⟩
    simp [cacheChecks, log]
  refine Ends.bind ((lookup_frame b line _ ((fw.putChar lf).log (.line line))).mono (fun _ h => h) fun _ _ => trivial) ?_
  rintro ⟨rv, resp, fw'⟩ h
  have hp := (putString_printed resp.buffer { fw' with resp := resp }).commandFrame.sameBeat
  exact (hl.trans h.sameBeat).trans ⟨hp.beat, hp.checks⟩

theorem receiveChar_sameBeat (b : Build) (c : UInt8) (fw : Firmware) :
    Ends (SameBeat fw) (fun _ => True) (receiveChar b c fw) := by
  unfold receiveChar
  split
  · split
    · exact (handleLine_sameBeat b (text fw.msgBuf) fw).bind fun fw' h => ⟨h.beat, h.checks⟩
    · exact SameBeat.refl fw
  · split
    · exact ⟨rfl, rfl⟩
    · exact SameBeat.refl fw

/-- The state of the main loop goes with the triggers. -/
structure Follows (s : Triggers) (fw : Firmware) : Prop where
  ready : fw.Ready
  beat : fw.beat = s.beat
  checks : fw.cacheChecks = s.tens

/-- `Run_Config` touches neither the heartbeat nor the count of cache checks. -/
theorem runConfig_sameBeat {fw : Firmware} (h : fw.Ready) (b : Build) :
    Ends (fun fw' => fw'.Ready ∧ SameBeat fw fw') (fun _ => True) (runConfig b fw) := by
  have hk : KeptByChars b (fun fw' => fw'.Ready ∧ SameBeat fw fw') fun _ => True := by
    refine ⟨fun _ hI => hI.1, ?_⟩
    rintro fw' ⟨hready, hbeat⟩ hr
    have hchar := receiveChar_ends (getChar_spec hready hr).1 b fw'.uart.getChar.1
    refine (hchar.and (receiveChar_sameBeat b _ _)).mono (fun _ hI => ⟨hI.1.2.ready, hbeat.trans ⟨hI.2.beat, hI.2.checks⟩⟩) ?_
    rintro (fw'' | _) he
    · trivial
    · exact he.1
  exact (runConfig_ends hk ⟨h, SameBeat.refl fw⟩).mono (fun _ hI => hI.1) fun _ _ => trivial

/-- `EE_Cache_Check` is called once and leaves the heartbeat. -/
theorem cacheCheck_checks {fw : Firmware} (h : fw.Ready) :
    Ends (fun fw' => fw'.Ready ∧ fw'.beat = fw.beat ∧ fw'.cacheChecks = fw.cacheChecks + 1) (fun _ => True) fw.cacheCheck := by
  obtain ⟨fw', he, hr, -⟩ := cacheCheck_spec h
  rw [he]
  refine ⟨hr, ?_⟩
  unfold cacheCheck at he
  cases hc : fw.ee.cacheCheck with
  | none =>
    rw [hc] at he
    cases he
  | some r =>
    rw [hc] at he
    cases he
    exact ⟨rfl, by simp [cacheChecks, log]⟩

/-- A pass of the firmware's main loop, whose ticks all arrive before `Hearbeat_Run`. -/
def passTicks (env : LoopIn) : PassTicks := { beforeRun := env.ticks, before10ms := 0, before1s := 0 }

/-- The end of a pass: the one second divider. -/
theorem follows_second {fw : Firmware} {beat : Heartbeat} {runs tens seconds : Nat} (hready : fw.Ready) (hbeat : fw.beat = beat)
    (hchecks : fw.cacheChecks = tens) :
    Follows ⟨beat.is1s.2, runs, tens, seconds⟩
      (if fw.beat.is1s.1 then ({ fw with beat := fw.beat.is1s.2 } : Firmware).runChannels
        else { fw with beat := fw.beat.is1s.2 }) := by
  subst hbeat
  have hready' : ({ fw with beat := fw.beat.is1s.2 } : Firmware).Ready := hready.congr rfl
  split
  · exact ⟨(runChannels_quiet hready').ready, rfl, hchecks⟩
  · exact ⟨hready', rfl, hchecks⟩

/-- Step lemma. -/
theorem Follows.iteration {s : Triggers} {fw : Firmware} (h : Follows s fw) (b : Build) (env : LoopIn) :
    Ends (Follows (s.pass (passTicks env))) (fun _ => True) (iteration b env fw) := by
  have hbeat : (Nat.iterate Heartbeat.tick env.ticks fw.beat).run.2 = (Nat.iterate Heartbeat.tick env.ticks s.beat).run.2 := by
    rw [h.beat]
  unfold Firmware.iteration Triggers.pass passTicks
  dsimp only [Nat.iterate]
  rw [hbeat]
  generalize (Nat.iterate Heartbeat.tick env.ticks s.beat).run = r₁
  have hready₁ : ({ fw with beat := r₁.2 } : Firmware).Ready := h.ready.congr rfl
  have hchecks₁ : ({ fw with beat := r₁.2 } : Firmware).cacheChecks = s.tens := h.checks
  generalize hfw₁ : ({ fw with beat := r₁.2 } : Firmware) = fw₁ at *
  have hbeat₁ : fw₁.beat = r₁.2 := by rw [← hfw₁]
  have hint : (Nat.iterate interrupt env.interrupts fw₁).Ready ∧ SameBeat fw₁ (Nat.iterate interrupt env.interrupts fw₁) := by
    refine Function.Iterate.rec (fun fw' => fw'.Ready ∧ SameBeat fw₁ fw') ⟨hready₁, SameBeat.refl fw₁⟩ ?_ env.interrupts
    rintro fw' ⟨hr, hb⟩
    have hp := interrupt_printed fw'
    exact ⟨(hp.quiet hr).ready, hb.trans hp.commandFrame.sameBeat⟩
  obtain ⟨hready₂, hsame₂⟩ := hint
  have hp := interrupt_printed (Nat.iterate interrupt env.interrupts fw₁)
  refine (runConfig_sameBeat (hp.quiet hready₂).ready b).bind ?_
  rintro fw₃ ⟨hready₃, hsame₃⟩
  obtain ⟨hbeat₃, hchecks₃⟩ := (hsame₂.trans hp.commandFrame.sameBeat).trans hsame₃
  rw [hbeat₁] at hbeat₃
  rw [hchecks₁] at hchecks₃
  rw [hbeat₃]
  have hready₄ : ({ fw₃ with beat := r₁.2.is10ms.2 } : Firmware).Ready := hready₃.congr rfl
  split
  · next hten =>
    refine (cacheCheck_checks hready₄).bind ?_
    rintro fw₅ ⟨hready₅, hbeat₅, hchecks₅⟩
    exact follows_second hready₅ hbeat₅ (hchecks₅.trans (by rw [hten]; exact congrArg (· + 1) hchecks₃))
  · next hten =>
    have hzero : r₁.2.is10ms.1 = false := by simpa using hten
    rw [hzero]
    exact follows_second hready₄ rfl hchecks₃

/-- Run lemma. -/
theorem Follows.loop (b : Build) (envs : List LoopIn) : ∀ {s : Triggers} {fw : Firmware}, Follows s fw →
    Ends (Follows ((envs.map passTicks).foldl Triggers.pass s)) (fun _ => True) (loop b envs fw) := by
  induction envs with
  | nil => exact fun h => h
  | cons env envs ih => exact fun h => (h.iteration b env).bind fun _ h' => ih h'

theorem main_follows {b : Build} {board : Board} {envs : List LoopIn} {fw : Firmware} (h : main b board envs = .ok fw) :
    Follows (Triggers.run (envs.map passTicks)) fw := by
  obtain ⟨fw₀, he, hready, -, -, -, -, -, hev, hbeat⟩ := start_spec b board
  have hp := startup_printed fw₀
  have hsame := hp.commandFrame.sameBeat
  have hstart : Follows .reset
      ((fw₀.putString (bytes "\r\nSystem Startup\r\n")).putString (bytes ">> Diag,MAIN,Start up\r\n")) := by
    refine ⟨(hp.quiet hready).ready, hsame.beat.trans hbeat, hsame.checks.trans ?_⟩
    rw [cacheChecks, hev]
    rfl
  have hend := hstart.loop b envs
  rw [main, he] at h
  exact (congrArg (Ends (Follows (Triggers.run (envs.map passTicks))) fun _ => True) h).mp hend

end Firmware

/-- In a run of the firmware, when `Hearbeat_Run` has returned true `k` times, `EE_Cache_Check` has run `k / 10` times. -/
theorem cache_checks_in_step {b : Build} {board : Firmware.Board} {envs : List Firmware.LoopIn} {fw : Firmware}
    (h : Firmware.main b board envs = .ok fw) : fw.cacheChecks = (Triggers.run (envs.map Firmware.passTicks)).runs / 10 := by
  have hf := Firmware.main_follows h
  rw [hf.checks]
  exact (Triggers.run_inStep _).tens.fired_eq

end PowerMonitor
