import PowerMonitor.Theorems.DaemonSession

/-!
# When the daemon polls

`PMon_Poll` keeps the time of the last poll in a static, which nothing resets, and polls when the clock has gone on by a second. Over a
run, with any losses of the connection and any jumps of the clock, the polls are the records of the clock: a pass polls if and only if
its time is later than that of every pass before it.

The times are `int` values in the source, so this is about clocks before January 2038.
-/

namespace PowerMonitor

namespace Daemon

open PMon CmdParse

/-- The times that `PMon_Poll` sees in some steps. -/
def clock : List SysIn → Daemon → List Int
  | [], _ => []
  | env :: envs, d => (if 0 ≤ d.serialFd then [env.time] else []) ++ (d.step env).elim [] (clock envs)

/-- What `time` returns, as long as an `int` holds it: -1 when it fails. -/
def IsTime (t : Int) : Prop := -1 ≤ t ∧ t < 2 ^ 31

instance (t : Int) : Decidable (IsTime t) := inferInstanceAs (Decidable (_ ∧ _))

/-- The time of the last poll is one. -/
def Timed (d : Daemon) : Prop := 0 ≤ d.pmon.last ∧ d.pmon.last < 2 ^ 31

/-! ## The time of the last poll -/

theorem IsTime.int_eq {t : Int} (h : IsTime t) : int t = t := PowerMonitor.int_eq (le_trans (by decide) h.1) h.2

/-- A poll is due if and only if the time is later than that of the last poll. -/
theorem due_iff {env : SysIn} {d : Daemon} (hd : d.Timed) (ht : IsTime env.time) : Due env d ↔ d.pmon.last < env.time := by
  have hdiff : int (env.time - d.pmon.last) = env.time - d.pmon.last := by
    obtain ⟨hd₀, hd₁⟩ := hd
    obtain ⟨ht₀, ht₁⟩ := ht
    exact int_eq (by omega) (by omega)
  rw [Due, ht.int_eq, hdiff]
  omega

theorem cmdTable_last : ∀ e ∈ cmdTable, ∀ fd arg (s : PMon), (e.func fd arg s).2.last = s.last := by
  intro e he fd arg s
  simp only [cmdTable, List.mem_cons, List.not_mem_nil, or_false] at he
  rcases he with rfl | rfl
  · cases arg with
    | none => rfl
    | some buf =>
      unfold receiveVoltage
      dsimp only
      split
      · rfl
      · split <;> rfl
  · cases arg <;> rfl

/-- The received lines leave it. -/
theorem drain_last (fuel : Nat) : ∀ {rv : Int} {d d' : Daemon}, drain fuel rv d = some d' → d'.pmon.last = d.pmon.last := by
  induction fuel with
  | zero =>
    intro rv d d' h
    rw [drain] at h
    split at h
    · cases h
    · rw [← Option.some.inj h]
  | succ fuel ih =>
    intro rv d d' h
    rw [drain] at h
    split at h
    · have hst := processString_st (R := fun s s' : PMon => s'.last = s.last) (fun _ => rfl) cmdTable_last d.readBuf d.serialFd d.pmon
      exact (ih h).trans hst
    · rw [← Option.some.inj h]

theorem checkSerial_last (rv close : Int) (d : Daemon) : (d.checkSerial rv close).pmon.last = d.pmon.last := by
  unfold checkSerial
  split <;> rfl

theorem receive_last {env : SysIn} {d d' : Daemon} (h : d.receive env = some d') : d'.pmon.last = d.pmon.last := by
  unfold receive at h
  split at h
  · rw [← Option.some.inj h, checkSerial_last]
    rfl
  · unfold receiveData at h
    split at h
    · rw [drain_last _ h]
      rfl
    · rw [← Option.some.inj h]
      rfl

/-- A poll takes the time, and one that is not due finds it no later. -/
theorem poll_last {env : SysIn} {d : Daemon} (hd : d.Timed) (ht : IsTime env.time) :
    (d.pmon.poll env.time env.write d.serialFd).2.last = max d.pmon.last env.time := by
  have hdue := due_iff hd ht
  unfold poll
  dsimp only
  split
  · next h => exact ht.int_eq.trans (max_eq_right (hdue.mp h).le).symm
  · next h => exact (max_eq_left (not_lt.mp (hdue.not.mp h))).symm

theorem connectToPort_last (env : SysIn) (d : Daemon) : (d.connectToPort env).pmon.last = d.pmon.last := by
  by_cases ho : env.openRv < 0
  · simp [connectToPort, openPort, ho, act, PMon.act]
  · by_cases ht : env.tcsetattr = -1
    · simp [connectToPort, openPort, ho, ht, act, PMon.act]
    · simp [connectToPort, openPort, ho, ht, act, PMon.act, setConnected, setStartup, sendRestart]

/-- Step lemma: a pass of the inner loop takes its time, a connection leaves it. -/
theorem step_last {env : SysIn} {d d' : Daemon} (hd : d.Timed) (ht : 0 ≤ d.serialFd → IsTime env.time) (h : d.step env = some d') :
    d'.pmon.last = if 0 ≤ d.serialFd then max d.pmon.last env.time else d.pmon.last := by
  by_cases hfd : 0 ≤ d.serialFd
  · rw [if_pos hfd, ← poll_last hd (ht hfd)]
    have h := step_of_nonneg hfd h
    unfold iteration at h
    dsimp only at h
    split at h
    · rw [← Option.some.inj h]
      exact checkSerial_last ..
    · split at h
      · exact (receive_last h).trans (checkSerial_last ..)
      · rw [← Option.some.inj h]
        exact checkSerial_last ..
  · rw [if_neg hfd, step_of_neg (by omega) h, connectToPort_last]
    rfl

/-- Run lemma: the time of the last poll is the latest that there has been. -/
theorem steps_last (envs : List SysIn) : ∀ {d d' : Daemon}, d.Timed → (∀ t ∈ clock envs d, IsTime t) → steps envs d = some d' →
    d'.Timed ∧ d'.pmon.last = (clock envs d).foldl max d.pmon.last := by
  induction envs with
  | nil =>
    intro d d' hd _ h
    obtain rfl := Option.some.inj h
    exact ⟨hd, rfl⟩
  | cons env envs ih =>
    intro d d' hd ht h
    obtain ⟨d₁, hd₁, h⟩ := Option.bind_eq_some_iff.mp h
    rw [clock, hd₁, Option.elim_some] at ht ⊢
    obtain ⟨hnow, hlater⟩ := List.forall_mem_append.mp ht
    have hlast := step_last hd (fun hfd => hnow env.time (by rw [if_pos hfd]; exact List.mem_singleton_self _)) hd₁
    have htimed : d₁.Timed := by
      unfold Timed at hd ⊢
      rw [hlast]
      split
      · next hfd =>
        obtain ⟨-, hlt⟩ := hnow env.time (by rw [if_pos hfd]; exact List.mem_singleton_self _)
        exact ⟨le_max_of_le_left hd.1, max_lt hd.2 hlt⟩
      · exact hd
    obtain ⟨hd', he⟩ := ih htimed hlater h
    refine ⟨hd', ?_⟩
    rw [he, List.foldl_append, hlast]
    split <;> rfl

theorem foldl_max_lt_iff (ts : List Int) (m n : Int) : ts.foldl max m < n ↔ m < n ∧ ∀ t ∈ ts, t < n := by
  induction ts generalizing m with
  | nil => simp
  | cons t ts ih => rw [List.foldl_cons, ih, max_lt_iff, List.forall_mem_cons, and_assoc]

/-! ## Polls -/

/-- A pass polls if and only if a poll is due. -/
theorem step_polls {env : SysIn} {d d' : Daemon} (hfd : 0 ≤ d.serialFd) (h : d.step env = some d') :
    ∃ new, d'.pmon.trace = d.pmon.trace ++ new ∧ ((∃ fd rv, .write fd single rv ∈ new) ↔ Due env d) := by
  obtain ⟨rest, ht, hcases⟩ := iteration_cases (step_of_nonneg hfd h)
  have hclear : ∀ fd rv, .write fd single rv ∉ clearActs := by simp [clearActs]
  have hrest : ∀ fd rv, .write fd single rv ∉ rest := by
    rcases hcases with ⟨-, rfl, -⟩ | ⟨-, -, -, rfl, -⟩ | ⟨-, -, -, n, acc, hacc, rfl, -⟩
    · simp
    · simp [hclear]
    · intro fd rv hm
      rcases List.mem_cons.mp hm with he | hm
      · cases he
      · cases hacc _ hm
  refine ⟨_, ht, ?_⟩
  constructor
  · rintro ⟨fd, rv, hm⟩
    by_contra hdue
    rw [pollActs, if_neg hdue, List.nil_append] at hm
    rcases List.mem_cons.mp hm with he | hm
    · cases he
    · exact hrest fd rv hm
  · intro hdue
    refine ⟨d.serialFd, env.write, List.mem_append_left _ ?_⟩
    rw [pollActs, if_pos hdue]
    exact List.mem_cons_self

theorem startup_last {start : StartupIn} {buf : List UInt8} (hup : ((initial buf).startup start).1 = true) :
    ((initial buf).startup start).2.pmon.last = 0 := by
  unfold startup at hup ⊢
  dsimp only at hup ⊢
  split at hup
  · cases hup
  · split at hup
    · cases hup
    · next hok hd =>
      rw [if_neg hok, if_neg hd]
      unfold createSharedMemory
      split
      · rfl
      · split
        · rfl
        · split <;> rfl

end Daemon

/-- As long as an `int` holds the times, a pass of the inner loop polls if and only if its time is positive and later than the time of
every pass before it, over all connections: no two polls have the same time, and a clock that is put back stops the polls until it
has caught up. -/
theorem polls_are_records {start : PMon.StartupIn} {buf : List UInt8} (hup : ((Daemon.initial buf).startup start).1 = true)
    (connect : SysIn) (envs : List SysIn) (ht : ∀ t ∈ Daemon.clock envs (Daemon.started start connect buf), Daemon.IsTime t)
    {d d' : Daemon} (hd : Daemon.main start connect envs buf = some d) (hfd : 0 ≤ d.serialFd) {env : SysIn}
    (htime : Daemon.IsTime env.time) (h : d.step env = some d') :
    ∃ new, d'.pmon.trace = d.pmon.trace ++ new ∧
      ((∃ fd rv, .write fd PMon.single rv ∈ new) ↔
        0 < env.time ∧ ∀ t ∈ Daemon.clock envs (Daemon.started start connect buf), t < env.time) := by
  rw [Daemon.main, if_pos hup] at hd
  have hzero : (Daemon.started start connect buf).pmon.last = 0 :=
    (Daemon.connectToPort_last connect _).trans (Daemon.startup_last hup)
  have htimed : (Daemon.started start connect buf).Timed := by
    rw [Daemon.Timed, hzero]
    decide
  obtain ⟨htimed', hlast⟩ := Daemon.steps_last envs htimed ht hd
  rw [hzero] at hlast
  rw [← Daemon.foldl_max_lt_iff, ← hlast, ← Daemon.due_iff htimed' htime]
  exact Daemon.step_polls hfd h

/-- The daemon has polled, and then the clock is put back. -/
theorem polls_are_records_put_back :
    let clockAt (t : Int) : SysIn := { SysIn.bringing [] with time := t, isset := false }
    let first := Daemon.started .good (.bringing []) (List.replicate readBufSize 0)
    ∃ d d' new, Daemon.main .good (.bringing []) [clockAt 100] (List.replicate readBufSize 0) = some d ∧ d.step (clockAt 50) = some d' ∧
      Daemon.clock [clockAt 100] first = [100] ∧ d'.pmon.trace = d.pmon.trace ++ new ∧ ¬ ∃ fd rv, .write fd PMon.single rv ∈ new := by
  intro clockAt first
  have hup : ((Daemon.initial (List.replicate readBufSize 0)).startup .good).1 = true := rfl
  obtain ⟨d, hd, hfd, d', hd'⟩ : ∃ d, Daemon.main .good (.bringing []) [clockAt 100] (List.replicate readBufSize 0) = some d ∧
      0 ≤ d.serialFd ∧ ∃ d', d.step (clockAt 50) = some d' := ⟨_, rfl, by decide, _, rfl⟩
  have hclock : Daemon.clock [clockAt 100] first = [100] := rfl
  obtain ⟨new, ht, hiff⟩ := polls_are_records hup (.bringing []) [clockAt 100] (hclock ▸ by decide) hd hfd
    (show Daemon.IsTime 50 by decide) hd'
  refine ⟨d, d', new, hd, hd', hclock, ht, ?_⟩
  rw [hiff, hclock]
  decide

end PowerMonitor
