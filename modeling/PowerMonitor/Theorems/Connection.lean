import PowerMonitor.Lemmas.DaemonTrace
import PowerMonitor.Lib.Monitor

/-!
# The daemon's connection and its segment

Two laws about the trace of the daemon, each read off by a monitor. `Check_Serial` stores in `Serial_fd` what `close` returned, 0
when it succeeds, and the pass of the inner loop it is called from goes on; it also detaches the shared memory, which is attached
only once. Both laws hold in exactly the runs in which no failure leads there.

A run goes on behind an access to the detached segment, which ends the real daemon: its trace is then that of the daemon up to there,
and what the code would have done next.
-/

namespace PowerMonitor

open CString PMon

/-- Whether a write or a read has failed and `Serial_Openport` has not succeeded since; until then no `select`, `read` or `write`
is allowed. -/
def link : Monitor Act Bool where
  next lost a :=
    match a with
    | .openPort rv => if 0 ≤ rv then false else lost
    | .write _ _ rv => if rv < 0 then true else lost
    | .read _ rv => if rv < 0 then true else lost
    | _ => lost
  Allows lost a :=
    match a with
    | .write _ _ _ => lost = false
    | .read _ _ => lost = false
    | .select _ _ => lost = false
    | _ => True

/-- Whether the segment is attached; only then an access and a detach are allowed. -/
def segment : Monitor Act Bool where
  next attached a :=
    match a with
    | .attach => true
    | .detach => false
    | _ => attached
  Allows attached a :=
    match a with
    | .access => attached = true
    | .detach => attached = true
    | _ => True

namespace Daemon

/-! ## The connection -/

/-- The law of the connection, between two steps: nothing was done on a descriptor after a failure, and after a failure the next
step is the reconnection. -/
def LinkLaw (d : Daemon) : Prop :=
  link.Safe false d.pmon.trace ∧ (link.run false d.pmon.trace = true → d.serialFd < 0)

/-- The start-up commands of a connection are written. -/
def ConnectsWell (env : SysIn) : Prop := Opens env → 0 ≤ env.startup ∧ 0 ≤ env.restart

/-- In a pass of the inner loop the poll does not fail, and `close` fails behind a failed read; in a connection the start-up
commands do not fail. -/
def StepKeepsLink (env : SysIn) (d : Daemon) : Prop :=
  if 0 ≤ d.serialFd then
    (Due env d → 0 ≤ env.write) ∧ (0 ≤ env.select → env.isset = true → env.read = none → env.closeRead < 0)
  else ConnectsWell env

theorem link_accesses (lost : Bool) {acc : List Act} (h : ∀ a ∈ acc, a = .access) :
    link.Safe lost acc ∧ link.run lost acc = lost := by
  refine link.idle_all fun a ha => ?_
  rw [h a ha]
  exact ⟨trivial, rfl⟩

/-- Connecting keeps the law, whatever failed before, exactly when the start-up commands do not fail. -/
theorem connectToPort_link {d : Daemon} (hs : link.Safe false d.pmon.trace) (env : SysIn) :
    (d.connectToPort env).LinkLaw ↔ ConnectsWell env := by
  by_cases ho : Opens env
  · obtain ⟨hfd, ht⟩ := connectToPort_open ho d
    have h0 := ho.1
    have hno : ¬ env.openRv < 0 := by omega
    simp only [LinkLaw, ConnectsWell, ho, true_imp_iff, hfd, ht, Monitor.safe_append, Monitor.run_append, hs, true_and]
    generalize link.run false d.pmon.trace = lost
    by_cases h1 : env.startup < 0
    · simp [link, h0, h1]
    · by_cases h2 : env.restart < 0
      · simp [link, h0, h1, h2, hno]
      · simp [link, h0, h1, h2]
        omega
  · obtain ⟨hfd, pre, hpre, ht⟩ := connectToPort_fail ho d
    simp only [LinkLaw, ConnectsWell, ho, false_imp_iff, iff_true, hfd, ht, Monitor.safe_append, hs, true_and]
    generalize link.run false d.pmon.trace = lost
    refine ⟨?_, fun _ => by decide⟩
    rcases hpre with rfl | rfl <;> simp [link]

/-- A poll that does not fail leaves the connection well; a poll that fails leaves it lost. -/
theorem pollActs_link (env : SysIn) (d : Daemon) :
    link.Safe false (pollActs env d) ∧ (link.run false (pollActs env d) = false ↔ (Due env d → 0 ≤ env.write)) := by
  by_cases hdue : Due env d
  · by_cases hw : env.write < 0
    · have hno : ¬ 0 ≤ env.write := by omega
      simp [pollActs, hdue, hw, hno, link, clearActs]
    · have hyes : 0 ≤ env.write := by omega
      simp [pollActs, hdue, hw, hyes, link]
  · simp [pollActs, hdue]

/-- What follows `select` in a pass that has gone well so far keeps the law exactly when `close` fails behind a failed read. -/
theorem rest_link {env : SysIn} {fd fd' : Int} {rest : List Act}
    (h : ((env.select < 0 ∨ env.isset = false) ∧ rest = [] ∧ fd' = fd) ∨
      (¬ env.select < 0 ∧ env.isset = true ∧ env.read = none ∧
        rest = .read fd (-1) :: (clearActs ++ [.close fd env.closeRead]) ∧ fd' = env.closeRead) ∨
      (¬ env.select < 0 ∧ env.isset = true ∧ env.read ≠ none ∧
        ∃ (n : Nat) (acc : List Act), (∀ a ∈ acc, a = .access) ∧ rest = .read fd n :: acc ∧ fd' = fd)) :
    (link.Safe false rest ∧ (link.run false rest = true → fd' < 0)) ↔
      (0 ≤ env.select → env.isset = true → env.read = none → env.closeRead < 0) := by
  rcases h with ⟨hq, rfl, rfl⟩ | ⟨hsel, hset, hnone, rfl, rfl⟩ | ⟨hsel, hset, hsome, n, acc, hacc, rfl, rfl⟩
  · simp only [Monitor.safe_nil, Monitor.run_nil, Bool.false_eq_true, false_imp_iff, and_self, true_iff]
    intro h1 h2
    rcases hq with hq | hq
    · omega
    · rw [hq] at h2
      simp at h2
  · have hsel' : 0 ≤ env.select := by omega
    simp [link, clearActs, hsel', hset, hnone]
  · obtain ⟨h1, h2⟩ := link_accesses false hacc
    have hread : link.next false (.read fd' n) = false := by simp [link]
    have hall : link.Allows false (.read fd' n) := rfl
    simp [hread, hall, h1, h2, hsome]

/-- Step lemma: a step keeps the law exactly under its condition. -/
theorem step_link {env : SysIn} {d d' : Daemon} (hl : d.LinkLaw) (h : d.step env = some d') :
    d'.LinkLaw ↔ d.StepKeepsLink env := by
  obtain ⟨hs, hlost⟩ := hl
  by_cases hfd : 0 ≤ d.serialFd
  · obtain ⟨rest, ht, hcases⟩ := iteration_cases (step_of_nonneg hfd h)
    obtain ⟨hps, hpr⟩ := pollActs_link env d
    have hrun : link.run false d.pmon.trace = false := by
      cases hr : link.run false d.pmon.trace with
      | false => rfl
      | true => exact absurd (hlost hr) (by omega)
    rw [StepKeepsLink, if_pos hfd, ← rest_link hcases, ← hpr, LinkLaw, ht]
    simp only [Monitor.safe_append, Monitor.run_append, hs, hrun, hps, true_and, Monitor.safe_cons, Monitor.run_cons]
    -- the pass goes on to `select` whatever the poll returned
    have hsel : ∀ lost, link.Allows lost (.select (pollFd env d + 1) env.select) ↔ lost = false := fun _ => Iff.rfl
    have hnext : ∀ lost, link.next lost (.select (pollFd env d + 1) env.select) = lost := fun _ => rfl
    rw [hsel, hnext, and_assoc]
    refine and_congr_right fun hw => ?_
    rw [hw]
  · have hd' := step_of_neg (by omega) h
    have hs' : link.Safe false (d.act .sleep).pmon.trace := by
      simp only [act, PMon.act, Monitor.safe_append, hs, true_and]
      exact ⟨trivial, trivial⟩
    rw [hd', connectToPort_link hs', StepKeepsLink, if_neg hfd]

/-! ## The segment -/

/-- The actions of `System_Shutdown`. -/
def shutdownActs : List Act := .exit :: clearActs

/-- The law of the segment: it is only touched while attached, also when a termination signal ends the process at any moment
after its handler is installed. -/
def SegmentLaw (d : Daemon) : Prop :=
  segment.Safe false d.pmon.trace ∧
    ∀ pre, pre <+: d.pmon.trace → .signals ∈ pre → .exit ∉ pre → segment.Safe false (pre ++ shutdownActs)

/-- In a pass of the inner loop neither the poll nor the read fails. -/
def StepKeepsSegment (env : SysIn) (d : Daemon) : Prop :=
  0 ≤ d.serialFd → (Due env d → 0 ≤ env.write) ∧ (0 ≤ env.select → env.isset = true → env.read ≠ none)

/-- The process is in its main loop. -/
def Looping (d : Daemon) : Prop := .signals ∈ d.pmon.trace ∧ .exit ∉ d.pmon.trace

/-- An action that neither attaches nor detaches, nor exits. -/
def Act.Keeps (a : Act) : Prop := a ≠ .attach ∧ a ≠ .detach ∧ a ≠ .exit

theorem segment_idle {a : Act} (h : Act.Keeps a) : segment.Idle true a := by
  cases a <;> simp [Monitor.Idle, segment, Act.Keeps] at h ⊢

/-- Once detached, and not attached again, the segment is detached. -/
theorem segment_detached {t : List Act} (hd : Act.detach ∈ t) (ha : Act.attach ∉ t) (s : Bool) : segment.run s t = false := by
  have hstay : ∀ u : List Act, Act.attach ∉ u → segment.run false u = false := by
    intro u hu
    induction u with
    | nil => rfl
    | cons a u ih =>
      have hn : segment.next false a = false := by
        cases a <;> simp [segment] at hu ⊢
      rw [Monitor.run_cons, hn]
      exact ih fun h => hu (List.mem_cons_of_mem a h)
  obtain ⟨u, v, rfl⟩ := List.append_of_mem hd
  rw [Monitor.run_append, Monitor.run_cons]
  exact hstay v fun h => ha (List.mem_append_right u (List.mem_cons_of_mem _ h))

/-- In the main loop the law says that the segment is attached. -/
theorem SegmentLaw.attached {d : Daemon} (h : d.SegmentLaw) (hl : d.Looping) : segment.run false d.pmon.trace = true := by
  have hs := h.2 _ (List.prefix_refl _) hl.1 hl.2
  simp only [Monitor.safe_append, shutdownActs, clearActs] at hs
  simpa [segment] using hs.2

/-- Actions that neither attach nor detach keep the law. -/
theorem segment_extend {d d' : Daemon} (h : d.SegmentLaw) (hl : d.Looping) {new : List Act}
    (ht : d'.pmon.trace = d.pmon.trace ++ new) (hnew : ∀ a ∈ new, Act.Keeps a) : d'.SegmentLaw := by
  have hatt := h.attached hl
  refine ⟨?_, ?_⟩
  · rw [ht, Monitor.safe_append, hatt]
    exact ⟨h.1, (segment.idle_all fun a ha => segment_idle (hnew a ha)).1⟩
  · intro pre hpre hsig hex
    rw [ht] at hpre
    rcases List.prefix_or_prefix_of_prefix hpre (List.prefix_append d.pmon.trace new) with hp | ⟨new', rfl⟩
    · exact h.2 pre hp hsig hex
    · have hn : new' <+: new := (List.prefix_append_right_inj _).mp hpre
      obtain ⟨hsafe, hrun⟩ := segment.idle_all fun a ha => segment_idle (hnew a (hn.subset ha))
      simp only [Monitor.safe_append, Monitor.run_append, hatt, hrun]
      refine ⟨⟨h.1, hsafe⟩, ?_⟩
      simp [shutdownActs, clearActs, segment]

/-- A detach breaks the law. -/
theorem segment_broken {d d' : Daemon} (hl : d'.Looping) {new : List Act} (ht : d'.pmon.trace = d.pmon.trace ++ new)
    (hd : Act.detach ∈ new) (ha : Act.attach ∉ new) : ¬ d'.SegmentLaw := by
  intro h
  have hatt := h.attached hl
  rw [ht, Monitor.run_append, segment_detached hd ha] at hatt
  exact absurd hatt (by simp)

/-- Connecting neither attaches nor detaches. -/
theorem connectToPort_keeps (env : SysIn) (d : Daemon) :
    ∃ new, (d.connectToPort env).pmon.trace = d.pmon.trace ++ new ∧ ∀ a ∈ new, Act.Keeps a := by
  by_cases ho : Opens env
  · obtain ⟨-, ht⟩ := connectToPort_open ho d
    exact ⟨_, ht, by simp [Act.Keeps]⟩
  · obtain ⟨-, pre, hpre, ht⟩ := connectToPort_fail ho d
    refine ⟨_, ht, ?_⟩
    rcases hpre with rfl | rfl <;> simp [Act.Keeps]

/-- The poll keeps the segment attached unless it fails; then it detaches. -/
theorem pollActs_segment (env : SysIn) (d : Daemon) : .attach ∉ pollActs env d ∧ .exit ∉ pollActs env d ∧
    ((Due env d → 0 ≤ env.write) → ∀ a ∈ pollActs env d, Act.Keeps a) ∧
      (¬ (Due env d → 0 ≤ env.write) → .detach ∈ pollActs env d) := by
  by_cases hdue : Due env d
  · by_cases hw : env.write < 0
    · have hno : ¬ 0 ≤ env.write := by omega
      simp [pollActs, hdue, hw, hno, clearActs]
    · have hyes : 0 ≤ env.write := by omega
      simp [pollActs, hdue, hw, hyes, Act.Keeps]
  · simp [pollActs, hdue]

/-- What a step adds to the trace: no attach and no exit, and no detach either exactly when the step meets its condition. -/
theorem step_segment_acts {env : SysIn} {d d' : Daemon} (h : d.step env = some d') :
    ∃ new, d'.pmon.trace = d.pmon.trace ++ new ∧ .attach ∉ new ∧ .exit ∉ new ∧
      (d.StepKeepsSegment env → ∀ a ∈ new, Act.Keeps a) ∧ (¬ d.StepKeepsSegment env → .detach ∈ new) := by
  by_cases hfd : 0 ≤ d.serialFd
  · obtain ⟨rest, ht, hcases⟩ := iteration_cases (step_of_nonneg hfd h)
    obtain ⟨hpa, hpe, hpk, hpd⟩ := pollActs_segment env d
    have hrest : .attach ∉ rest ∧ .exit ∉ rest ∧
        ((0 ≤ env.select → env.isset = true → env.read ≠ none) → ∀ a ∈ rest, Act.Keeps a) ∧
          (¬ (0 ≤ env.select → env.isset = true → env.read ≠ none) → .detach ∈ rest) := by
      rcases hcases with ⟨hq, rfl, -⟩ | ⟨hsel, hset, hnone, rfl, -⟩ | ⟨hsel, hset, hsome, n, acc, hacc, rfl, -⟩
      · refine ⟨by simp, by simp, by simp, fun hno => absurd ?_ hno⟩
        intro h1 h2
        rcases hq with hq | hq
        · omega
        · rw [hq] at h2
          simp at h2
      · have hsel' : 0 ≤ env.select := by omega
        simp [clearActs, hsel', hset, hnone]
      · have hk : ∀ a ∈ Act.read (pollFd env d) n :: acc, Act.Keeps a := by
          intro a ha
          rcases List.mem_cons.mp ha with rfl | ha
          · simp [Act.Keeps]
          · rw [hacc a ha]
            simp [Act.Keeps]
        exact ⟨fun h => (hk _ h).1 rfl, fun h => (hk _ h).2.2 rfl, fun _ => hk, fun hno => absurd (fun _ _ => hsome) hno⟩
    obtain ⟨hra, hre, hrk, hrd⟩ := hrest
    refine ⟨_, ht, by simp [hpa, hra], by simp [hpe, hre], ?_, ?_⟩
    · intro hok a ha
      rcases List.mem_append.mp ha with ha | ha
      · exact hpk (hok hfd).1 a ha
      · rcases List.mem_cons.mp ha with rfl | ha
        · simp [Act.Keeps]
        · exact hrk (hok hfd).2 a ha
    · intro hno
      rw [StepKeepsSegment, Classical.not_imp, Classical.not_and_iff_not_or_not] at hno
      rcases hno.2 with hno | hno
      · exact List.mem_append_left _ (hpd hno)
      · exact List.mem_append_right _ (List.mem_cons_of_mem _ (hrd hno))
  · obtain ⟨new, ht, hk⟩ := connectToPort_keeps env (d.act .sleep)
    have hk' : ∀ a ∈ Act.sleep :: new, Act.Keeps a := by
      intro a ha
      rcases List.mem_cons.mp ha with rfl | ha
      · simp [Act.Keeps]
      · exact hk a ha
    refine ⟨.sleep :: new, ?_, fun h => (hk' _ h).1 rfl, fun h => (hk' _ h).2.2 rfl, fun _ => hk', ?_⟩
    · rw [step_of_neg (by omega) h, ht]
      simp [act, PMon.act]
    · exact fun hno => absurd (fun h => absurd h hfd) hno

theorem step_looping {env : SysIn} {d d' : Daemon} (hl : d.Looping) (h : d.step env = some d') : d'.Looping := by
  obtain ⟨new, ht, -, he, -, -⟩ := step_segment_acts h
  rw [Looping, ht]
  exact ⟨List.mem_append_left _ hl.1, by simp [hl.2, he]⟩

/-- Step lemma: a step of the main loop keeps the law exactly when neither its poll nor its read fails. -/
theorem step_segment {env : SysIn} {d d' : Daemon} (hl : d.Looping) (hs : d.SegmentLaw) (h : d.step env = some d') :
    d'.SegmentLaw ↔ d.StepKeepsSegment env := by
  obtain ⟨new, ht, ha, he, hk, hd⟩ := step_segment_acts h
  refine ⟨?_, fun hok => segment_extend hs hl ht (hk hok)⟩
  intro hs'
  by_contra hno
  exact segment_broken (step_looping hl h) ht (hd hno) ha hs'

/-! ## Starting -/

theorem main_of_exit {start : StartupIn} {buf : List UInt8} (h : ((initial buf).startup start).1 = false) (connect : SysIn)
    (envs : List SysIn) : main start connect envs buf = some ((initial buf).startup start).2 := by
  rw [main, h, if_neg (by simp)]

theorem main_of_start {start : StartupIn} {buf : List UInt8} (h : ((initial buf).startup start).1 = true) (connect : SysIn)
    (envs : List SysIn) :
    main start connect envs buf = steps envs (((initial buf).startup start).2.connectToPort connect) := by
  rw [main, h, if_pos rfl]

/-- The process has used no descriptor before it connects. -/
theorem startup_link (start : StartupIn) (buf : List UInt8) :
    link.Safe false ((initial buf).startup start).2.pmon.trace ∧
      link.run false ((initial buf).startup start).2.pmon.trace = false := by
  by_cases hok : SharedMemoryOk start
  · rw [(startup_attached hok buf).2]
    split <;> simp [link, clearActs]
  · rw [(startup_fail hok buf).2]
    simp [link, clearActs]

/-- Where the shared-memory calls succeed, the process enters its loop with the segment attached, or it has exited and detached
it. -/
theorem startup_segment {start : StartupIn} (hok : SharedMemoryOk start) (buf : List UInt8) :
    ((initial buf).startup start).2.SegmentLaw ∧
      (((initial buf).startup start).1 = true → ((initial buf).startup start).2.Looping) := by
  obtain ⟨hb, ht⟩ := startup_attached hok buf
  have hbase : ∀ tail : List Act, tail = [] ∨ tail = .exit :: clearActs →
      ((initial buf).startup start).2.pmon.trace = [.attach, .access, .access, .signals] ++ tail →
      ((initial buf).startup start).2.SegmentLaw := by
    intro tail htail htr
    refine ⟨?_, ?_⟩
    · rw [htr]
      rcases htail with rfl | rfl <;> simp [segment, clearActs]
    · intro pre hpre hsig hex
      have hp : pre <+: [.attach, .access, .access, .signals] := by
        rcases htail with rfl | rfl
        · simpa [htr] using hpre
        · rw [htr] at hpre
          rcases List.prefix_or_prefix_of_prefix hpre (List.prefix_append _ _) with hp | ⟨v, rfl⟩
          · exact hp
          · have hv := (List.prefix_append_right_inj _).mp hpre
            cases v with
            | nil => simp
            | cons a v =>
              obtain ⟨rfl, -⟩ := List.cons_prefix_cons.mp hv
              simp at hex
      have hlen : pre = [.attach, .access, .access, .signals] := by
        rcases List.prefix_concat_iff.mp (show pre <+: [.attach, .access, .access] ++ [.signals] from hp) with he | hp
        · exact he
        · have := hp.subset hsig
          simp at this
      rw [hlen]
      simp [segment, shutdownActs, clearActs]
  by_cases hd : start.daemon < 0
  · rw [if_pos hd] at ht
    refine ⟨hbase _ (Or.inr rfl) ht, ?_⟩
    rw [hb]
    simp
    omega
  · rw [if_neg hd] at ht
    refine ⟨hbase _ (Or.inl rfl) ht, fun _ => ?_⟩
    rw [Looping, ht]
    simp

/-- A failed shared-memory call leads to `exit` and to accesses without a segment. -/
theorem startup_no_segment {start : StartupIn} (h : ¬ SharedMemoryOk start) (buf : List UInt8) :
    ¬ ((initial buf).startup start).2.SegmentLaw := by
  rintro ⟨hs, -⟩
  rw [(startup_fail h buf).2] at hs
  simp [segment, clearActs] at hs

end Daemon

/-- In every state between two steps of a run nothing was done on a descriptor after a failed write or read, and a failure has
led to the reconnection, exactly when in every connection the start-up commands are written, in every pass of the inner loop the
poll is, and behind every failed read `close` fails too. -/
theorem connection_law_iff (start : StartupIn) (connect : SysIn) (envs : List SysIn) (buf : List UInt8) :
    (∀ pre d, pre <+: envs → Daemon.main start connect pre buf = some d → d.LinkLaw) ↔
      (((Daemon.initial buf).startup start).1 = true → Daemon.ConnectsWell connect ∧
        ∀ pre env d, pre ++ [env] <+: envs → Daemon.main start connect pre buf = some d → (d.step env).isSome →
          d.StepKeepsLink env) := by
  obtain ⟨hs, hr⟩ := Daemon.startup_link start buf
  cases hgo : ((Daemon.initial buf).startup start).1 with
  | false =>
    simp only [Daemon.main_of_exit hgo, Option.some.injEq, Bool.false_eq_true, false_imp_iff, iff_true]
    rintro pre d - rfl
    exact ⟨hs, by simp [hr]⟩
  | true =>
    simp only [Daemon.main_of_start hgo, true_imp_iff]
    have hconn := Daemon.connectToPort_link hs connect
    by_cases hc : Daemon.ConnectsWell connect
    · simp only [hc, true_and]
      exact Daemon.steps_law_iff (I := fun _ => True) (fun _ _ => trivial) (fun _ hl h => Daemon.step_link hl h) trivial
        (hconn.mpr hc) envs
    · simp only [hc, false_and, iff_false]
      intro h
      exact hc (hconn.mp (h [] _ List.nil_prefix rfl))

/-- A poll that fails: `close` returns 0, and the pass goes on to `select` and to a read from descriptor 0. -/
theorem connection_reads_after_failure :
    let start : StartupIn := { ftok := 1, shmget := 1, shmat := 1, daemon := 0 }
    let env : SysIn :=
      { openRv := 3, tcsetattr := 0, closeOpen := 0, startup := 5, restart := 9, time := 1, write := -1, closeWrite := 0,
        select := 1, isset := true, read := some [], closeRead := 0 }
    ∃ d, Daemon.main start env [env] [0] = some d ∧ d.serialFd = 0 ∧
      d.pmon.trace = [.attach, .access, .access, .signals, .openPort 3, .access, .write 3 (bytes "ver\r\n") 5,
        .write 3 (bytes "restart\r\n") 9, .write 3 single (-1), .access, .access, .access, .access, .access, .detach,
        .close 3 0, .select 1 1, .read 0 0] ∧ ¬ d.LinkLaw := by
  intro start env
  have htrace : (Daemon.main start env [env] [0]).map (fun d => (d.serialFd, d.pmon.trace)) =
      some (0, [.attach, .access, .access, .signals, .openPort 3, .access, .write 3 (bytes "ver\r\n") 5,
        .write 3 (bytes "restart\r\n") 9, .write 3 single (-1), .access, .access, .access, .access, .access, .detach,
        .close 3 0, .select 1 1, .read 0 0]) := by decide
  obtain ⟨d, hd, hobs⟩ := Option.map_eq_some_iff.mp htrace
  obtain ⟨hfd, ht⟩ := Prod.mk.injEq _ _ _ _ ▸ hobs
  refine ⟨d, hd, hfd, ht, ?_⟩
  rintro ⟨hs, -⟩
  rw [ht] at hs
  simp [link] at hs

/-- In every state between two steps of a run, and whenever a termination signal ends it, the shared memory has been touched only
while attached and detached only once, exactly when the shared-memory calls succeed and neither a poll nor a read ever fails. -/
theorem segment_law_iff (start : StartupIn) (connect : SysIn) (envs : List SysIn) (buf : List UInt8) :
    (∀ pre d, pre <+: envs → Daemon.main start connect pre buf = some d → d.SegmentLaw) ↔
      Daemon.SharedMemoryOk start ∧ (((Daemon.initial buf).startup start).1 = true →
        ∀ pre env d, pre ++ [env] <+: envs → Daemon.main start connect pre buf = some d → (d.step env).isSome →
          d.StepKeepsSegment env) := by
  by_cases hok : Daemon.SharedMemoryOk start
  · obtain ⟨hlaw, hloop⟩ := Daemon.startup_segment hok buf
    simp only [hok, true_and]
    cases hgo : ((Daemon.initial buf).startup start).1 with
    | false =>
      simp only [Daemon.main_of_exit hgo, Option.some.injEq, Bool.false_eq_true, false_imp_iff, iff_true]
      rintro pre d - rfl
      exact hlaw
    | true =>
      simp only [Daemon.main_of_start hgo, true_imp_iff]
      obtain ⟨new, ht, hk⟩ := Daemon.connectToPort_keeps connect ((Daemon.initial buf).startup start).2
      have hlaw' := Daemon.segment_extend hlaw (hloop hgo) ht hk
      have hloop' : (((Daemon.initial buf).startup start).2.connectToPort connect).Looping := by
        rw [Daemon.Looping, ht]
        refine ⟨List.mem_append_left _ (hloop hgo).1, ?_⟩
        rw [List.mem_append]
        rintro (h | h)
        · exact (hloop hgo).2 h
        · exact (hk _ h).2.2 rfl
      exact Daemon.steps_law_iff Daemon.step_looping Daemon.step_segment hloop' hlaw' envs
  · simp only [hok, false_and, iff_false]
    intro h
    have hexit := (Daemon.startup_fail hok buf).1
    exact Daemon.startup_no_segment hok buf (h [] _ List.nil_prefix (Daemon.main_of_exit hexit connect []))

/-- A poll that fails detaches the segment; a termination signal then writes to it and detaches it again. -/
theorem segment_touched_after_failure :
    let start : StartupIn := { ftok := 1, shmget := 1, shmat := 1, daemon := 0 }
    let env : SysIn :=
      { openRv := 3, tcsetattr := 0, closeOpen := 0, startup := 5, restart := 9, time := 1, write := -1, closeWrite := -1,
        select := 0, isset := false, read := none, closeRead := 0 }
    ∃ d, Daemon.main start env [env] [0] = some d ∧
      d.pmon.trace = [.attach, .access, .access, .signals, .openPort 3, .access, .write 3 (bytes "ver\r\n") 5,
        .write 3 (bytes "restart\r\n") 9, .write 3 single (-1), .access, .access, .access, .access, .access, .detach,
        .close 3 (-1), .select 0 0] ∧ ¬ d.SegmentLaw := by
  intro start env
  have htrace : (Daemon.main start env [env] [0]).map (fun d => d.pmon.trace) =
      some [.attach, .access, .access, .signals, .openPort 3, .access, .write 3 (bytes "ver\r\n") 5,
        .write 3 (bytes "restart\r\n") 9, .write 3 single (-1), .access, .access, .access, .access, .access, .detach,
        .close 3 (-1), .select 0 0] := by decide
  obtain ⟨d, hd, ht⟩ := Option.map_eq_some_iff.mp htrace
  refine ⟨d, hd, ht, ?_⟩
  rintro ⟨-, hs⟩
  have := hs _ (List.prefix_refl _) (by rw [ht]; simp) (by rw [ht]; simp)
  rw [ht] at this
  simp [segment, Daemon.shutdownActs, clearActs] at this

end PowerMonitor
