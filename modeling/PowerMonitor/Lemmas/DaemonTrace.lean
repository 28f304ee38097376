import PowerMonitor.Daemon.Main
import PowerMonitor.Lemmas.CmdParse
import Mathlib.Data.List.Induction

/-!
# What a step of the daemon does

The actions each part of the main loop adds to the trace and the descriptor it leaves: `connectToPort_cases` and
`iteration_cases` say everything a step can do to these, so that the laws about the connection and about the segment are case
analyses.
-/

namespace PowerMonitor

open CString

namespace PMon

/-- The actions of `PMon_ClearSharedMemory`. -/
def clearActs : List Act := [.access, .access, .access, .access, .access, .detach]

/-- Only accesses to the segment have been added to the trace. -/
def Touches (s s' : PMon) : Prop := ∃ acc, (∀ a ∈ acc, a = Act.access) ∧ s'.trace = s.trace ++ acc

theorem Touches.refl (s : PMon) : s.Touches s := ⟨[], by simp, by simp⟩

theorem Touches.trans {s s' s'' : PMon} (h : s.Touches s') (h' : s'.Touches s'') : s.Touches s'' := by
  obtain ⟨acc, hacc, ht⟩ := h
  obtain ⟨acc', hacc', ht'⟩ := h'
  refine ⟨acc ++ acc', ?_, by rw [ht', ht, List.append_assoc]⟩
  intro a ha
  rcases List.mem_append.mp ha with ha | ha
  · exact hacc a ha
  · exact hacc' a ha

/-- The three accesses of a store under the mutex. -/
theorem touches_three {s s' : PMon} (h : s'.trace = s.trace ++ [.access] ++ [.access] ++ [.access]) : s.Touches s' :=
  ⟨[.access, .access, .access], by simp, by simpa using h⟩

theorem receiveVoltage_touches (fd : Int) (buf : Option (List UInt8)) (s : PMon) : s.Touches (receiveVoltage fd buf s).2 := by
  cases buf with
  | none => exact Touches.refl s
  | some buf =>
    unfold receiveVoltage
    dsimp only
    split
    · exact touches_three rfl
    · split
      · exact touches_three rfl
      · exact Touches.refl s

theorem receiveCurrent_touches (fd : Int) (buf : Option (List UInt8)) (s : PMon) : s.Touches (receiveCurrent fd buf s).2 := by
  cases buf with
  | none => exact Touches.refl s
  | some buf => exact touches_three rfl

theorem cmdTable_touches : ∀ e ∈ cmdTable, ∀ fd arg (s : PMon), s.Touches (e.func fd arg s).2 := by
  intro e he fd arg s
  simp only [cmdTable, List.mem_cons, List.not_mem_nil, or_false] at he
  rcases he with rfl | rfl
  · exact receiveVoltage_touches fd arg s
  · exact receiveCurrent_touches fd arg s

theorem clearSharedMemory_trace (s : PMon) : s.clearSharedMemory.trace = s.trace ++ clearActs := by
  simp [clearSharedMemory, act, clearActs]

end PMon

namespace Daemon

open PMon

/-- The receiver's inner loop only touches the segment. -/
theorem drain_touches (fuel : Nat) : ∀ {rv : Int} {d d' : Daemon}, drain fuel rv d = some d' →
    d'.serialFd = d.serialFd ∧ d.pmon.Touches d'.pmon := by
  induction fuel with
  | zero =>
    intro rv d d' h
    rw [drain] at h
    split at h
    · simp at h
    · obtain rfl := Option.some.inj h
      exact ⟨rfl, Touches.refl _⟩
  | succ fuel ih =>
    intro rv d d' h
    rw [drain] at h
    split at h
    · obtain ⟨hfd, ht⟩ := ih h
      exact ⟨hfd, (CmdParse.processString_st Touches.refl cmdTable_touches d.readBuf d.serialFd d.pmon).trans ht⟩
    · obtain rfl := Option.some.inj h
      exact ⟨rfl, Touches.refl _⟩

theorem receiveData_touches {data : List UInt8} {d d' : Daemon} (h : d.receiveData data = some d') :
    d'.serialFd = d.serialFd ∧ d.pmon.Touches d'.pmon := by
  unfold receiveData at h
  split at h
  · exact drain_touches (d := { d with
      readBuf := (store d.readBuf (strlen d.readBuf 0) data).set (strlen d.readBuf 0 + data.length) 0 }) _ h
  · obtain rfl := Option.some.inj h
    exact ⟨rfl, Touches.refl _⟩

/-! ## Connecting -/

/-- `Serial_Openport` succeeds. -/
def Opens (env : SysIn) : Prop := 0 ≤ env.openRv ∧ env.tcsetattr ≠ -1

/-- `Connect_To_Port` when the port does not open: the descriptor is negative. -/
theorem connectToPort_fail {env : SysIn} (h : ¬ Opens env) (d : Daemon) :
    (d.connectToPort env).serialFd = -1 ∧
      ∃ pre, (pre = [] ∨ pre = [.close env.openRv env.closeOpen]) ∧
        (d.connectToPort env).pmon.trace = d.pmon.trace ++ (pre ++ [.openPort (-1)]) := by
  by_cases ho : env.openRv < 0
  · simp [connectToPort, openPort, ho, act, PMon.act]
  · have ht : env.tcsetattr = -1 := by
      by_contra hne
      exact h ⟨by omega, hne⟩
    simp [connectToPort, openPort, ho, ht, act, PMon.act]

/-- `Connect_To_Port` when the port opens: the segment is told and the two start-up commands are written, whatever `write`
returns. -/
theorem connectToPort_open {env : SysIn} (h : Opens env) (d : Daemon) :
    (d.connectToPort env).serialFd = env.openRv ∧
      (d.connectToPort env).pmon.trace = d.pmon.trace ++ [.openPort env.openRv, .access,
        .write env.openRv (bytes "ver\r\n") env.startup, .write env.openRv (bytes "restart\r\n") env.restart] := by
  have ho : ¬ env.openRv < 0 := not_lt.mpr h.1
  simp [connectToPort, openPort, ho, h.2, act, PMon.act, setConnected, setStartup, sendRestart]

/-! ## A pass of the inner loop -/

/-- `PMon_Poll` writes: a second has passed since the last poll. -/
def Due (env : SysIn) (d : Daemon) : Prop := int (int env.time - d.pmon.last) ≥ 1

instance (env : SysIn) (d : Daemon) : Decidable (Due env d) := inferInstanceAs (Decidable (_ ≥ _))

/-- The actions of the poll and of the check of its result. -/
def pollActs (env : SysIn) (d : Daemon) : List Act :=
  if Due env d then
    .write d.serialFd single env.write ::
      if env.write < 0 then clearActs ++ [.close d.serialFd env.closeWrite] else []
  else []

/-- The descriptor after the poll and the check of its result. -/
def pollFd (env : SysIn) (d : Daemon) : Int := if Due env d ∧ env.write < 0 then env.closeWrite else d.serialFd

/-- The daemon after the poll and the check of its result. -/
def polled (env : SysIn) (d : Daemon) : Daemon :=
  let r := d.pmon.poll env.time env.write d.serialFd
  ({ d with pmon := r.2 } : Daemon).checkSerial r.1 env.closeWrite

theorem checkSerial_neg {rv : Int} (h : rv < 0) (close : Int) (d : Daemon) :
    (d.checkSerial rv close).serialFd = close ∧
      (d.checkSerial rv close).pmon.trace = d.pmon.trace ++ (clearActs ++ [.close d.serialFd close]) := by
  simp [checkSerial, h, act, PMon.act, clearSharedMemory_trace]

theorem polled_spec (env : SysIn) (d : Daemon) :
    (polled env d).serialFd = pollFd env d ∧ (polled env d).pmon.trace = d.pmon.trace ++ pollActs env d := by
  by_cases hdue : Due env d
  · have hdue' : int (int env.time - d.pmon.last) ≥ 1 := hdue
    by_cases hw : env.write < 0
    · have hp : polled env d = checkSerial env.write env.closeWrite
          { d with pmon := { d.pmon with last := int env.time }.act (.write d.serialFd single env.write) } := by
        simp only [polled, poll, hdue', if_true]
      obtain ⟨hfd, ht⟩ := checkSerial_neg hw env.closeWrite
        { d with pmon := { d.pmon with last := int env.time }.act (.write d.serialFd single env.write) }
      rw [hp, hfd, ht]
      simp [pollFd, pollActs, hdue, hw, PMon.act]
    · simp [polled, poll, hdue', checkSerial, hw, pollFd, pollActs, hdue, PMon.act]
  · have hdue' : ¬ int (int env.time - d.pmon.last) ≥ 1 := hdue
    simp [polled, poll, hdue', checkSerial, pollFd, pollActs, hdue]

/-- A read that succeeds, and what the received lines do to the segment. -/
theorem receive_some {env : SysIn} {data : List UInt8} (hr : env.read = some data) {d d' : Daemon}
    (h : d.receive env = some d') : ∃ (n : Nat) (acc : List Act), (∀ a ∈ acc, a = .access) ∧ d'.serialFd = d.serialFd ∧
      d'.pmon.trace = d.pmon.trace ++ .read d.serialFd n :: acc := by
  rw [receive, hr, Option.map_some] at h
  obtain ⟨hfd, acc, hacc, ht⟩ := receiveData_touches h
  refine ⟨(data.take (readBufSize - strlen d.readBuf 0)).length, acc, hacc, hfd, ?_⟩
  rw [ht]
  simp [act, PMon.act]

/-- A read that fails, and its check. -/
theorem receive_none {env : SysIn} (hr : env.read = none) {d d' : Daemon} (h : d.receive env = some d') :
    d'.serialFd = env.closeRead ∧
      d'.pmon.trace = d.pmon.trace ++ .read d.serialFd (-1) :: (clearActs ++ [.close d.serialFd env.closeRead]) := by
  rw [receive, hr, Option.map_none] at h
  obtain rfl := Option.some.inj h
  obtain ⟨hfd, ht⟩ := checkSerial_neg (show (-1 : Int) < 0 by decide) env.closeRead (d.act (.read d.serialFd (-1)))
  refine ⟨hfd, ht.trans ?_⟩
  simp [act, PMon.act]

/-- A pass of the inner loop: the poll, `select`, and then nothing, or a failed read and its check, or a read and what the
received lines do to the segment. -/
theorem iteration_cases {env : SysIn} {d d' : Daemon} (h : d.iteration env = some d') :
    ∃ rest, d'.pmon.trace =
        d.pmon.trace ++ (pollActs env d ++ .select (pollFd env d + 1) env.select :: rest) ∧
      (((env.select < 0 ∨ env.isset = false) ∧ rest = [] ∧ d'.serialFd = pollFd env d) ∨
        (¬ env.select < 0 ∧ env.isset = true ∧ env.read = none ∧
          rest = .read (pollFd env d) (-1) :: (clearActs ++ [.close (pollFd env d) env.closeRead]) ∧
          d'.serialFd = env.closeRead) ∨
        (¬ env.select < 0 ∧ env.isset = true ∧ env.read ≠ none ∧
          ∃ (n : Nat) (acc : List Act), (∀ a ∈ acc, a = .access) ∧ rest = .read (pollFd env d) n :: acc ∧
            d'.serialFd = pollFd env d)) := by
  obtain ⟨hfd, ht⟩ := polled_spec env d
  have hsel : ((polled env d).act (.select (pollFd env d + 1) env.select)).pmon.trace =
      d.pmon.trace ++ (pollActs env d ++ [.select (pollFd env d + 1) env.select]) := by
    simp [act, PMon.act, ht]
  have hit : d.iteration env =
      let d₁ := (polled env d).act (.select (pollFd env d + 1) env.select)
      if env.select < 0 then some d₁ else if env.isset then d₁.receive env else some d₁ := by
    rw [← hfd]
    rfl
  rw [hit] at h
  dsimp only at h
  by_cases hs : env.select < 0
  · rw [if_pos hs] at h
    obtain rfl := Option.some.inj h
    exact ⟨[], hsel, Or.inl ⟨Or.inl hs, rfl, hfd⟩⟩
  · rw [if_neg hs] at h
    cases hi : env.isset with
    | false =>
      rw [hi, if_neg (by simp)] at h
      obtain rfl := Option.some.inj h
      exact ⟨[], hsel, Or.inl ⟨Or.inr rfl, rfl, hfd⟩⟩
    | true =>
      rw [hi, if_pos rfl] at h
      cases hr : env.read with
      | none =>
        obtain ⟨hfd', ht'⟩ := receive_none hr h
        refine ⟨_, ?_, Or.inr (Or.inl ⟨hs, rfl, rfl, rfl, hfd'⟩)⟩
        rw [ht', hsel, ← hfd]
        simp [act]
      | some data =>
        obtain ⟨n, acc, hacc, hfd', ht'⟩ := receive_some hr h
        refine ⟨.read (pollFd env d) n :: acc, ?_, Or.inr (Or.inr ⟨hs, rfl, by simp, n, acc, hacc, rfl, hfd'.trans hfd⟩)⟩
        rw [ht', hsel, ← hfd]
        simp [act]

theorem step_of_neg {env : SysIn} {d d' : Daemon} (hfd : d.serialFd < 0) (h : d.step env = some d') :
    d' = (d.act .sleep).connectToPort env := by
  rw [step, if_neg (by omega)] at h
  exact (Option.some.inj h).symm

theorem step_of_nonneg {env : SysIn} {d d' : Daemon} (hfd : 0 ≤ d.serialFd) (h : d.step env = some d') :
    d.iteration env = some d' := by
  rwa [step, if_pos hfd] at h

theorem steps_snoc (envs : List SysIn) (env : SysIn) (d : Daemon) :
    steps (envs ++ [env]) d = (steps envs d).bind fun d => d.step env := by
  induction envs generalizing d with
  | nil =>
    simp only [List.nil_append, steps, Option.bind_some]
    cases d.step env <;> rfl
  | cons e envs ih =>
    simp only [List.cons_append, steps]
    cases d.step e with
    | none => rfl
    | some d₁ => exact ih d₁

/-! ## Runs -/

/-- Run lemma: a law `L` that a step keeps exactly under a condition `Q`, where an invariant `I` holds, holds in every state of
a run exactly when every step that returns meets the condition. -/
theorem steps_law_iff {I L : Daemon → Prop} {Q : SysIn → Daemon → Prop}
    (hinv : ∀ {env d d'}, I d → d.step env = some d' → I d')
    (hstep : ∀ {env d d'}, I d → L d → d.step env = some d' → (L d' ↔ Q env d)) {d : Daemon} (hi : I d) (hl : L d)
    (envs : List SysIn) :
    (∀ pre d', pre <+: envs → steps pre d = some d' → L d') ↔
      ∀ pre env d', pre ++ [env] <+: envs → steps pre d = some d' → (d'.step env).isSome → Q env d' := by
  have hreach : ∀ pre d', steps pre d = some d' → I d' := by
    intro pre
    induction pre using List.reverseRecOn with
    | nil =>
      intro d' h
      rwa [← Option.some.inj h]
    | append_singleton pre env ih =>
      intro d' h
      rw [steps_snoc, Option.bind_eq_some_iff] at h
      obtain ⟨d₁, hd₁, hs⟩ := h
      exact hinv (ih d₁ hd₁) hs
  constructor
  · intro h pre env d' hp hd' hs
    obtain ⟨d'', hd''⟩ := Option.isSome_iff_exists.mp hs
    refine (hstep (hreach pre d' hd') (h pre d' ((List.prefix_append _ _).trans hp) hd') hd'').mp (h _ _ hp ?_)
    rw [steps_snoc, hd', Option.bind_some, hd'']
  · intro h pre
    induction pre using List.reverseRecOn with
    | nil =>
      intro d' _ hd'
      rwa [← Option.some.inj hd']
    | append_singleton pre env ih =>
      intro d' hp hd'
      rw [steps_snoc, Option.bind_eq_some_iff] at hd'
      obtain ⟨d₁, hd₁, hs⟩ := hd'
      have hl₁ := ih d₁ ((List.prefix_append _ _).trans hp) hd₁
      exact (hstep (hreach pre d₁ hd₁) hl₁ hs).mpr (h pre env d₁ hp hd₁ (by rw [hs]; rfl))

/-! ## Starting -/

/-- The shared-memory calls succeed. -/
def SharedMemoryOk (start : StartupIn) : Prop := start.ftok ≠ -1 ∧ start.shmget ≠ -1 ∧ start.shmat ≠ -1

theorem startup_fail {start : StartupIn} (h : ¬ SharedMemoryOk start) (buf : List UInt8) :
    ((initial buf).startup start).1 = false ∧ ((initial buf).startup start).2.pmon.trace = .exit :: clearActs := by
  have hc : ∀ s, createSharedMemory start s = (false, s) := by
    intro s
    by_cases h1 : start.ftok = -1
    · simp [createSharedMemory, h1]
    · by_cases h2 : start.shmget = -1
      · simp [createSharedMemory, h1, h2]
      · have h3 : start.shmat = -1 := by
          by_contra hne
          exact h ⟨h1, h2, hne⟩
        simp [createSharedMemory, h1, h2, h3]
  simp [startup, hc, systemShutdown, clearSharedMemory_trace, PMon.act, initial]

theorem startup_attached {start : StartupIn} (h : SharedMemoryOk start) (buf : List UInt8) :
    ((initial buf).startup start).1 = decide (0 ≤ start.daemon) ∧
      ((initial buf).startup start).2.pmon.trace =
        [.attach, .access, .access, .signals] ++ if start.daemon < 0 then .exit :: clearActs else [] := by
  by_cases hd : start.daemon < 0
  · simp [startup, createSharedMemory, h.1, h.2.1, h.2.2, hd, systemShutdown, clearSharedMemory_trace, act, PMon.act, initial]
  · simp [startup, createSharedMemory, h.1, h.2.1, h.2.2, hd, act, PMon.act, initial]
    omega

end Daemon

end PowerMonitor
