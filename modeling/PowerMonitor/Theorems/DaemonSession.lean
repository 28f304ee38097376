import PowerMonitor.Lemmas.DaemonTrace
import PowerMonitor.Spec.Publisher
import PowerMonitor.Theorems.ReceiveLoop

/-!
# The daemon's sessions

All the bytes that the daemon reads, over all its connections, are one stream: the receive buffer keeps its content when the connection
is lost. The lines that are looked up are the first lines of that stream, in its order; behind a line that is not in the table
the rest waits for another read.

A lost connection detaches the segment, and the run goes on with it all the same; the real daemon is ended by its next access to the
segment, so that what is said of a run behind its first loss is said of the code up to that access.
-/

namespace PowerMonitor

open CString CmdParse

/-- The values in the shared memory. -/
def Shared.published (s : Shared) : Published := { voltage := fun ch => s.voltage ch.index, current := s.current }

namespace Daemon

/-! ## What the inner loop leaves -/

/-- The lines behind those that are taken are left, and there are some only if the last line taken is not in the table. -/
theorem leave_eq (ls : List (List UInt8)) (p : List UInt8) : ∀ {nl : List UInt8}, nl = [] ∨ nl = [lf] →
    ∃ nl' ls', (nl' = [] ∨ nl' = [lf]) ∧ taken ls ++ ls' = ls ∧ leave nl ls p = nl' ++ joined ls' p ∧
      (ls' ≠ [] → ∃ l, (taken ls).getLast? = some l ∧ ¬ Known l) := by
  induction ls with
  | nil => exact fun {nl} h => ⟨nl, [], h, rfl, rfl, fun hne => absurd rfl hne⟩
  | cons l ls ih =>
    intro nl _
    by_cases hk : Known l
    · obtain ⟨nl', ls', hnl', htaken, hleave, hlast⟩ := ih (residue_cases (nl ++ l))
      rw [leave, if_pos hk, taken, if_pos hk]
      refine ⟨nl', ls', hnl', congrArg (l :: ·) htaken, hleave, fun hne => ?_⟩
      obtain ⟨m, hm, hno⟩ := hlast hne
      exact ⟨m, by rw [List.getLast?_cons, hm]; rfl, hno⟩
    · rw [leave, if_neg hk, taken, if_neg hk]
      exact ⟨residue (nl ++ l), ls, residue_cases _, rfl, rfl, fun _ => ⟨l, rfl, hk⟩⟩

theorem joined_append (ls ls' : List (List UInt8)) (p : List UInt8) : joined (ls ++ ls') p = joined ls (joined ls' p) := by
  simp [joined]

/-! ## A step -/

theorem clearSharedMemory_published (s : PMon) : s.clearSharedMemory.shared.published = .zero := by
  have hzero : ∀ (f : Fin 2 → Int) i, Function.update (Function.update f 0 0) 1 0 i = 0 := by
    intro f i
    match i with
    | 0 => rfl
    | 1 => rfl
  exact congrArg₂ Published.mk (funext fun _ => hzero _ _) (funext (hzero _))

/-- The data that a step hands to the receiver. -/
def reads (env : SysIn) (d : Daemon) : List UInt8 :=
  if 0 ≤ d.serialFd ∧ ¬ env.select < 0 ∧ env.isset = true then
    (env.read.map (·.take (readBufSize - strlen d.readBuf 0))).getD []
  else []

/-- What a step does beside its receiver: the receive buffer and the record of lookups stay, and so do the published values, unless
the connection is lost. -/
structure Beside (lost : Prop) [Decidable lost] (d d' : Daemon) : Prop where
  readBuf : d'.readBuf = d.readBuf
  lookups : d'.lookups = d.lookups
  published : d'.pmon.shared.published = if lost then .zero else d.pmon.shared.published

theorem Beside.kept {d d' : Daemon} (hb : d'.readBuf = d.readBuf) (hl : d'.lookups = d.lookups)
    (hs : d'.pmon.shared.published = d.pmon.shared.published) : Beside False d d' := ⟨hb, hl, by rw [hs, if_neg not_false]⟩

theorem Beside.trans {p q : Prop} [Decidable p] [Decidable q] {d d' d'' : Daemon} (h : Beside p d d') (h' : Beside q d' d'') :
    Beside (p ∨ q) d d'' := by
  refine ⟨h'.readBuf.trans h.readBuf, h'.lookups.trans h.lookups, ?_⟩
  rw [h'.published, h.published]
  by_cases hq : q
  · rw [if_pos hq, if_pos (Or.inr hq)]
  · rw [if_neg hq]
    by_cases hp : p
    · rw [if_pos hp, if_pos (Or.inl hp)]
    · rw [if_neg hp, if_neg (not_or.mpr ⟨hp, hq⟩)]

theorem Beside.congr {p q : Prop} [Decidable p] [Decidable q] {d d' : Daemon} (h : Beside p d d') (hpq : p ↔ q) : Beside q d d' := by
  refine ⟨h.readBuf, h.lookups, h.published.trans ?_⟩
  by_cases hp : p
  · rw [if_pos hp, if_pos (hpq.mp hp)]
  · rw [if_neg hp, if_neg (hpq.not.mp hp)]

theorem checkSerial_beside (rv close : Int) (d : Daemon) : Beside (rv < 0) d (d.checkSerial rv close) := by
  unfold checkSerial
  by_cases h : rv < 0
  · rw [if_pos h]
    exact ⟨rfl, rfl, (clearSharedMemory_published d.pmon).trans (if_pos h).symm⟩
  · rw [if_neg h]
    exact ⟨rfl, rfl, (if_neg h).symm⟩

theorem connectToPort_beside (env : SysIn) (d : Daemon) : Beside False d (d.connectToPort env) := by
  have hopen : Beside False d { (d.openPort env).2 with serialFd := (d.openPort env).1 } := by
    unfold openPort
    split
    · exact .kept rfl rfl rfl
    · split <;> exact .kept rfl rfl rfl
  unfold connectToPort
  dsimp only
  split
  · exact hopen
  · exact ⟨hopen.readBuf, hopen.lookups, hopen.published⟩

/-- The connection is lost when the poll cannot be written, or `read` fails. -/
def Loses (env : SysIn) (d : Daemon) : Prop :=
  0 ≤ d.serialFd ∧ ((Due env d ∧ env.write < 0) ∨ (¬ env.select < 0 ∧ env.isset = true ∧ env.read = none))

instance (env : SysIn) (d : Daemon) : Decidable (Loses env d) := inferInstanceAs (Decidable (_ ∧ (_ ∨ _)))

theorem polled_beside (env : SysIn) (d : Daemon) : Beside (Due env d ∧ env.write < 0) d (polled env d) := by
  have hpoll : Beside False d { d with pmon := (d.pmon.poll env.time env.write d.serialFd).2 } := by
    unfold PMon.poll
    dsimp only
    split <;> exact .kept rfl rfl rfl
  refine (hpoll.trans (checkSerial_beside (d.pmon.poll env.time env.write d.serialFd).1 env.closeWrite _)).congr ?_
  rw [false_or, PMon.poll]
  by_cases hdue : Due env d
  · rw [if_pos (show PMon.int (PMon.int env.time - d.pmon.last) ≥ 1 from hdue), and_iff_right hdue]
  · rw [if_neg (show ¬ PMon.int (PMon.int env.time - d.pmon.last) ≥ 1 from hdue)]
    exact iff_of_false (lt_irrefl 0) fun h => hdue h.1

theorem receiveData_nil (d : Daemon) : d.receiveData [] = some d := rfl

/-- Beside its system calls a step runs the receiver on the data that it reads. -/
theorem step_receiveData (env : SysIn) (d : Daemon) :
    ∃ d₁, Beside (Loses env d) d d₁ ∧ d.step env = d₁.receiveData (d.reads env) := by
  unfold reads step
  by_cases hfd : 0 ≤ d.serialFd
  · rw [if_pos hfd]
    have hp : Beside (Due env d ∧ env.write < 0) d ((polled env d).act (.select ((polled env d).serialFd + 1) env.select)) :=
      ⟨(polled_beside env d).readBuf, (polled_beside env d).lookups, (polled_beside env d).published⟩
    have hit : d.iteration env = if env.select < 0 then
        some ((polled env d).act (.select ((polled env d).serialFd + 1) env.select))
      else if env.isset then ((polled env d).act (.select ((polled env d).serialFd + 1) env.select)).receive env
      else some ((polled env d).act (.select ((polled env d).serialFd + 1) env.select)) := rfl
    rw [hit]
    generalize (polled env d).act (.select ((polled env d).serialFd + 1) env.select) = d₁ at hp ⊢
    by_cases hsel : env.select < 0
    · rw [if_pos hsel, if_neg fun h => h.2.1 hsel]
      refine ⟨d₁, hp.congr ?_, (receiveData_nil d₁).symm⟩
      simp [Loses, hfd, hsel]
    · by_cases hset : env.isset = true
      · rw [if_neg hsel, if_pos hset, if_pos ⟨hfd, hsel, hset⟩, receive, hp.readBuf]
        cases hr : env.read with
        | none =>
          refine ⟨_, ?_, (receiveData_nil _).symm⟩
          have hread : Beside False d₁ (d₁.act (.read d₁.serialFd (-1))) := .kept rfl rfl rfl
          refine ((hp.trans hread).trans (checkSerial_beside (-1) env.closeRead _)).congr ?_
          simp [Loses, hfd, hsel, hset, hr]
        | some data =>
          have hread : Beside False d₁ (d₁.act (.read d₁.serialFd (data.take (readBufSize - strlen d.readBuf 0)).length)) :=
            .kept rfl rfl rfl
          refine ⟨_, (hp.trans hread).congr ?_, rfl⟩
          simp [Loses, hfd, hr]
      · rw [if_neg hsel, if_neg hset, if_neg fun h => hset h.2.2]
        refine ⟨d₁, hp.congr ?_, (receiveData_nil d₁).symm⟩
        simp [Loses, hfd, hset]
  · rw [if_neg hfd, if_neg fun h => hfd h.1]
    refine ⟨_, ?_, (receiveData_nil _).symm⟩
    refine ((Beside.kept rfl rfl rfl : Beside False d (d.act .sleep)).trans (connectToPort_beside env _)).congr ?_
    simp [Loses, hfd]

/-! ## Lines -/

theorem published_update (s : Shared) (ch : Channel) (n : Int) :
    Shared.published { s with voltage := Function.update s.voltage ch.index n } = s.published.put (.voltage ch n) := by
  refine congrArg₂ Published.mk (funext fun c => ?_) rfl
  cases ch <;> cases c <;> rfl

/-- A line is published as what it reports. -/
theorem handleLine_published (fd : Int) (s : PMon) (l : List UInt8) :
    (handleLine fd s l).shared.published = s.shared.published.after [l] := by
  have hafter : s.shared.published.after [l] = (Reading.ofLine l).elim s.shared.published s.shared.published.put := by
    rw [Published.after]
    cases h : Reading.ofLine l <;> simp [h]
  rw [hafter, handleLine, processLine]
  split
  · next hn =>
    have hnone : Reading.ofLine l = none := by
      rw [Reading.ofLine, hn, if_neg (by decide), if_neg (by decide)]
    rw [hnone]
    rfl
  · rw [scan_cmdTable]
    unfold Reading.ofLine
    by_cases hv : bytes "Voltage" <+: nameOf l
    · rw [if_pos hv, if_pos hv]
      cases ha : argOf l with
      | none => rfl
      | some a =>
        rw [Option.bind_some]
        cases hch : Reading.channel a with
        | none =>
          refine congrArg Shared.published (receiveVoltage_unnamed ?_ fd s)
          intro ch a' he
          obtain rfl := Option.some.inj he
          exact Reading.channel_eq_none hch ch
        | some ch =>
          refine (congrArg Shared.published (receiveVoltage_named (Reading.channel_eq_some hch) fd s)).trans ?_
          exact published_update s.shared ch (numberOf a)
    · rw [if_neg hv, if_neg hv]
      by_cases hc : bytes "current" <+: nameOf l
      · rw [if_pos hc, if_pos hc]
        cases argOf l <;> rfl
      · rw [if_neg hc, if_neg hc]
        rfl

theorem handleLines_published (fd : Int) (ls : List (List UInt8)) : ∀ s : PMon,
    (ls.foldl (handleLine fd) s).shared.published = s.shared.published.after ls := by
  induction ls with
  | nil => exact fun _ => rfl
  | cons l ls ih =>
    intro s
    rw [List.foldl_cons, ih, handleLine_published, ← Published.after_append]
    rfl

/-! ## Sessions -/

/-- Where the daemon is after the stream `s`: it has taken the lines `hs`, and the rest `u` is in its buffer. -/
structure Session (hs : List (List UInt8)) (u s : List UInt8) (d : Daemon) : Prop where
  length : d.readBuf.length = readBufSize
  whole : joined hs u = s
  cut : ∀ l ∈ hs, cr ∉ l
  holds : d.Holds u
  lookups : d.lookups = hs.filterMap lookupOf
  /-- A line waits in the buffer only behind one that is not in the table. -/
  waits : cr ∈ u → ∃ l, hs.getLast? = some l ∧ ¬ Known l
  /-- What is published are the readings of the last lines taken. -/
  published : ∃ since, since <:+ hs ∧ d.pmon.shared.published = Published.zero.after since

variable {hs : List (List UInt8)} {u s : List UInt8} {d : Daemon}

theorem text_text_append (mem c : List UInt8) : text (text mem ++ c) = text mem ++ text c := by
  refine List.takeWhile_append_of_pos fun a ha => decide_eq_true ?_
  rintro rfl
  exact nul_not_mem_text mem ha

/-- A read whose bytes the buffer has room for: what it brings behind a NUL is lost. -/
theorem Session.read (h : Session hs u s d) {c : List UInt8} (hfit : d.Fits c) :
    ∃ d' new u', d.receiveData c = some d' ∧ Session (hs ++ new) u' (s ++ text c) d' ∧
      d'.pmon.shared.published = d.pmon.shared.published.after new := by
  rcases Nat.eq_zero_or_pos c.length with hnil | hpos
  · obtain rfl := List.length_eq_zero_iff.mp hnil
    refine ⟨d, [], u, receiveData_nil d, ?_, rfl⟩
    rw [show text ([] : List UInt8) = [] from rfl, List.append_nil, List.append_nil]
    exact h
  · obtain ⟨hz, nl, hnl, ht⟩ := h.holds
    obtain ⟨buf, he, hlen, hz', ht'⟩ := receiveData_drain hpos hz (by rw [h.length]; exact hfit)
    rw [text_text_append, ht, List.append_assoc] at ht'
    obtain ⟨d', hd', -, hlen', hpm, hlk, hz'', htext⟩ := drain_text (buf.length + 1) (d := { d with readBuf := buf })
      (Int.natCast_nonneg c.length) hz' hnl ht' (lines_length_lt ht')
    obtain ⟨nl', ls, hnl', hsplit, hleave, hlast⟩ := leave_eq (lines (u ++ text c)) (partialLine (u ++ text c)) hnl
    have hjoined : joined (taken (lines (u ++ text c))) (joined ls (partialLine (u ++ text c))) = u ++ text c := by
      rw [← joined_append, hsplit, joined_lines]
    refine ⟨d', taken (lines (u ++ text c)), joined ls (partialLine (u ++ text c)), he.trans hd',
      ⟨hlen'.trans (hlen.trans h.length), ?_, ?_, ⟨hz'', nl', hnl', htext.trans hleave⟩, ?_, ?_, ?_⟩, ?_⟩
    · rw [joined_append, hjoined, ← h.whole, joined, joined, List.append_assoc]
    · intro l hl
      rcases List.mem_append.mp hl with hl | hl
      · exact h.cut l hl
      · have hmem : l ∈ lines (u ++ text c) := hsplit ▸ List.mem_append_left ls hl
        exact (free_iff l).mp (Lines.free_of_mem_pieces hmem)
    · rw [hlk, List.filterMap_append, ← h.lookups]
    · intro hcr
      have hne : ls ≠ [] := by
        rintro rfl
        exact cr_not_mem_partialLine _ hcr
      obtain ⟨l, hl, hno⟩ := hlast hne
      exact ⟨l, by rw [List.getLast?_append, hl]; rfl, hno⟩
    · obtain ⟨since, ⟨before, hsuf⟩, hp⟩ := h.published
      refine ⟨since ++ taken (lines (u ++ text c)), ⟨before, by rw [← List.append_assoc, hsuf]⟩, ?_⟩
      rw [hpm, handleLines_published, Published.after_append, ← hp]
    · rw [hpm, handleLines_published]

/-- Step lemma: a step goes on from a session to a session. -/
theorem Session.step (h : Session hs u s d) {env : SysIn} (hfit : d.Fits (d.reads env)) :
    ∃ d' new u', d.step env = some d' ∧ Session (hs ++ new) u' (s ++ text (d.reads env)) d' ∧
      d'.pmon.shared.published = (if Loses env d then .zero else d.pmon.shared.published).after new := by
  obtain ⟨d₁, hb, hstep⟩ := step_receiveData env d
  have h₁ : Session hs u s d₁ := by
    refine ⟨hb.readBuf ▸ h.length, h.whole, h.cut, by rw [Holds, hb.readBuf]; exact h.holds, hb.lookups.trans h.lookups, h.waits, ?_⟩
    rw [hb.published]
    split
    · exact ⟨[], List.nil_suffix, rfl⟩
    · exact h.published
  have hfit₁ : d₁.Fits (d.reads env) := by
    rw [Fits, hb.readBuf]
    exact hfit
  obtain ⟨d', new, u', hd', h', hp⟩ := h₁.read hfit₁
  exact ⟨d', new, u', hstep.trans hd', h', by rw [hp, hb.published]⟩

/-! ## Runs -/

/-- Everything that the steps read, in order, of each read up to its first NUL. -/
def stream : List SysIn → Daemon → List UInt8
  | [], _ => []
  | env :: envs, d => text (d.reads env) ++ (d.step env).elim [] (stream envs)

/-- The buffer has room for what each step of a run reads, and for the NUL behind it. -/
def Roomy (d : Daemon) (envs : List SysIn) : Prop :=
  ∀ pre env d', pre ++ [env] <+: envs → steps pre d = some d' → d'.Fits (d'.reads env)

/-- No step of a run loses the connection. -/
def Steady (d : Daemon) (envs : List SysIn) : Prop :=
  ∀ pre env d', pre ++ [env] <+: envs → steps pre d = some d' → ¬ Loses env d'

/-- What holds of the steps of a run holds of the first, and of those behind it. -/
theorem forall_steps_cons {P : SysIn → Daemon → Prop} {env : SysIn} {envs : List SysIn} {d d' : Daemon}
    (h : ∀ pre e d', pre ++ [e] <+: env :: envs → steps pre d = some d' → P e d') (hd' : d.step env = some d') :
    P env d ∧ ∀ pre e d'', pre ++ [e] <+: envs → steps pre d' = some d'' → P e d'' := by
  refine ⟨h [] env d (List.cons_prefix_cons.mpr ⟨rfl, List.nil_prefix⟩) rfl, fun pre e d'' hp hd'' => ?_⟩
  refine h (env :: pre) e d'' (List.cons_prefix_cons.mpr ⟨rfl, hp⟩) ?_
  rw [steps, hd', Option.bind_some, hd'']

/-- What holds of the first step of a run, and of those behind it, holds of all its steps. -/
theorem forall_steps_of_cons {P : SysIn → Daemon → Prop} {env : SysIn} {envs : List SysIn} {d d' : Daemon} (h : P env d)
    (hd' : d.step env = some d') (hrest : ∀ pre e d'', pre ++ [e] <+: envs → steps pre d' = some d'' → P e d'') :
    ∀ pre e d'', pre ++ [e] <+: env :: envs → steps pre d = some d'' → P e d'' := by
  intro pre e d'' hp hd''
  rcases pre with _ | ⟨x, pre⟩
  · obtain rfl : e = env := (List.cons_prefix_cons.mp hp).1
    obtain rfl := Option.some.inj hd''
    exact h
  · obtain ⟨rfl, hrun⟩ := List.cons_prefix_cons.mp hp
    rw [steps, hd', Option.bind_some] at hd''
    exact hrest pre e d'' hrun hd''

/-- Run lemma: the steps go on from a session to a session, and publish what they take unless they lose the connection. -/
theorem Session.run (envs : List SysIn) : ∀ {hs : List (List UInt8)} {u s : List UInt8} {d : Daemon}, Session hs u s d →
    d.Roomy envs → ∃ d' new u', steps envs d = some d' ∧ Session (hs ++ new) u' (s ++ stream envs d) d' ∧
      (d.Steady envs → d'.pmon.shared.published = d.pmon.shared.published.after new) := by
  induction envs with
  | nil =>
    intro hs u s d h _
    refine ⟨d, [], u, rfl, ?_, fun _ => rfl⟩
    rw [stream, List.append_nil, List.append_nil]
    exact h
  | cons env envs ih =>
    intro hs u s d h hroom
    have hfit : d.Fits (d.reads env) := hroom [] env d (List.cons_prefix_cons.mpr ⟨rfl, List.nil_prefix⟩) rfl
    obtain ⟨d₁, new₁, u₁, hd₁, h₁, hp₁⟩ := h.step hfit
    obtain ⟨d', new, u', hd', h', hp⟩ := ih h₁ (forall_steps_cons hroom hd₁).2
    refine ⟨d', new₁ ++ new, u', by rw [steps, hd₁, Option.bind_some, hd'], ?_, fun hst => ?_⟩
    · rw [stream, hd₁, Option.elim_some, ← List.append_assoc, ← List.append_assoc]
      exact h'
    · obtain ⟨hkept, hrest⟩ := forall_steps_cons hst hd₁
      rw [hp hrest, hp₁, if_neg hkept, ← Published.after_append]

/-- The daemon after its start and its first attempt to connect. -/
def started (start : PMon.StartupIn) (connect : SysIn) (readBuf : List UInt8) : Daemon :=
  ((initial readBuf).startup start).2.connectToPort connect

/-- The start of a daemon that goes on reads and publishes nothing. -/
theorem startup_beside {start : PMon.StartupIn} {d : Daemon} (hup : (d.startup start).1 = true) :
    (d.startup start).2.readBuf = d.readBuf ∧ (d.startup start).2.lookups = d.lookups ∧
      (d.startup start).2.pmon.shared = .zero := by
  have hcreate : (d.pmon.createSharedMemory start).1 = true → (d.pmon.createSharedMemory start).2.shared = .zero := by
    unfold PMon.createSharedMemory
    split
    · exact fun h => absurd h Bool.false_ne_true
    · split
      · exact fun h => absurd h Bool.false_ne_true
      · split
        · exact fun h => absurd h Bool.false_ne_true
        · exact fun _ => rfl
  unfold startup at hup ⊢
  by_cases hc : (d.pmon.createSharedMemory start).1 = false
  · rw [if_pos hc] at hup
    cases hup
  · rw [if_neg hc] at hup ⊢
    by_cases hd : start.daemon < 0
    · rw [if_pos hd] at hup
      cases hup
    · rw [if_neg hd]
      exact ⟨rfl, rfl, hcreate (Bool.eq_true_of_not_eq_false hc)⟩

/-- A daemon that goes on after its start runs the steps of its loop, from a session with nothing read and nothing published. -/
theorem started_session {start : PMon.StartupIn} {buf : List UInt8} (hup : ((initial buf).startup start).1 = true)
    (hlen : buf.length = readBufSize) (h0 : buf.head? = some 0) (connect : SysIn) :
    (∀ envs, main start connect envs buf = steps envs (started start connect buf)) ∧
      Session [] [] [] (started start connect buf) ∧ (started start connect buf).pmon.shared.published = .zero := by
  have hb := connectToPort_beside connect ((initial buf).startup start).2
  obtain ⟨hread, hlook, hshared⟩ := startup_beside hup
  have hbuf : (started start connect buf).readBuf = buf := hb.readBuf.trans hread
  have hfresh : (started start connect buf).Fresh :=
    ⟨by rw [hbuf]; exact hlen, by rw [hbuf]; exact h0, hb.lookups.trans hlook⟩
  have hzero : (started start connect buf).pmon.shared.published = .zero := by
    rw [started, hb.published, if_neg not_false, hshared]
    rfl
  refine ⟨fun envs => by rw [main, if_pos hup]; rfl, ?_, hzero⟩
  exact ⟨hfresh.length, rfl, by simp, hfresh.caught.holds, hfresh.lookups, by simp, [], List.nil_suffix, hzero⟩

/-! ## The lines of a session -/

/-- The lines of the stream are the lines taken and those that wait. -/
theorem Session.lines_eq (h : Session hs u s d) : lines s = hs ++ lines u := by
  have hjoined : ∀ ls : List (List UInt8), (∀ l ∈ ls, cr ∉ l) → lines (joined ls u) = ls ++ lines u := by
    intro ls
    induction ls with
    | nil => exact fun _ => rfl
    | cons l ls ih =>
      intro hcut
      have hl : Lines.Free isCr l := (free_iff l).mpr (hcut l List.mem_cons_self)
      have hcons : joined (l :: ls) u = l ++ cr :: joined ls u := by simp [joined]
      rw [hcons, lines, Lines.pieces_stop hl rfl, ← lines, ih fun m hm => hcut m (List.mem_cons_of_mem l hm)]
      rfl
  rw [← h.whole, hjoined hs h.cut]

/-- Where every line is in the table, none waits. -/
theorem Session.all (h : Session hs u s d) (hk : ∀ l ∈ lines s, Known l) : hs = lines s := by
  have hcr : cr ∉ u := by
    intro hcr
    obtain ⟨l, hl, hno⟩ := h.waits hcr
    refine hno (hk l ?_)
    rw [h.lines_eq]
    exact List.mem_append_left _ (List.mem_of_getLast? hl)
  rw [h.lines_eq, show lines u = [] from Lines.pieces_free ((free_iff u).mpr hcr), List.append_nil]

end Daemon

/-- All the bytes that the daemon reads, over all its connections and of each read up to its first NUL, are one stream, if the buffer
holds the empty string at first and has room for every read. The lines the daemon has taken are the first lines of the
stream, none skipped and none taken twice, each looked up in this order; the rest of the stream is in the receive buffer. A line
waits there only while the last line taken is not in the table. What is published are the readings of the last lines taken, and of
all of them while the connection is not lost. -/
theorem daemon_session {start : PMon.StartupIn} {buf : List UInt8} (hup : ((Daemon.initial buf).startup start).1 = true)
    (hlen : buf.length = readBufSize) (h0 : buf.head? = some 0) (connect : SysIn) (envs : List SysIn)
    (hroom : (Daemon.started start connect buf).Roomy envs) :
    ∃ d hs u, Daemon.main start connect envs buf = some d ∧
      Daemon.Session hs u ((Daemon.started start connect buf).stream envs) d ∧
      ((Daemon.started start connect buf).Steady envs → d.pmon.shared.published = Published.zero.after hs) := by
  obtain ⟨hmain, h, hzero⟩ := Daemon.started_session hup hlen h0 connect
  obtain ⟨d, new, u, hd, hses, hpub⟩ := h.run envs hroom
  refine ⟨d, new, u, (hmain envs).trans hd, hses, fun hst => ?_⟩
  rw [hpub hst, hzero]

/-- A start whose calls all succeed. -/
def PMon.StartupIn.good : PMon.StartupIn := { ftok := 1, shmget := 1, shmat := 1, daemon := 0 }

/-- A step whose calls all succeed and whose read brings some data. -/
def SysIn.bringing (data : List UInt8) : SysIn where
  openRv := 3
  tcsetattr := 0
  closeOpen := 0
  startup := 5
  restart := 9
  time := 1
  write := 20
  closeWrite := 0
  select := 1
  isset := true
  read := some data
  closeRead := 0

namespace Daemon

variable {hs : List (List UInt8)} {u s : List UInt8} {d : Daemon}

/-- Data shorter than what is left of the buffer behind the whole stream fits. -/
theorem Session.fits (h : Session hs u s d) {c : List UInt8} (hlen : s.length + 1 + c.length < readBufSize) : d.Fits c := by
  have hu : u.length ≤ s.length := by
    rw [← h.whole, joined, List.length_append]
    exact Nat.le_add_left ..
  exact h.holds.fits (by omega)

/-- Reads that the buffer has room for all come in. -/
theorem Session.bringing (cs : List (List UInt8)) : ∀ {hs : List (List UInt8)} {u s : List UInt8} {d : Daemon}, Session hs u s d →
    0 ≤ d.serialFd → (∀ c ∈ cs, (0 : UInt8) ∉ c) → s.length + 1 + cs.flatten.length < readBufSize →
    d.stream (cs.map .bringing) = cs.flatten ∧ d.Roomy (cs.map .bringing) ∧ d.Steady (cs.map .bringing) := by
  induction cs with
  | nil => exact fun _ _ _ _ => ⟨rfl, by simp [Roomy], by simp [Steady]⟩
  | cons c cs ih =>
    intro hs u s d h hfd hnul hlen
    obtain ⟨hc, hcs⟩ := List.forall_mem_cons.mp hnul
    rw [List.flatten_cons, List.length_append] at hlen
    have hfit : d.Fits c := h.fits (by omega)
    have hreads : d.reads (.bringing c) = c := by
      rw [reads, if_pos ⟨hfd, show ¬ (1 : Int) < 0 by decide, rfl⟩]
      refine List.take_of_length_le ?_
      unfold Fits at hfit
      omega
    have hkept : ¬ Loses (.bringing c) d := by
      rintro ⟨-, ⟨-, hw⟩ | ⟨-, -, hr⟩⟩
      · exact absurd (show (20 : Int) < 0 from hw) (by decide)
      · cases hr
    have hfit' : d.Fits (d.reads (.bringing c)) := hreads.symm ▸ hfit
    obtain ⟨d', new, u', hd', hses, -⟩ := h.step hfit'
    rw [hreads, text_of_not_mem hc] at hses
    have hfd' : 0 ≤ d'.serialFd := by
      obtain ⟨-, -, ⟨-, -, he⟩ | ⟨-, -, hr, -⟩ | ⟨-, -, -, -, -, -, -, he⟩⟩ := iteration_cases (step_of_nonneg hfd hd')
      · rw [he, pollFd, if_neg fun hw => absurd (show (20 : Int) < 0 from hw.2) (by decide)]
        exact hfd
      · cases hr
      · rw [he, pollFd, if_neg fun hw => absurd (show (20 : Int) < 0 from hw.2) (by decide)]
        exact hfd
    obtain ⟨hstream, hroom, hsteady⟩ := ih hses hfd' hcs (by rw [List.length_append]; omega)
    refine ⟨?_, forall_steps_of_cons hfit' hd' hroom, forall_steps_of_cons hkept hd' hsteady⟩
    rw [List.map_cons, stream, hd', Option.elim_some, hstream, hreads, text_of_not_mem hc, List.flatten_cons]

/-- A daemon that has started and connected, all of whose reads its buffer has room for. -/
theorem started_bringing (cs : List (List UInt8)) (hnul : ∀ c ∈ cs, (0 : UInt8) ∉ c)
    (hlen : cs.flatten.length + 1 < readBufSize) :
    let d := started .good (.bringing []) (List.replicate readBufSize 0)
    d.stream (cs.map .bringing) = cs.flatten ∧ d.Roomy (cs.map .bringing) ∧ d.Steady (cs.map .bringing) := by
  have hup : ((initial (List.replicate readBufSize 0)).startup .good).1 = true := rfl
  obtain ⟨-, h, -⟩ := started_session hup List.length_replicate rfl (.bringing [])
  exact h.bringing cs (show (0 : Int) ≤ 3 by decide) hnul (by rw [List.length_nil]; omega)

end Daemon

/-- A reply is cut between two reads, and the second brings another one. -/
theorem daemon_session_cut_reply :
    let cs := [bytes "\nVoltage: Pri 120", bytes "00 mV\r\n\nVoltage: Sec 5000 mV\r\n"]
    ∃ d, Daemon.main .good (.bringing []) (cs.map .bringing) (List.replicate readBufSize 0) = some d ∧
      d.lookups = [(bytes "Voltage", some (bytes " Pri 12000 mV")), (bytes "Voltage", some (bytes " Sec 5000 mV"))] ∧
      d.pmon.shared.published.voltage .pri = 12000 ∧ d.pmon.shared.published.voltage .sec = 5000 := by
  intro cs
  obtain ⟨hstream, hroom, hsteady⟩ := Daemon.started_bringing cs (by decide) (by decide)
  obtain ⟨d, hs, u, hd, hses, hpub⟩ := daemon_session rfl List.length_replicate rfl (.bringing []) (cs.map .bringing) hroom
  rw [hstream] at hses
  have hall : hs = Daemon.lines cs.flatten := hses.all (by decide)
  refine ⟨d, hd, ?_, ?_⟩
  · rw [hses.lookups, hall]
    decide
  · rw [hpub hsteady, hall]
    decide

end PowerMonitor
