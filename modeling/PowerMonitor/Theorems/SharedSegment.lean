import PowerMonitor.Lemmas.PMonLib
import PowerMonitor.Spec.Publisher

/-!
# The shared memory under its users

The daemon and any number of clients take turns in any order. A call answers from the segment as the daemon's functions have left it
at one moment of the call; nothing but reported readings is ever told; and who waits for the mutex can be let in if and only if nobody
has been terminated inside a section.
-/

namespace PowerMonitor

open CString Processes

namespace Users

variable {κ : Type} [DecidableEq κ] {ops : List Op} {calls : κ → List Call} {ts : List (Turn (Option κ))} {s s' : Users κ} {k : κ}

/-- A disciplined system. -/
theorem attached_disciplined {R : Shared → Shared → Prop} (hrefl : ∀ s, R s s)
    (hconn : ∀ s : Shared, R s { s with portConnected := 1 }) (hclear : .clearSharedMemory ∈ ops → ∀ s s', R s s')
    (calls : κ → List Call) : Disciplined R (attached ops calls) := by
  intro i
  left
  cases i with
  | none => exact Op.guarded hconn hclear
  | some k => exact Client.guarded hrefl (calls k)

omit [DecidableEq κ] in
/-- Where the daemon is not signalled, nobody leaves for a handler with statements. -/
theorem handler_bare {R : Shared → Shared → Prop} (hsig : .signal none ∉ ts) (j : Option κ) (hj : .signal j ∈ ts) :
    Bare R (handler j) := by
  cases j with
  | none => exact absurd hj hsig
  | some k => simp [handler, Bare]

/-! ## A call and its moment -/

/-- The segment after some first operations. -/
def history (ops : List Op) (n : Nat) : Shared := (Op.runs (ops.take n) { shared := .zero, last := 0, trace := [] }).shared

/-- Where the memory is not cleared, the segment is at every moment what some first operations of the daemon leave. -/
theorem shared_history (hops : .clearSharedMemory ∉ ops) (hsig : .signal none ∉ ts)
    (h : run handler ts (attached ops calls) = some s) : ∃ n ≤ ops.length, s.shared = history ops n := by
  have hreads : ∀ j, j ≠ none → Reads ((attached ops calls).code j) := by
    rintro (_ | k) hj
    · exact absurd rfl hj
    · exact Client.reads_calls (calls k)
  have hhandler : ∀ j : Option κ, j ≠ none → Reads (handler j) := by
    rintro (_ | k) hj
    · exact absurd rfl hj
    · simp [handler, Reads]
  obtain ⟨done, hp, ha⟩ := sole_run hsig hhandler hreads h
  obtain ⟨n, hn, he⟩ := Op.alone_ops_prefix hops ((List.prefix_append done _).trans hp) { shared := .zero, last := 0, trace := [] }
    Client.init
  exact ⟨n, hn, congrArg Prod.fst (ha.symm.trans he)⟩

/-- The return of a call. -/
theorem ret_moment (hu : Undisturbed (some k) ts) (h : run handler ts s = some s') {c : Call} {a : Shared → Client → Answer}
    {rest : List (Stmt Shared Client)} (hc : s.code (some k) = Client.ret c a :: rest) (hc' : s'.code (some k) = rest) :
    ∃ us vs m, ts = us ++ vs ∧ run handler us s = some m ∧
      (s'.regs (some k)).returned = (s.regs (some k)).returned ++ [(c, a m.shared (s.regs (some k)))] := by
  obtain ⟨us, vs, m, rfl, hm, hr⟩ := exec_moment hu h hc hc'
  exact ⟨us, vs, m, rfl, hm, by rw [hr]⟩

/-- A call answers from the segment as the daemon's functions have left it at one moment between the beginning and the end of the call:
wherever the other processes take their turns, what two loads of one call find belongs together. (What a negative channel reads is
outside the segment, and the answer says only that.) -/
theorem call_answers_history (hops : .clearSharedMemory ∉ ops) {ts₀ : List (Turn (Option κ))} (hsig : .signal none ∉ ts₀ ++ ts)
    (hs : run handler ts₀ (attached ops calls) = some s) (hr : run handler ts s = some s') {c : Call}
    {rest : List (Stmt Shared Client)} (hu : Undisturbed (some k) ts) (hc : s.code (some k) = Client.call c ++ rest)
    (hc' : s'.code (some k) = rest) :
    ∃ us vs m n, ts = us ++ vs ∧ run handler us s = some m ∧ n ≤ ops.length ∧ m.shared = history ops n ∧
      (s'.regs (some k)).returned = (s.regs (some k)).returned ++ [(c, c.answer m.shared)] := by
  suffices hmoment : ∃ us vs m, ts = us ++ vs ∧ run handler us s = some m ∧
      (s'.regs (some k)).returned = (s.regs (some k)).returned ++ [(c, c.answer m.shared)] by
    obtain ⟨us, vs, m, rfl, hm, hret⟩ := hmoment
    have hall : run handler (ts₀ ++ us) (attached ops calls) = some m := by rw [run_append, hs, Option.bind_some, hm]
    obtain ⟨n, hn, he⟩ := shared_history hops
      (fun h => hsig (List.append_assoc .. ▸ List.mem_append_left vs h)) hall
    exact ⟨us, vs, m, n, rfl, hm, hn, he, hret⟩
  rcases Client.made_call c with ⟨a, he, ha⟩ | ⟨fs, a, he, hfs, ha⟩
  · rw [he] at hc
    obtain ⟨us, vs, m, hts, hm, hret⟩ := ret_moment hu hr hc hc'
    exact ⟨us, vs, m, hts, hm, by rw [hret, ha]⟩
  · have hrefl : ∀ s : Shared, s.SameValues s := .refl
    have hd : Disciplined Shared.SameValues s :=
      (attached_disciplined hrefl (fun s => ⟨rfl, rfl⟩) (fun h => absurd h hops) calls).run
        (handler_bare fun h => hsig (List.mem_append_left ts h)) hs
    rw [he, List.cons_append, List.append_assoc] at hc
    -- the section ends at `p`, where the call returns
    obtain ⟨us, vs, p, rfl, hp, hpc, hvs⟩ := run_through (.lock :: (fs.map .exec ++ [.unlock])) (c := Client.ret c a :: rest) hu hr
      (by simpa using hc) (hc' ▸ List.suffix_cons _ _)
    have hhandler := handler_bare (R := Shared.SameValues) fun h => hsig (List.mem_append_right ts₀ (List.mem_append_left vs h))
    obtain ⟨us', vs', m, x, rfl, hm, hunder⟩ := atomic_section hrefl .trans fs hhandler hu.of_append.1 hd hc hp hpc
    have hregs := hunder.reads .trans (fun f hf => (hfs f hf).reads) (hrefl m.shared)
    obtain ⟨us'', vs'', q, -, -, hret⟩ := ret_moment hu.of_append.2 hvs hpc hc'
    refine ⟨us', vs' ++ vs, m, List.append_assoc .., hm, ?_⟩
    rw [hret, show p.regs (some k) = _ from hregs, ha, Client.returned_loads hfs]

/-- A client asks for both voltages while the daemon stores the second one. -/
theorem call_answers_history_between :
    let ops : List Op := [.receiveVoltage (some (bytes " Pri 12000 mV")), .receiveVoltage (some (bytes " Sec 5000 mV"))]
    let s : Users Unit := attached ops fun _ => [.getVoltages true true true]
    let d : Turn (Option Unit) := .step none
    let c : Turn (Option Unit) := .step (some ())
    let ts := [d, d, d, c, c, c, c, d, d, d, c]
    ∃ s' us vs m n, run handler ts s = some s' ∧ ts = us ++ vs ∧ run handler us s = some m ∧ n ≤ ops.length ∧
      m.shared = history ops n ∧
      (s'.regs (some ())).returned = [(.getVoltages true true true, Call.answer m.shared (.getVoltages true true true))] := by
  intro ops s d c ts
  have hops : .clearSharedMemory ∉ ops := by decide
  have hsig : .signal none ∉ [] ++ ts := by decide
  have hu : Undisturbed (some ()) ts := by decide
  have hs : run handler [] s = some s := rfl
  have hc : s.code (some ()) = Client.call (.getVoltages true true true) ++ [] := rfl
  obtain ⟨s', hr, hc'⟩ : ∃ s', run handler ts s = some s' ∧ s'.code (some ()) = [] := ⟨_, rfl, rfl⟩
  obtain ⟨us, vs, m, n, hts, hm, hn, he, hret⟩ := call_answers_history hops hsig hs hr hu hc hc'
  exact ⟨s', us, vs, m, n, hr, hts, hm, hn, he, hret⟩

end Users

/-! ## What is told -/

theorem Op.safe_clear {rs : List Reading} {J : Client → Prop} {rest : List (Stmt Shared Client)} {x : Client} (hx : J x)
    (hrest : Safe (Shared.Tells rs) J rest x) : Safe (Shared.Tells rs) J (Op.clear ++ rest) x := by
  refine ⟨hx, fun s hs => ⟨hs.setConnected (Or.inl rfl), hx, fun s hs => ⟨hs.setVoltage .pri (Or.inl rfl), hx, fun s hs =>
    ⟨hs.setVoltage .sec (Or.inl rfl), hx, fun s hs => ⟨hs.setCurrent (Or.inl rfl), hx, fun s hs => ⟨?_, hrest⟩⟩⟩⟩⟩⟩
  exact ⟨hs.voltage, hs.current, rfl, hs.connected⟩

/-- The stores of an operation are of what it publishes, or of zeros. -/
theorem Op.safe {rs : List Reading} {J : Client → Prop} {op : Op} (hop : ∀ r, op.reading = some r → r ∈ rs)
    {rest : List (Stmt Shared Client)} {x : Client} (hx : J x) (hrest : Safe (Shared.Tells rs) J rest x) :
    Safe (Shared.Tells rs) J (op.code ++ rest) x := by
  cases op with
  | setConnected => exact ⟨hx, fun s hs => ⟨hs.setConnected (Or.inr rfl), hrest⟩⟩
  | clearSharedMemory => exact safe_clear hx hrest
  | receiveCurrent buf =>
    cases buf with
    | none => exact hrest
    | some a => exact ⟨hx, hx, fun s hs => ⟨hs.setCurrent (Or.inr (hop _ rfl)), hx, hrest⟩⟩
  | receiveVoltage buf =>
    cases buf with
    | none => exact hrest
    | some a =>
      have hlocked : ∀ ch, Reading.channel a = some ch → Safe (Shared.Tells rs) J
          (Op.locked (fun s => { s with voltage := Function.update s.voltage ch.index (numberOf a) }) ++ rest) x := by
        intro ch hch
        have hmem := hop (.voltage ch (numberOf a)) (by simp [reading, hch])
        exact ⟨hx, hx, fun s hs => ⟨hs.setVoltage ch (Or.inr hmem), hx, hrest⟩⟩
      unfold code
      dsimp only
      split
      · next hpri =>
        exact hlocked .pri (if_pos ((strncmp_name_iff .pri _).mp hpri))
      · next hpri =>
        split
        · next hsec =>
          have hnot : ¬ bytes "Pri" <+: CmdParse.skipSpace a := mt (strncmp_name_iff .pri _).mpr hpri
          exact hlocked .sec ((if_neg hnot).trans (if_pos ((strncmp_name_iff .sec _).mp hsec)))
        · exact hrest

theorem Op.safe_ops {rs : List Reading} {J : Client → Prop} {ops : List Op} (hops : ∀ r ∈ ops.filterMap Op.reading, r ∈ rs) {x : Client}
    (hx : J x) : Safe (Shared.Tells rs) J (ops.flatMap Op.code) x := by
  induction ops with
  | nil => exact hx
  | cons op ops ih =>
    rw [List.flatMap_cons]
    refine Op.safe (fun r hr => hops r (List.mem_filterMap.mpr ⟨op, List.mem_cons_self, hr⟩)) hx (ih fun r hr => hops r ?_)
    obtain ⟨op', hmem, hr⟩ := List.mem_filterMap.mp hr
    exact List.mem_filterMap.mpr ⟨op', List.mem_cons_of_mem op hmem, hr⟩

namespace Client

/-- Every answer is one that some segment gives in which there are only values of some readings. -/
def Told (rs : List Reading) (x : Client) : Prop := ∀ y ∈ x.returned, ∃ seg, Shared.Tells rs seg ∧ y.2 = y.1.answer seg

variable {rs : List Reading} {x : Client} {rest : List (Stmt Shared Client)}

theorem safe_ret {c : Call} {a : Shared → Client → Answer} (hx : Told rs x)
    (ha : ∀ s, Shared.Tells rs s → ∃ seg, Shared.Tells rs seg ∧ a s x = c.answer seg)
    (hrest : ∀ x, Told rs x → Safe (Shared.Tells rs) (Told rs) rest x) : Safe (Shared.Tells rs) (Told rs) (ret c a :: rest) x := by
  refine ⟨hx, fun s hs => ⟨hs, hrest _ ?_⟩⟩
  intro y hy
  rcases List.mem_append.mp hy with hy | hy
  · exact hx y hy
  · obtain rfl := List.mem_singleton.mp hy
    exact ha s hs

theorem safe_get {c : Call} {array : Shared → Fin 2 → Int} {ptr : Bool} {ch : Int}
    (hc : ∀ s, c.answer s = .float (Shared.asked (array s) ptr ch)) (hx : Told rs x)
    (hrest : ∀ x, Told rs x → Safe (Shared.Tells rs) (Told rs) rest x) :
    Safe (Shared.Tells rs) (Told rs) (get c array ptr ch ++ rest) x := by
  by_cases h : ptr = true ∧ ch < 2
  · rw [get_of_lt h]
    refine ⟨hx, hx, fun s hs => ⟨hs, hx, safe_ret hx (fun _ _ => ⟨s, hs, ?_⟩) hrest⟩⟩
    rw [hc, Shared.asked_of_lt h]
    rfl
  · rw [get_of_not h]
    refine safe_ret hx (fun s hs => ⟨s, hs, ?_⟩) hrest
    rw [hc, Shared.asked_of_not h]

theorem safe_getVoltages {ptr v1 v2 : Bool} (hx : Told rs x) (hrest : ∀ x, Told rs x → Safe (Shared.Tells rs) (Told rs) rest x) :
    Safe (Shared.Tells rs) (Told rs) (getVoltages ptr v1 v2 ++ rest) x := by
  cases ptr with
  | false => exact safe_ret hx (fun s hs => ⟨s, hs, rfl⟩) hrest
  | true =>
    cases v1 with
    | false =>
      cases v2 with
      | false => exact ⟨hx, hx, safe_ret hx (fun s hs => ⟨s, hs, rfl⟩) hrest⟩
      | true => exact ⟨hx, hx, fun s hs => ⟨hs, hx, safe_ret hx (fun _ _ => ⟨s, hs, rfl⟩) hrest⟩⟩
    | true =>
      cases v2 with
      | false => exact ⟨hx, hx, fun s hs => ⟨hs, hx, safe_ret hx (fun _ _ => ⟨s, hs, rfl⟩) hrest⟩⟩
      | true =>
        -- the segment may be cleared between the two loads
        refine ⟨hx, hx, fun s hs => ⟨hs, hx, fun s' hs' => ⟨hs', hx, safe_ret hx (fun _ _ => ⟨_, hs'.setVoltage .pri (hs.voltage .pri), ?_⟩)
          hrest⟩⟩⟩
        rfl

/-- A call tells nothing else. -/
theorem safe_call (c : Call) (hx : Told rs x) (hrest : ∀ x, Told rs x → Safe (Shared.Tells rs) (Told rs) rest x) :
    Safe (Shared.Tells rs) (Told rs) (call c ++ rest) x := by
  cases c with
  | isConnected ptr => cases ptr <;> exact safe_ret hx (fun s hs => ⟨s, hs, rfl⟩) hrest
  | getVoltage ptr ch => exact safe_get (fun _ => rfl) hx hrest
  | getVoltages ptr v1 v2 => exact safe_getVoltages hx hrest
  | getCurrent ptr ch => exact safe_get (fun _ => rfl) hx hrest

theorem safe_calls (cs : List Call) (hx : Told rs x) : Safe (Shared.Tells rs) (Told rs) (cs.flatMap call) x := by
  induction cs generalizing x with
  | nil => exact hx
  | cons c cs ih => exact safe_call c hx fun _ => ih

end Client

namespace Users

variable {κ : Type} [DecidableEq κ] {ops : List Op} {calls : κ → List Call} {ts : List (Turn (Option κ))} {s s' : Users κ}

theorem told_run (hr : run handler ts (attached ops calls) = some s) (k : κ) :
    Client.Told (ops.filterMap Op.reading) (s.regs (some k)) := by
  have hinit : Client.Told (ops.filterMap Op.reading) Client.init := by simp [Client.Told, Client.init]
  have hsafe : ∀ i, Safe (Shared.Tells (ops.filterMap Op.reading)) (Client.Told (ops.filterMap Op.reading))
      ((attached ops calls).code i) ((attached ops calls).regs i) := by
    rintro (_ | k)
    · exact Op.safe_ops (fun _ hr => hr) hinit
    · exact Client.safe_calls (calls k) hinit
  have hhandler : ∀ (i : Option κ) x, Client.Told (ops.filterMap Op.reading) x →
      Safe (Shared.Tells (ops.filterMap Op.reading)) (Client.Told (ops.filterMap Op.reading)) (handler i) x := by
    rintro (_ | k) x hx
    · have hend : Safe (Shared.Tells (ops.filterMap Op.reading)) (Client.Told (ops.filterMap Op.reading)) [] x := hx
      have hclear := Op.safe_clear hx hend
      rwa [List.append_nil] at hclear
    · exact hx
  exact ((safe_run (J := fun _ => _) hhandler (.zero _) hsafe hr).2 (some k)).holds

/-- Whenever the daemon clears the memory, and whoever is terminated at whatever moment: every answer that a client ever gets is the
answer of a segment that holds only readings of lines that the daemon has taken, or zeros. (What a negative channel reads is
outside the segment, and the answer says only that.) -/
theorem answers_reported (hr : run handler ts (attached ops calls) = some s) (k : κ) :
    ∀ x ∈ (s.regs (some k)).returned, ∃ seg, Shared.Tells (ops.filterMap Op.reading) seg ∧ x.2 = x.1.answer seg :=
  told_run hr k

/-- The daemon is terminated between the two loads of a call, which tells the old voltage of one supply and no voltage of the other. -/
theorem answers_reported_torn :
    let ops : List Op := [.receiveVoltage (some (bytes " Pri 12000 mV")), .receiveVoltage (some (bytes " Sec 5000 mV"))]
    let d : Turn (Option Unit) := .step none
    let c : Turn (Option Unit) := .step (some ())
    let torn : Call × Answer := (.getVoltages true true true, .floats 0 (some 12000) (some 0))
    ∃ s, run handler [d, d, d, d, d, d, c, c, .signal none, d, d, d, c, c, c] (attached ops fun _ => [.getVoltages true true true]) = some s ∧
      (s.regs (some ())).returned = [torn] ∧ ∃ seg, Shared.Tells (ops.filterMap Op.reading) seg ∧ torn.2 = torn.1.answer seg := by
  intro ops d c torn
  obtain ⟨s, hr, hret⟩ : ∃ s, run handler [d, d, d, d, d, d, c, c, .signal none, d, d, d, c, c, c]
      (attached ops fun _ => [.getVoltages true true true]) = some s ∧ (s.regs (some ())).returned = [torn] := ⟨_, rfl, rfl⟩
  have hreported := answers_reported hr ()
  rw [hret] at hreported
  exact ⟨s, hr, hret, hreported torn (List.mem_singleton_self torn)⟩

/-! ## Who waits -/

/-- A process that waits for the mutex can be let in if and only if nobody has been terminated inside a section: neither the daemon in
the middle of a store, nor a client in the middle of its loads. -/
theorem waiting_let_in_iff (hr : run handler ts (attached ops calls) = some s) {i : Option κ} {c : List (Stmt Shared Client)}
    (hw : s.code i = .lock :: c) :
    (∃ us s', Undisturbed i us ∧ run handler us s = some s' ∧ s'.code i = c) ↔ ¬ Abandoned handler ts (attached ops calls) := by
  have hhandler : ∀ j : Option κ, Bare (fun _ _ => True) (handler j) := by
    rintro (_ | k)
    · simp [handler, Op.clear, Op.store, Bare]
    · simp [handler, Bare]
  exact let_in_iff hhandler (attached_disciplined (fun _ => trivial) (fun _ => trivial) (fun _ _ _ => trivial) calls) rfl hr hw

/-- The daemon is terminated between its lock and its store, and a client that comes to its lock waits for good. -/
theorem waiting_let_in_iff_blocked :
    let ops : List Op := [.receiveVoltage (some (bytes " Pri 12000 mV"))]
    let calls : Unit → List Call := fun _ => [.isConnected true, .getVoltage true 0]
    let d : Turn (Option Unit) := .step none
    ∃ s c, run handler [d, .signal none, .step (some ())] (attached ops calls) = some s ∧ s.code (some ()) = .lock :: c ∧
      ∀ us s', Undisturbed (some ()) us → run handler us s = some s' → s'.code (some ()) ≠ c := by
  intro ops calls d
  obtain ⟨s, c, hr, hw⟩ : ∃ s c, run handler [d, .signal none, .step (some ())] (attached ops calls) = some s ∧
      s.code (some ()) = .lock :: c := ⟨_, _, rfl, rfl⟩
  have hlost : Abandoned handler [d, .signal none, .step (some ())] (attached ops calls) :=
    ⟨[d], .signal none, [.step (some ())], _, rfl, rfl, rfl, nofun⟩
  refine ⟨s, c, hr, hw, fun us s' hu hs' hc => ?_⟩
  exact (waiting_let_in_iff hr hw).mp ⟨us, s', hu, hs', hc⟩ hlost

end Users

end PowerMonitor
