import PowerMonitor.Lib.Mutex
import PowerMonitor.Spec.Reader

/-!
# The programs of the daemon and its clients

What the statements of the two sides are: alone they do what the functions of Cmds_PMon.c do (`Op.alone_code`, `Op.scan_ofCommand`),
every section is given back (`Op.guarded`, `Client.guarded`), and clients only read the segment.
-/

namespace PowerMonitor

open CString

/-! ## The daemon -/

namespace Op

/-- Alone, the statements of an operation do what the operation does. -/
theorem alone_code {ρ : Type} (op : Op) (s : PMon) (r : ρ) : alone op.code (s.shared, r) = ((op.run s).shared, r) := by
  cases op with
  | setConnected => rfl
  | clearSharedMemory => rfl
  | receiveVoltage buf =>
    cases buf with
    | none => rfl
    | some buf =>
      unfold code run PMon.receiveVoltage
      dsimp only
      split
      · rfl
      · split <;> rfl
  | receiveCurrent buf => cases buf <;> rfl

/-- What `Cmd_Table` does with a command is the operation that it has for it. -/
theorem scan_ofCommand (fd : Int) (cmd : List UInt8) (arg : Option (List UInt8)) (s : PMon) :
    (CmdParse.scan fd cmd arg s PMon.cmdTable).2 = (ofCommand (cmd, arg)).elim s fun op => op.run s := by
  rw [scan_cmdTable]
  unfold ofCommand
  split
  · cases arg <;> rfl
  · split
    · cases arg <;> rfl
    · rfl

/-- Some operations, one after another. -/
def runs (ops : List Op) (s : PMon) : PMon := ops.foldl (fun s op => op.run s) s

/-- An operation that does not clear the memory has one store at most, alone or under the mutex. -/
theorem code_cases {ρ : Type} {op : Op} (hop : op ≠ .clearSharedMemory) : op.code (ρ := ρ) = [] ∨
    op.code (ρ := ρ) = [store fun s => { s with portConnected := 1 }] ∨ ∃ f, op.code (ρ := ρ) = locked f := by
  cases op with
  | setConnected => exact Or.inr (Or.inl rfl)
  | clearSharedMemory => exact absurd rfl hop
  | receiveVoltage buf =>
    cases buf with
    | none => exact Or.inl rfl
    | some buf =>
      unfold code
      dsimp only
      split
      · exact Or.inr (Or.inr ⟨_, rfl⟩)
      · split
        · exact Or.inr (Or.inr ⟨_, rfl⟩)
        · exact Or.inl rfl
  | receiveCurrent buf =>
    cases buf with
    | none => exact Or.inl rfl
    | some buf => exact Or.inr (Or.inr ⟨_, rfl⟩)

/-- An operation that does not clear the memory has no state between the one before it and the one after it. -/
theorem alone_prefix {ρ : Type} {op : Op} (hop : op ≠ .clearSharedMemory) {done : List (Stmt Shared ρ)} (h : done <+: op.code)
    (s : PMon) (r : ρ) : alone done (s.shared, r) = (s.shared, r) ∨ alone done (s.shared, r) = ((op.run s).shared, r) := by
  rw [← alone_code]
  rcases code_cases (ρ := ρ) hop with hc | hc | ⟨f, hc⟩
  · rw [hc, List.prefix_nil] at h
    exact Or.inl (h ▸ rfl)
  · rw [hc] at h ⊢
    simp only [List.prefix_cons_iff, List.prefix_nil] at h
    rcases h with rfl | ⟨_, rfl, rfl⟩
    · exact Or.inl rfl
    · exact Or.inr rfl
  · rw [hc] at h ⊢
    simp only [locked, List.prefix_cons_iff, List.prefix_nil] at h
    rcases h with rfl | ⟨_, rfl, rfl | ⟨_, rfl, rfl | ⟨_, rfl, rfl⟩⟩⟩
    · exact Or.inl rfl
    · exact Or.inl rfl
    · exact Or.inr rfl
    · exact Or.inr rfl

/-- Where the memory is not cleared, the segment is always what some first operations leave. -/
theorem alone_ops_prefix {ρ : Type} {ops : List Op} (hops : .clearSharedMemory ∉ ops) {done : List (Stmt Shared ρ)}
    (h : done <+: ops.flatMap code) (s : PMon) (r : ρ) :
    ∃ n ≤ ops.length, alone done (s.shared, r) = ((runs (ops.take n) s).shared, r) := by
  induction ops generalizing s done with
  | nil =>
    rw [List.flatMap_nil, List.prefix_nil] at h
    exact ⟨0, le_rfl, h ▸ rfl⟩
  | cons op ops ih =>
    rw [List.mem_cons, not_or] at hops
    rw [List.flatMap_cons] at h
    rcases List.prefix_or_prefix_of_prefix h (List.prefix_append _ _) with hp | ⟨d, rfl⟩
    · rcases alone_prefix (Ne.symm hops.1) hp s r with he | he
      · exact ⟨0, Nat.zero_le _, he⟩
      · exact ⟨1, by simp, he⟩
    · obtain ⟨n, hn, he⟩ := ih hops.2 ((List.prefix_append_right_inj _).mp h) (op.run s)
      refine ⟨n + 1, by simpa using hn, ?_⟩
      rw [alone_append, alone_code, he]
      rfl

/-- Where the memory is not cleared or every change is allowed, an operation gives back its section. -/
theorem guarded {R : Shared → Shared → Prop} {ρ : Type} (hconn : ∀ s : Shared, R s { s with portConnected := 1 }) {ops : List Op}
    (hclear : .clearSharedMemory ∈ ops → ∀ s s', R s s') : Guarded R false (ops.flatMap (code (ρ := ρ))) := by
  induction ops with
  | nil => rfl
  | cons op ops ih =>
    rw [List.flatMap_cons]
    have hrest := ih fun h => hclear (List.mem_cons_of_mem op h)
    by_cases hop : op = .clearSharedMemory
    · have hall := hclear (hop ▸ List.mem_cons_self)
      subst hop
      simpa [code, clear, store, Guarded, hall] using hrest
    · rcases code_cases (ρ := ρ) hop with hc | hc | ⟨f, hc⟩
      · rwa [hc]
      · rw [hc]
        exact ⟨fun _ s _ => hconn s, hrest⟩
      · rw [hc]
        exact ⟨rfl, nofun, rfl, hrest⟩

end Op

/-! ## The clients -/

namespace Client

/-- A load reads the published values, and leaves the segment and the calls that have returned. -/
structure Loads (f : Shared → Client → Shared × Client) : Prop where
  reads : ∀ s s' x, s.SameValues s' → f s' x = (s', (f s x).2)
  returned : ∀ s x, (f s x).2.returned = x.returned

theorem Loads.load {g : Shared → Client → Client} (hg : ∀ s s' x, s.SameValues s' → g s' x = g s x)
    (hr : ∀ s x, (g s x).returned = x.returned) : Loads (load g) :=
  ⟨fun s s' x h => by rw [Client.load, Client.load, hg s s' x h], hr⟩

theorem returned_loads {fs : List (Shared → Client → Shared × Client)} (h : ∀ f ∈ fs, Loads f) (s : Shared) (x : Client) :
    (fs.foldl (fun x f => (f s x).2) x).returned = x.returned := by
  induction fs generalizing x with
  | nil => rfl
  | cons f fs ih =>
    rw [List.foldl_cons, ih (fun g hg => h g (List.mem_cons_of_mem f hg)), (h f List.mem_cons_self).returned]

/-- How a call is made: it returns at once, or loads values under the mutex and returns, with what `answer` says of the segment. -/
def Made (c : Call) (answer : Shared → Answer) (code : List (Stmt Shared Client)) : Prop :=
  (∃ a, code = [ret c a] ∧ ∀ s x, a s x = answer s) ∨
    ∃ (fs : List (Shared → Client → Shared × Client)) (a : Shared → Client → Answer),
      code = .lock :: (fs.map .exec ++ [.unlock, ret c a]) ∧ (∀ f ∈ fs, Loads f) ∧
        ∀ s s' x, a s' (fs.foldl (fun x f => (f s x).2) x) = answer s

theorem get_of_lt {ptr : Bool} {ch : Int} (h : ptr = true ∧ ch < 2) (c : Call) (array : Shared → Fin 2 → Int) :
    get c array ptr ch =
      [.lock, .exec (load fun s x => { x with value := element (array s) ch }), .unlock, ret c fun _ x => .float x.value] := by
  have hnot : ¬ (ch ≥ 2 ∨ ptr = false) := by
    rintro (hch | hptr)
    · omega
    · rw [h.1] at hptr
      cases hptr
  exact if_neg hnot

theorem get_of_not {ptr : Bool} {ch : Int} (h : ¬ (ptr = true ∧ ch < 2)) (c : Call) (array : Shared → Fin 2 → Int) :
    get c array ptr ch = [ret c fun _ _ => .float (some (-1000))] := by
  have hor : ch ≥ 2 ∨ ptr = false := by
    by_contra hnot
    rw [not_or, Int.not_le, Bool.not_eq_false] at hnot
    exact h hnot.symm
  exact if_pos hor

theorem made_get {c : Call} {array : Shared → Fin 2 → Int} (harray : ∀ s s', s.SameValues s' → array s' = array s) (ptr : Bool)
    (ch : Int) : Made c (fun s => .float (Shared.asked (array s) ptr ch)) (get c array ptr ch) := by
  by_cases h : ptr = true ∧ ch < 2
  · refine Or.inr ⟨[load fun s x => { x with value := element (array s) ch }], fun _ x => .float x.value, get_of_lt h c array, ?_,
      fun s s' x => congrArg Answer.float (Shared.asked_of_lt h _).symm⟩
    intro f hf
    cases List.mem_singleton.mp hf
    exact .load (fun s s' x hs => by rw [harray s s' hs]) fun _ _ => rfl
  · exact Or.inl ⟨_, get_of_not h c array, fun s x => congrArg Answer.float (Shared.asked_of_not h _).symm⟩

theorem made_call (c : Call) : Made c (Call.answer · c) (call c) := by
  cases c with
  | isConnected ptr => cases ptr <;> exact Or.inl ⟨_, rfl, fun _ _ => rfl⟩
  | getVoltage ptr ch => exact made_get (fun _ _ h => h.1) ptr ch
  | getCurrent ptr ch => exact made_get (fun _ _ h => h.2) ptr ch
  | getVoltages ptr v1 v2 =>
    cases ptr with
    | false => exact Or.inl ⟨_, rfl, fun _ _ => rfl⟩
    | true =>
      refine Or.inr ⟨loads v1 v2, _, rfl, ?_, ?_⟩
      · have h1 : Loads (load fun s c => { c with v1 := s.voltage ⟨0, Nat.zero_lt_two⟩ }) :=
          .load (fun s s' x h => by rw [h.1]) fun _ _ => rfl
        have h2 : Loads (load fun s c => { c with v2 := s.voltage ⟨1, Nat.one_lt_two⟩ }) :=
          .load (fun s s' x h => by rw [h.1]) fun _ _ => rfl
        have hall : ∀ f ∈ loads true true, Loads f := List.forall_mem_cons.mpr ⟨h1, List.forall_mem_singleton.mpr h2⟩
        intro f hf
        refine hall f ?_
        rcases List.mem_append.mp hf with hf | hf
        · split at hf
          · exact List.mem_append_left _ hf
          · cases hf
        · split at hf
          · exact List.mem_append_right _ hf
          · cases hf
      · intro s s' x
        cases v1 <;> cases v2 <;> rfl

/-- Calls only read. -/
theorem reads_calls (cs : List Call) : Reads (cs.flatMap call) := by
  intro f hf
  obtain ⟨c, -, hc⟩ := List.mem_flatMap.mp hf
  rcases made_call c with ⟨a, he, -⟩ | ⟨fs, a, he, hfs, -⟩
  · rw [he] at hc
    cases List.mem_singleton.mp hc
    exact fun _ _ => rfl
  · simp only [he, List.mem_cons, List.mem_append, List.mem_map, reduceCtorEq, false_or, List.not_mem_nil, or_false] at hc
    rcases hc with ⟨g, hg, he⟩ | he
    · cases he
      exact fun s r => by rw [(hfs f hg).reads s s r (.refl s)]
    · cases he
      exact fun _ _ => rfl

/-- A call gives back its section. -/
theorem guarded {R : Shared → Shared → Prop} (hrefl : ∀ s, R s s) (cs : List Call) : Guarded R false (cs.flatMap call) := by
  induction cs with
  | nil => rfl
  | cons c cs ih =>
    have hret : ∀ a, Guarded R false (ret c a :: cs.flatMap call) := fun a => ⟨fun _ s _ => hrefl s, ih⟩
    rw [List.flatMap_cons]
    rcases made_call c with ⟨a, he, -⟩ | ⟨fs, a, he, -, -⟩
    · rw [he]
      exact hret a
    · rw [he]
      rw [List.cons_append, List.append_assoc]
      exact ⟨rfl, .execs fs ⟨rfl, hret a⟩⟩

end Client

end PowerMonitor
