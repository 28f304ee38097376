import PowerMonitor.Lemmas.Programs

/-!
# No needless flash programming

A page of the token is programmed at most as often as a write has changed one of its bytes: what the slots owe a page is paid by
its programs, and only such a write adds to it. The slots of a fresh cache are all dirty, but owe nothing.
-/

namespace PowerMonitor

namespace EEOp

open EE

/-- The writes of a run that changed the value of a byte of page `p`. -/
def changesAll (p : Nat) : List EEOp → EE → Nat
  | [], _ => 0
  | op :: ops, s =>
    op.changes p s +
      match op.run s with
      | some s' => changesAll p ops s'
      | none => 0

/-- A run programs pages of the token only, and adds to what is owed at most what it changes. -/
theorem runAll_programs (ops : List EEOp) : ∀ {s : EE}, s.Wf →
    ∃ s' new, runAll ops s = some s' ∧ Programmed s s' new ∧
      (∀ w ∈ new, ∃ q, q < s.token.size ∧ w.1 = s.token.firstPage + q) ∧
      ∀ p, p < s.token.size → programsOf new (s.token.firstPage + p) + s'.pending p ≤ s.pending p + changesAll p ops s := by
  induction ops with
  | nil =>
    intro s _
    exact ⟨s, [], rfl, .of_eq rfl, fun w hw => absurd hw List.not_mem_nil, fun p _ => by simp⟩
  | cons op ops ih =>
    intro s h
    obtain ⟨t, he, hwf, ht, -⟩ := run_spec op h
    obtain ⟨new, hprog, hsaves, hcount⟩ := run_programs op h he
    obtain ⟨s', new', he', hprog', hpages', hcount'⟩ := ih hwf
    rw [ht] at hpages' hcount'
    refine ⟨s', new ++ new', by rw [runAll, he, Option.bind_some, he'], hprog.trans hprog', ?_, ?_⟩
    · intro w hw
      rcases List.mem_append.mp hw with hw | hw
      · obtain ⟨q, -, hq⟩ := hsaves w hw
        exact ⟨q, hq.lt, hq.page⟩
      · exact hpages' w hw
    · intro p hp
      have h1 := hcount p hp
      have h2 := hcount' p hp
      rw [programsOf_append, changesAll, he]
      dsimp only
      omega

end EEOp

/-- Over any run, whatever its addresses, the chip programs a page of the token at most as often as a write has changed one of its
bytes, no page outside the token at all, and nothing if no write has changed a byte of the token. -/
theorem no_needless_programs (tk : DFToken) (hf : tk.firstPage + tk.size ≤ 8192) (n : Nat) (hn : 1 ≤ n) (spi : Spi)
    (hi : spi.Idle) (ops : List EEOp) :
    ∃ s new, EEOp.runAll ops (EE.init tk n spi) = some s ∧ (EE.init tk n spi).Programmed s new ∧
      (∀ p, p < tk.size → EE.programsOf new (tk.firstPage + p) ≤ EEOp.changesAll p ops (EE.init tk n spi)) ∧
      (∀ w ∈ new, ∃ q, q < tk.size ∧ w.1 = tk.firstPage + q) ∧
      ((∀ p, p < tk.size → EEOp.changesAll p ops (EE.init tk n spi) = 0) → new = []) := by
  obtain ⟨s, new, he, hprog, hpages, hcount⟩ := EEOp.runAll_programs ops (EE.init_wf hf hn hi).1
  have hle : ∀ p, p < tk.size → EE.programsOf new (tk.firstPage + p) ≤ EEOp.changesAll p ops (EE.init tk n spi) := by
    intro p hp
    have := hcount p hp
    rw [EE.pending_init hf n spi hp, Nat.zero_add] at this
    exact Nat.le_of_add_right_le this
  refine ⟨s, new, he, hprog, hle, hpages, fun hz => ?_⟩
  refine List.eq_nil_iff_forall_not_mem.mpr fun w hw => ?_
  obtain ⟨q, hq, hwq⟩ := hpages w hw
  have hnone : EE.programsOf new (tk.firstPage + q) = 0 := Nat.le_zero.mp (hz q hq ▸ hle q hq)
  exact List.countP_eq_zero.mp hnone w hw (decide_eq_true hwq)

/-- Two writes of one value, a page evicted from the only slot, and a flush. -/
theorem no_needless_programs_one_slot :
    let s₀ := EE.init ⟨3, 4⟩ 1 (Spi.reset ⟨fun _ _ => 0xFF, fun _ _ => 0, []⟩ 5 [2, 0] 0x25 [])
    let ops : List EEOp := [.write1 600 7, .write1 600 7, .read1 3, .cacheCheck, .cacheFlush]
    ∃ s new, EEOp.runAll ops s₀ = some s ∧ s₀.Programmed s new ∧
      (∀ p, p < 4 → EE.programsOf new (3 + p) ≤ EEOp.changesAll p ops s₀) ∧
      (∀ w ∈ new, ∃ q, q < 4 ∧ w.1 = 3 + q) ∧ ((∀ p, p < 4 → EEOp.changesAll p ops s₀ = 0) → new = []) :=
  no_needless_programs ⟨3, 4⟩ (by decide) 1 (by decide) _ (DataFlashAux.reset_idle _ _ _ _ _)
    [.write1 600 7, .write1 600 7, .read1 3, .cacheCheck, .cacheFlush]

end PowerMonitor
