import PowerMonitor.Lib.Cells
import PowerMonitor.Theorems.CacheRange

/-!
# What the cache programs

The chip keeps a record of the pages it has programmed; `Programmed` says which ones a step adds. A call programs a page of the
token with what is seen there (`Saves`), and never the page that it accesses: a miss evicts a slot that holds another one.

A dirty slot with a page of the token owes that page a program. `pending` counts what is owed: programming takes off what it
programs, and only a write that changes a byte adds to it.
-/

namespace PowerMonitor

namespace EE

/-- From `s` to `t` the chip has programmed `new`. -/
structure Programmed (s t : EE) (new : List (Nat × Bytes)) : Prop where
  programs : t.spi.chip.dev.programs = s.spi.chip.dev.programs ++ new
  pages : t.spi.chip.dev.pages = Cells.apply new s.spi.chip.dev.pages

/-- A program of page `q` of the token with what is seen there. -/
structure Saves (s : EE) (w : Nat × Bytes) (q : Nat) : Prop where
  lt : q < s.token.size
  page : w.1 = s.token.firstPage + q
  data : cut w.2 = s.abs.view q

/-- The programs of a page of the chip. -/
def programsOf (new : List (Nat × Bytes)) (p : Nat) : Nat := new.countP fun w => w.1 = p

/-- The programs a slot owes a page. -/
def owes (c : EECachePage) (p : Nat) : Nat := if c.dirty = true ∧ c.page = p then 1 else 0

/-- The programs the slots owe a page. -/
def pending (s : EE) (p : Nat) : Nat := s.extCache.countP fun c => c.dirty = true ∧ c.page = p

/-! ## The record -/

theorem Programmed.of_eq {s t : EE} (h : t.spi.chip.dev = s.spi.chip.dev) : Programmed s t [] :=
  ⟨by rw [h, List.append_nil], by rw [h, Cells.apply_nil]⟩

theorem Programmed.trans {s t u : EE} {new new' : List (Nat × Bytes)} (h : Programmed s t new) (h' : Programmed t u new') :
    Programmed s u (new ++ new') :=
  ⟨by rw [h'.programs, h.programs, List.append_assoc], by rw [h'.pages, h.pages, Cells.apply_append]⟩

theorem Saves.of_unseen {s t : EE} (hu : Unseen s t) {w : Nat × Bytes} {q : Nat} (h : Saves t w q) : Saves s w q :=
  ⟨hu.token ▸ h.lt, hu.token ▸ h.page, hu.view ▸ h.data⟩

@[simp] theorem programsOf_nil (p : Nat) : programsOf [] p = 0 := rfl

theorem programsOf_append (new new' : List (Nat × Bytes)) (p : Nat) :
    programsOf (new ++ new') p = programsOf new p + programsOf new' p := List.countP_append

theorem programsOf_singleton (w : Nat × Bytes) (p : Nat) : programsOf [w] p = if w.1 = p then 1 else 0 := by
  simp [programsOf, List.countP_singleton]

/-! ## What is owed -/

theorem owes_clean {c : EECachePage} (h : c.dirty = false) (p : Nat) : owes c p = 0 := by simp [owes, h]

/-- A store to a slot replaces what the slot owes. -/
theorem pending_setSlot (s : EE) {i : Nat} (h : i < s.numPages) (c : EECachePage) (p : Nat) :
    (s.setSlot i c).pending p + owes (s.slot i) p = s.pending p + owes c p := by
  have hi : i < s.extCache.length := h
  have hpos : s.slot i ∈ s.extCache := by
    rw [slot_eq_getElem s h]
    exact List.getElem_mem _
  rw [pending, setSlot, List.countP_set hi, ← slot_eq_getElem s hi, pending, owes, owes]
  simp only [decide_eq_true_eq]
  by_cases hc : (s.slot i).dirty = true ∧ (s.slot i).page = p
  · have : 0 < s.extCache.countP fun c => c.dirty = true ∧ c.page = p :=
      List.countP_pos_iff.mpr ⟨s.slot i, hpos, by simpa using hc⟩
    simp only [hc, and_self, if_true]
    omega
  · simp only [hc, if_false]
    omega

@[simp] theorem pending_ageCache (s : EE) (p : Nat) : s.ageCache.pending p = s.pending p := by
  rw [pending, ageCache, List.countP_map, pending]
  refine List.countP_congr fun c _ => ?_
  simp

theorem pending_congr {s t : EE} (h : t.extCache = s.extCache) (p : Nat) : t.pending p = s.pending p := by
  rw [pending, pending, h]

/-- A fresh cache owes the pages of the token nothing, although its slots are dirty. -/
theorem pending_init {tk : DFToken} (hf : tk.Fits) (n : Nat) (spi : Spi) {p : Nat} (hp : p < tk.size) :
    (init tk n spi).pending p = 0 := by
  unfold DFToken.Fits at hf
  refine List.countP_eq_zero.mpr fun c hc => ?_
  obtain rfl : c = .blank := (List.mem_replicate.mp hc).2
  have hne : (0xFFFF : Nat) ≠ p := by omega
  simp [EECachePage.blank, hne]

/-! ## Write-backs -/

/-- The device after a write-back of slot `k`: one program of the slot's page with what is seen there if the slot is dirty and
holds a page of the token, and otherwise none. -/
theorem evicted_programs {s t : EE} (h : s.Wf) {k : Nat} (hk : k < s.numPages) (hd : t.spi.chip.dev = s.evicted k) :
    ∃ new, Programmed s t new ∧ (∀ w ∈ new, Saves s w (s.slot k).page) ∧
      ∀ p, p < s.token.size → programsOf new (s.token.firstPage + p) = owes (s.slot k) p := by
  by_cases hc : (s.slot k).dirty = true ∧ (s.slot k).page < s.token.size
  · rw [evicted, if_pos hc] at hd
    obtain ⟨d, hload⟩ : ∃ d, d = s.spi.chip.dev.load .buffer2 0 eePageSize (s.slot k).buf := ⟨_, rfl⟩
    refine ⟨[(s.token.firstPage + (s.slot k).page, d.buf .buffer2)], ⟨?_, ?_⟩, ?_, ?_⟩
    · rw [hd, hload]
      rfl
    · rw [hd, hload]
      rfl
    · intro w hw
      obtain rfl := List.mem_singleton.mp hw
      refine ⟨hc.2, rfl, ?_⟩
      rw [view_slot h hk hc.2]
      funext j
      have hj : ¬eePageSize ≤ (j : Nat) := Nat.not_le_of_lt j.isLt
      simp [cut, hload, Device.load, hj]
    · intro p _
      rw [programsOf_singleton, owes]
      refine if_congr ?_ rfl rfl
      simp [hc.1]
  · rw [evicted, if_neg hc] at hd
    refine ⟨[], .of_eq hd, fun w hw => absurd hw List.not_mem_nil, fun p hp => ?_⟩
    rw [programsOf_nil, owes, if_neg]
    rintro ⟨h1, rfl⟩
    exact hc ⟨h1, hp⟩

/-- `ExtCache_Fill` programs what it takes off, and not the page it is called for. -/
theorem fill_programs {s t : EE} (h : s.Wf) {page i : Nat} (he : s.fill page = some (i, t)) :
    ∃ new, Programmed s t new ∧ (∀ w ∈ new, ∃ q, q ≠ page ∧ Saves s w q) ∧
      ∀ p, p < s.token.size → programsOf new (s.token.firstPage + p) + t.pending p = s.pending p := by
  rcases fill_cases h page with ⟨k, hk, -, -, he'⟩ | ⟨k, s', hk, hn, -, he', hr⟩
  · rw [he, Option.some.injEq, Prod.mk.injEq] at he'
    obtain ⟨rfl, rfl⟩ := he'
    refine ⟨[], .of_eq rfl, fun w hw => absurd hw List.not_mem_nil, fun p _ => ?_⟩
    have hset := pending_setSlot s.ageCache (i := i) (by simpa using hk) { age (s.slot i) with count := 0 } p
    rw [ageCache_slot s hk, pending_ageCache] at hset
    have howes : owes (age (s.slot i)) p = owes { age (s.slot i) with count := 0 } p := rfl
    rw [programsOf_nil]
    omega
  · rw [he, Option.some.injEq, Prod.mk.injEq] at he'
    obtain ⟨rfl, rfl⟩ := he'
    obtain ⟨new, hprog, hsaves, hcount⟩ := evicted_programs h hk hr.dev
    refine ⟨new, hprog, fun w hw => ⟨_, hn i hk, hsaves w hw⟩, fun p hp => ?_⟩
    have hset := pending_setSlot s.ageCache (i := i) (by simpa using hk) (s.fresh page i) p
    have howes : owes (age (s.slot i)) p = owes (s.slot i) p := by simp [owes]
    rw [ageCache_slot s hk, pending_ageCache, howes, owes_clean (c := s.fresh page i) rfl] at hset
    rw [hcount p hp, pending_congr hr.slots]
    omega

/-- `EE_Cache_Check` programs what it takes off. -/
theorem cacheCheck_programs {s t : EE} (h : s.Wf) {r : Nat} (he : s.cacheCheck = some (r, t)) :
    ∃ new, Programmed s t new ∧ (∀ w ∈ new, ∃ q, Saves s w q) ∧
      ∀ p, p < s.token.size → programsOf new (s.token.firstPage + p) + t.pending p = s.pending p := by
  rcases cacheCheck_cases h with ⟨-, he'⟩ | ⟨i, s', hi, -, -, he', hr⟩
  · rw [he, Option.some.injEq, Prod.mk.injEq] at he'
    obtain ⟨-, rfl⟩ := he'
    exact ⟨[], .of_eq rfl, fun w hw => absurd hw List.not_mem_nil, fun p _ => by rw [programsOf_nil, Nat.zero_add]⟩
  · rw [he, Option.some.injEq, Prod.mk.injEq] at he'
    obtain ⟨-, rfl⟩ := he'
    obtain ⟨new, hprog, hsaves, hcount⟩ := evicted_programs h hi hr.dev
    refine ⟨new, hprog, fun w hw => ⟨_, hsaves w hw⟩, fun p hp => ?_⟩
    have hset := pending_setSlot s hi { s.slot i with dirty := false } p
    rw [owes_clean (c := { s.slot i with dirty := false }) rfl] at hset
    rw [hcount p hp, pending_congr hr.slots]
    omega

/-- `EE_Cache_Flush` programs what it takes off. -/
theorem flushLoop_programs (fuel : Nat) : ∀ {s t : EE}, s.Wf → flushLoop fuel s = some t →
    ∃ new, Programmed s t new ∧ (∀ w ∈ new, ∃ q, Saves s w q) ∧
      ∀ p, p < s.token.size → programsOf new (s.token.firstPage + p) + t.pending p = s.pending p := by
  induction fuel with
  | zero =>
    intro s t _ he
    cases he
  | succ fuel ih =>
    intro s t h he
    obtain ⟨r, u, hc, hu⟩ := cacheCheck_spec h
    obtain ⟨new, hprog, hsaves, hcount⟩ := cacheCheck_programs h hc
    simp only [flushLoop, hc, Option.bind_eq_bind, Option.bind_some] at he
    split at he
    · obtain ⟨new', hprog', hsaves', hcount'⟩ := ih hu.wf he
      refine ⟨new ++ new', hprog.trans hprog', fun w hw => ?_, fun p hp => ?_⟩
      · rcases List.mem_append.mp hw with hw | hw
        · exact hsaves w hw
        · obtain ⟨q, hq⟩ := hsaves' w hw
          exact ⟨q, hq.of_unseen hu⟩
      · have h1 := hcount p hp
        have h2 := hcount' p (by rw [hu.token]; exact hp)
        rw [hu.token] at h2
        rw [programsOf_append]
        omega
    · cases he
      exact ⟨new, hprog, hsaves, hcount⟩

end EE

/-- 1 if the call is a write that changes the value of a byte of page `p`. -/
def EEOp.changes (p : Nat) (s : EE) : EEOp → Nat
  | .write1 a d =>
    match s.read1 a with
    | some (v, _) => if EE.pageOf a = p ∧ v ≠ d then 1 else 0
    | none => 0
  | _ => 0

namespace EEOp

open EE

/-- A call programs pages with what is seen there, a write not the page it writes to, and adds to what is owed at most what it
changes. -/
theorem run_programs (op : EEOp) {s s' : EE} (h : s.Wf) (he : op.run s = some s') :
    ∃ new, Programmed s s' new ∧ (∀ w ∈ new, ∃ q, (∀ a d, op = .write1 a d → q ≠ pageOf a) ∧ Saves s w q) ∧
      ∀ p, p < s.token.size → programsOf new (s.token.firstPage + p) + s'.pending p ≤ s.pending p + op.changes p s := by
  cases op with
  | read1 a =>
    obtain ⟨i, t, hf, -, -, -⟩ := fill_spec h (pageOf a)
    obtain ⟨new, hprog, hsaves, hcount⟩ := fill_programs h hf
    simp only [run, EE.read1, hf, Option.bind_eq_bind, Option.bind_some, Option.map_some, Option.some.injEq] at he
    obtain rfl := he
    refine ⟨new, hprog, fun w hw => ?_, fun p hp => Nat.le_of_eq (hcount p hp)⟩
    obtain ⟨q, -, hq⟩ := hsaves w hw
    exact ⟨q, by rintro a d ⟨⟩, hq⟩
  | write1 a d =>
    obtain ⟨i, t, hf, hu, hi, hpage, hcase⟩ := write1_cases h a d
    obtain ⟨new, hprog, hsaves, hcount⟩ := fill_programs h hf
    have hsaves' : ∀ w ∈ new, ∃ q, (∀ b e, EEOp.write1 a d = .write1 b e → q ≠ pageOf b) ∧ Saves s w q := by
      intro w hw
      obtain ⟨q, hne, hq⟩ := hsaves w hw
      refine ⟨q, ?_, hq⟩
      rintro b e hbe
      cases hbe
      exact hne
    rcases hcase with ⟨-, hw⟩ | ⟨hd, hw⟩
    · obtain rfl : t = s' := Option.some.inj (hw.symm.trans he)
      exact ⟨new, hprog, hsaves', fun p hp => Nat.le_add_right_of_le (Nat.le_of_eq (hcount p hp))⟩
    · obtain rfl : t.setSlot i (written (t.slot i) a d) = s' := Option.some.inj (hw.symm.trans he)
      refine ⟨new, ⟨hprog.programs, hprog.pages⟩, hsaves', fun p hp => ?_⟩
      have hset := pending_setSlot t hi (written (t.slot i) a d) p
      have hchange : (EEOp.write1 a d).changes p s = owes (written (t.slot i) a d) p := by
        simp [changes, EE.read1, hf, owes, written, hpage, hd]
      have := hcount p hp
      omega
  | cacheCheck =>
    obtain ⟨r, t, hc, -⟩ := cacheCheck_spec h
    obtain ⟨new, hprog, hsaves, hcount⟩ := cacheCheck_programs h hc
    simp only [run, hc, Option.map_some, Option.some.injEq] at he
    obtain rfl := he
    refine ⟨new, hprog, fun w hw => ?_, fun p hp => Nat.le_of_eq (hcount p hp)⟩
    obtain ⟨q, hq⟩ := hsaves w hw
    exact ⟨q, by rintro a d ⟨⟩, hq⟩
  | cacheFlush =>
    obtain ⟨new, hprog, hsaves, hcount⟩ := flushLoop_programs _ h he
    refine ⟨new, hprog, fun w hw => ?_, fun p hp => Nat.le_of_eq (hcount p hp)⟩
    obtain ⟨q, hq⟩ := hsaves w hw
    exact ⟨q, by rintro a d ⟨⟩, hq⟩

end EEOp

end PowerMonitor
