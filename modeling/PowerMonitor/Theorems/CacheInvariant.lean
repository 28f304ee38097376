import PowerMonitor.Theorems.CacheReplacement

/-!
# What the slots hold

Whatever the addresses, after any run no page but 0xFFFF is in two slots, a clean slot with a page of the token holds what the
flash holds there, and the age of a filled slot counts the calls of `ExtCache_Fill` since the one that last returned it. A page
outside the token takes a slot too, with the bytes of the page that was there before; an empty slot holds page 0xFFFF, as does the
slot that a read of page 0xFFFF takes.
-/

namespace PowerMonitor

namespace EE

/-- Page 0xFFFF apart, no page is in two slots. -/
def Distinct (s : EE) : Prop :=
  ∀ i j, i < s.numPages → j < s.numPages → (s.slot i).page = (s.slot j).page → (s.slot i).page ≠ 0xFFFF → i = j

/-- A clean slot with a page of the token holds the first 512 bytes of that page in flash. -/
def Mirrors (s : EE) : Prop :=
  ∀ i, i < s.numPages → (s.slot i).page < s.token.size → (s.slot i).dirty = false →
    ∀ k, k < 512 → (s.slot i).buf k = s.spi.chip.dev.pages (s.token.firstPage + (s.slot i).page) k

/-- The clean lines of the abstract cache are the clean slots with a page of the token. -/
theorem Wf.mirrors {s : EE} (h : s.Wf) : s.Mirrors := by
  intro i hi hp hd k hk
  exact congrFun (h.coherent.clean i _ (abs_line hi hp) hd) ⟨k, hk⟩

/-- The same pages in the same slots. -/
theorem Distinct.of_sameMarks {s s' : EE} (h : s.Distinct) (hm : SameMarks s s') : s'.Distinct := by
  obtain ⟨hn, hm⟩ := hm
  intro i j hi hj hp hne
  rw [hn] at hi hj
  rw [(hm i hi).1, (hm j hj).1] at hp
  rw [(hm i hi).1] at hne
  exact h i j hi hj hp hne

/-- `ExtCache_Fill` returns the only slot that may hold the page. -/
theorem Distinct.fill_unique {s t : EE} (h : s.Runs) (hd : s.Distinct) {p i : Nat} (hf : s.fill p = some (i, t)) (hp : p ≠ 0xFFFF)
    {j : Nat} (hj : j < s.numPages) (hpj : (s.slot j).page = p) : j = i := by
  obtain ⟨hi, -⟩ := fill_marks h hf
  by_cases hm : s.Misses p
  · exact absurd hpj ((misses_iff s p).mp hm j hj)
  · have hpi := fill_hit h hf hm
    exact hd j i hj hi (hpj.trans hpi.symm) (hpj ▸ hp)

end EE

namespace Watched

open EE

/-- The representation invariant: distinct pages, clean slots that mirror the flash, and ages that count. -/
structure Represents (w : Watched) : Prop where
  distinct : w.cache.Distinct
  mirrors : w.cache.Mirrors
  age : ∀ i, i < w.cache.numPages → w.past.filled i = true →
    (w.cache.slot i).count = min 32767 (w.past.time - w.past.last i)

/-- Step lemma. -/
theorem distinct_run {w w' : Watched} (h : w.cache.Runs) (hd : w.cache.Distinct) {op : EEOp} (he : w.run op = some w') :
    w'.cache.Distinct := by
  cases hp : op.page with
  | none => exact hd.of_sameMarks (run_quiet h hp he).2
  | some p =>
    obtain ⟨i, t, hf, -, -, hn, hpi, -, hother⟩ := run_access h hp he
    intro a b ha hb hab hne
    rw [hn] at ha hb
    by_cases hai : a = i
    · by_cases hbi : b = i
      · exact hai.trans hbi.symm
      · -- the slot returned and another one
        rw [hai, hpi] at hne
        rw [hai, hpi, (hother b hbi hb).1] at hab
        exact absurd (hd.fill_unique h hf hne hb hab.symm) hbi
    · rw [(hother a hai ha).1] at hab hne
      by_cases hbi : b = i
      · rw [hbi, hpi] at hab
        exact absurd (hd.fill_unique h hf (hab ▸ hne) ha hab) hai
      · rw [(hother b hbi hb).1] at hab
        exact hd a b ha hb hab hne

/-- Run lemma. -/
theorem runAll_counts (ops : List EEOp) : ∀ {w : Watched}, w.Counts → w.cache.Distinct →
    ∃ v, runAll ops w = some v ∧ EEOp.runAll ops w.cache = some v.cache ∧ v.Counts ∧ v.cache.Distinct := by
  induction ops with
  | nil => exact fun h hd => ⟨_, rfl, rfl, h, hd⟩
  | cons op ops ih =>
    intro w h hd
    obtain ⟨u, he, hc, -⟩ := run_some h.runs op
    obtain ⟨v, hv, hcv, hcount, hdist⟩ := ih (h.run he) (distinct_run h.runs hd he)
    refine ⟨v, ?_, ?_, hcount, hdist⟩
    · simp only [runAll, he, Option.bind_some, hv]
    · simp only [EEOp.runAll, hc, Option.bind_some, hcv]

/-- Nothing has been filled, and every slot holds page 0xFFFF. -/
theorem init_counts (tk : DFToken) {n : Nat} (hn : 1 ≤ n) {spi : Spi} (hi : spi.Idle) :
    (init tk n spi).Counts ∧ (init tk n spi).cache.Distinct := by
  have h := init_recalls tk hn hi
  refine ⟨h.counts, fun i j hi _ _ hne => ?_⟩
  exact absurd (h.empty i hi rfl).2 hne

end Watched

/-- After any run of the cache, with any addresses, no page but 0xFFFF is in two slots, every clean slot with a page of the token
has the first 512 bytes of that page, and the age of every filled slot is the number of calls of `ExtCache_Fill` since it was last
returned, up to 32767. -/
theorem cache_represents (tk : DFToken) (hf : tk.firstPage + tk.size ≤ 8192) (n : Nat) (hn : 1 ≤ n) (spi : Spi) (hi : spi.Idle)
    (ops : List EEOp) :
    ∃ w, Watched.runAll ops (.init tk n spi) = some w ∧ EEOp.runAll ops (.init tk n spi) = some w.cache ∧
      w.cache.token = tk ∧ w.cache.numPages = n ∧ w.Represents := by
  obtain ⟨hcount, hdist⟩ := Watched.init_counts tk hn hi
  obtain ⟨w, hw, hc, hcw, hdw⟩ := Watched.runAll_counts ops hcount hdist
  obtain ⟨s, hs, hwf, htk, hnum, -⟩ := EEOp.runAll_spec ops (EE.init_wf (show tk.Fits from hf) hn hi).1
  obtain rfl : s = w.cache := Option.some.inj (hs.symm.trans hc)
  refine ⟨w, hw, hc, htk, hnum.trans (EE.init_numPages tk n spi), hdw, hwf.mirrors, fun i hin hfi => ?_⟩
  rw [hcw.age i hin hfi, Nat.min_comm, pageCountMax]

/-- Two slots and three pages: a page of the token, one outside it and page 0xFFFF. The address 2^25 + 600 is cut to the first
of them. -/
theorem cache_represents_three_pages :
    ∃ w, Watched.runAll [.write1 600 7, .read1 9000, .read1 0x1FFFFFF, .write1 0xFFFFFFFF 1, .read1 0x2000258, .cacheFlush]
        (.init ⟨3, 4⟩ 2 (Spi.reset ⟨fun _ _ => 0xFF, fun _ _ => 0, []⟩ 5 [2, 0] 0x25 [])) = some w ∧
      EEOp.runAll [.write1 600 7, .read1 9000, .read1 0x1FFFFFF, .write1 0xFFFFFFFF 1, .read1 0x2000258, .cacheFlush]
        (.init ⟨3, 4⟩ 2 (Spi.reset ⟨fun _ _ => 0xFF, fun _ _ => 0, []⟩ 5 [2, 0] 0x25 [])) = some w.cache ∧
      w.cache.token = ⟨3, 4⟩ ∧ w.cache.numPages = 2 ∧ w.Represents :=
  cache_represents ⟨3, 4⟩ (by decide) 2 (by decide) _ (DataFlashAux.reset_idle _ _ _ _ _) _

end PowerMonitor
