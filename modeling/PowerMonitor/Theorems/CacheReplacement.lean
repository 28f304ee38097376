import PowerMonitor.Theorems.PageCache

/-!
# Which slot is replaced

`ExtCache_Fill` tells how long ago a slot was accessed by its age, and an empty slot by the age and the page number that
`memset` left in it. Ages stop at 32767 and a tie goes to the lower index, and page 0xFFFF is found in an empty slot. As long as
no two slots tie at the largest age and page 0xFFFF is left alone while there are empty slots, the slot replaced is an empty
one, or else the one whose last access lies furthest back.
-/

namespace PowerMonitor

namespace EE

/-- The accesses so far: how many there were, which of them was the last one of each slot, and which slots have been filled. -/
structure Past where
  time : Nat
  last : Nat → Nat
  filled : Nat → Bool

namespace Past

/-- Nothing has been accessed. -/
def none : Past := { time := 0, last := fun _ => 0, filled := fun _ => false }

/-- One more access, to slot `i`; after a miss the slot is filled. -/
def access (h : Past) (i : Nat) (missed : Bool) : Past where
  time := h.time + 1
  last := Function.update h.last i (h.time + 1)
  filled := if missed then Function.update h.filled i true else h.filled

/-- Of `n` slots, `k` is one that has never been filled, or else the one whose last access lies furthest back. -/
def Least (h : Past) (n k : Nat) : Prop :=
  ((∃ j, j < n ∧ h.filled j = false) → h.filled k = false) ∧
    ((∀ j, j < n → h.filled j = true) → ∀ j, j < n → h.last k ≤ h.last j)

/-- A filled slot without an access for so long that its age stops at the next one. -/
def Stale (h : Past) (i : Nat) : Prop := h.filled i = true ∧ pageCountMax ≤ h.time + 1 - h.last i

end Past

/-- No slot holds the page. -/
def Misses (s : EE) (page : Nat) : Prop := ∀ c ∈ s.extCache, c.page ≠ page

instance (s : EE) (page : Nat) : Decidable (s.Misses page) := inferInstanceAs (Decidable (∀ c ∈ s.extCache, c.page ≠ page))

end EE

/-- The page a call passes to `ExtCache_Fill`. -/
def EEOp.page : EEOp → Option Nat
  | .read1 a => some (EE.pageOf a)
  | .write1 a _ => some (EE.pageOf a)
  | .cacheCheck => none
  | .cacheFlush => none

/-- A cache and the accesses it has seen. -/
structure Watched where
  cache : EE
  past : EE.Past

namespace Watched

/-- One call. -/
def run (op : EEOp) (w : Watched) : Option Watched := do
  let s ← op.run w.cache
  match op.page with
  | none => some { w with cache := s }
  | some p => do
    let (i, _) ← w.cache.fill p
    some { cache := s, past := w.past.access i (decide (w.cache.Misses p)) }

/-- A run. -/
def runAll : List EEOp → Watched → Option Watched
  | [], w => some w
  | op :: ops, w => (w.run op).bind (runAll ops)

/-- `EE_Init`. -/
def init (tk : DFToken) (n : Nat) (spi : Spi) : Watched := { cache := .init tk n spi, past := .none }

/-- If the call misses, it replaces the slot that is the least recently used. -/
def ReplacesLeast (w : Watched) (op : EEOp) : Prop :=
  ∀ p, op.page = some p → w.cache.Misses p →
    ∃ k s', w.cache.fill p = some (k, s') ∧ k < w.cache.numPages ∧ w.past.Least w.cache.numPages k

/-- Page 0xFFFF is accessed only with every slot filled, and a call misses only while a slot whose age has stopped is the only
one, with every slot filled. -/
def Apart (w : Watched) (op : EEOp) : Prop :=
  ∀ p, op.page = some p →
    (p = 0xFFFF → ∀ j, j < w.cache.numPages → w.past.filled j = true) ∧
      (w.cache.Misses p → ∀ i j, i < w.cache.numPages → j < w.cache.numPages → i ≠ j → w.past.Stale i →
        w.past.filled j = true ∧ ¬ w.past.Stale j)

/-- The age of a filled slot counts the accesses since its last one. -/
structure Counts (w : Watched) : Prop where
  runs : w.cache.Runs
  age : ∀ i, i < w.cache.numPages → w.past.filled i = true →
    (w.cache.slot i).count = min (w.past.time - w.past.last i) pageCountMax
  seen : ∀ i, i < w.cache.numPages → w.past.filled i = true → w.past.last i ≤ w.past.time

/-- What the ages say of the accesses. -/
structure Recalls (w : Watched) : Prop where
  runs : w.cache.Runs
  age : ∀ i, i < w.cache.numPages → w.past.filled i = true →
    (w.cache.slot i).count = min (w.past.time - w.past.last i) pageCountMax
  seen : ∀ i, i < w.cache.numPages → w.past.filled i = true → w.past.last i ≤ w.past.time
  empty : ∀ i, i < w.cache.numPages → w.past.filled i = false →
    (w.cache.slot i).count = pageCountMax ∧ (w.cache.slot i).page = 0xFFFF

end Watched

namespace EE

/-! ## Ages and pages of the slots -/

/-- The slots have the same pages and ages. -/
def SameMarks (s s' : EE) : Prop :=
  s'.numPages = s.numPages ∧ ∀ j, j < s.numPages → (s'.slot j).page = (s.slot j).page ∧ (s'.slot j).count = (s.slot j).count

theorem SameMarks.trans {s s' s'' : EE} (h : SameMarks s s') (h' : SameMarks s' s'') : SameMarks s s'' := by
  refine ⟨h'.1.trans h.1, fun j hj => ?_⟩
  obtain ⟨hp, hc⟩ := h.2 j hj
  obtain ⟨hp', hc'⟩ := h'.2 j (by rw [h.1]; exact hj)
  exact ⟨hp'.trans hp, hc'.trans hc⟩

/-- A store that keeps the page and the age of its slot. -/
theorem setSlot_sameMarks (s : EE) {i : Nat} (hi : i < s.numPages) {c : EECachePage} (hp : c.page = (s.slot i).page)
    (hc : c.count = (s.slot i).count) : SameMarks s (s.setSlot i c) := by
  refine ⟨setSlot_numPages s i c, fun j _ => ?_⟩
  by_cases hj : j = i
  · subst hj
    rw [setSlot_slot_self s hi]
    exact ⟨hp, hc⟩
  · rw [setSlot_slot_of_ne s hj]
    exact ⟨rfl, rfl⟩

theorem SameMarks.congr {s t s' : EE} (h : SameMarks s t) (hs : s'.extCache = t.extCache) : SameMarks s s' := by
  obtain ⟨hn, hslot⟩ := slots_congr hs
  refine ⟨hn.trans h.1, fun j hj => ?_⟩
  rw [hslot]
  exact h.2 j hj

theorem SameMarks.runs {s s' : EE} (hm : SameMarks s s') (h : s.Runs) (hi : s'.spi.Idle) : s'.Runs :=
  ⟨by rw [hm.1]; exact h.pos, hi⟩

theorem cacheCheck_marks {s : EE} (h : s.Runs) : ∃ r s', s.cacheCheck = some (r, s') ∧ s'.Runs ∧ SameMarks s s' := by
  rcases cacheCheck_returns h with ⟨-, he⟩ | ⟨i, t, hi, -, he, hidle, hs⟩
  · exact ⟨0, s, he, h, rfl, fun _ _ => ⟨rfl, rfl⟩⟩
  · have hm := (setSlot_sameMarks s hi (c := { s.slot i with dirty := false }) rfl rfl).congr hs
    exact ⟨1, t, he, hm.runs h hidle, hm⟩

/-- Each check leaves one dirty slot fewer. -/
theorem flushLoop_marks (n : Nat) : ∀ {s : EE}, s.Runs → s.dirtyCount = n → ∀ fuel, n < fuel →
    ∃ s', flushLoop fuel s = some s' ∧ s'.Runs ∧ SameMarks s s' := by
  induction n with
  | zero =>
    intro s h hn fuel hf
    obtain ⟨fuel, rfl⟩ : ∃ m, fuel = m + 1 := ⟨fuel - 1, by omega⟩
    have hclean := (dirtyCount_eq_zero_iff s).1 hn
    rcases cacheCheck_returns h with ⟨-, he⟩ | ⟨i, t, hi, hd, -⟩
    · exact ⟨s, by simp [flushLoop, he], h, rfl, fun _ _ => ⟨rfl, rfl⟩⟩
    · rw [hclean i hi] at hd
      cases hd
  | succ n ih =>
    intro s h hn fuel hf
    obtain ⟨fuel, rfl⟩ : ∃ m, fuel = m + 1 := ⟨fuel - 1, by omega⟩
    rcases cacheCheck_returns h with ⟨hclean, -⟩ | ⟨i, t, hi, hd, he, hidle, hs⟩
    · rw [(dirtyCount_eq_zero_iff s).2 hclean] at hn
      cases hn
    · have hm := (setSlot_sameMarks s hi (c := { s.slot i with dirty := false }) rfl rfl).congr hs
      have hcount := checked_dirtyCount hi hd hs
      obtain ⟨s', hs', hruns, hm'⟩ := ih (hm.runs h hidle) (by omega) fuel (by omega)
      exact ⟨s', by simp [flushLoop, he, hs'], hruns, hm.trans hm'⟩

/-- `ExtCache_Fill` resets the age of the slot it returns, which then holds the page; every other slot grows older. -/
theorem fill_marks {s : EE} (h : s.Runs) {page i : Nat} {t : EE} (he : s.fill page = some (i, t)) :
    i < s.numPages ∧ t.Runs ∧ t.numPages = s.numPages ∧ (t.slot i).page = page ∧ (t.slot i).count = 0 ∧
      ∀ j, j ≠ i → j < s.numPages → (t.slot j).page = (s.slot j).page ∧ (t.slot j).count = (age (s.slot j)).count := by
  obtain ⟨c, hi, hidle, hs, hp, hc⟩ : ∃ c, i < s.numPages ∧ t.spi.Idle ∧ t.extCache = (s.ageCache.setSlot i c).extCache ∧
      c.page = page ∧ c.count = 0 := by
    rcases fill_returns h page with ⟨k, hk, hp, he'⟩ | ⟨k, s', c, hk, -, -, he', hidle, hs, hp, hc⟩
    · rw [he, Option.some.injEq, Prod.mk.injEq] at he'
      obtain ⟨rfl, rfl⟩ := he'
      exact ⟨_, hk, h.idle, rfl, (age_page _).trans hp, rfl⟩
    · rw [he, Option.some.injEq, Prod.mk.injEq] at he'
      obtain ⟨rfl, rfl⟩ := he'
      exact ⟨c, hk, hidle, hs, hp, hc⟩
  have hi' : i < s.ageCache.numPages := by simpa using hi
  obtain ⟨hn, hslot⟩ := slots_congr hs
  rw [setSlot_numPages, ageCache_numPages] at hn
  refine ⟨hi, ⟨by rw [hn]; exact h.pos, hidle⟩, hn, by rw [hslot, setSlot_slot_self _ hi', hp],
    by rw [hslot, setSlot_slot_self _ hi', hc], fun j hj hjn => ?_⟩
  rw [hslot, setSlot_slot_of_ne _ hj, ageCache_slot s hjn]
  exact ⟨age_page _, rfl⟩

theorem age_count (c : EECachePage) (h : c.count ≤ pageCountMax) : (age c).count = min (c.count + 1) pageCountMax := by
  unfold age
  split
  · rename_i hlt
    exact (Nat.min_eq_left hlt).symm
  · rename_i hge
    rw [Nat.min_eq_right (Nat.le_succ_of_le (Nat.le_of_not_lt hge))]
    exact Nat.le_antisymm h (Nat.le_of_not_lt hge)

/-- An age that counts the accesses since the last one counts one more after the next. -/
theorem age_of_min {c : EECachePage} {time last : Nat} (h : c.count = min (time - last) pageCountMax) (hle : last ≤ time) :
    (age c).count = min (time + 1 - last) pageCountMax := by
  rw [age_count c (h ▸ Nat.min_le_right _ _), h]
  generalize pageCountMax = m
  omega

/-- An age that has stopped stays. -/
theorem age_of_max {c : EECachePage} (h : c.count = pageCountMax) : (age c).count = pageCountMax := by
  rw [age_count c (Nat.le_of_eq h), h, Nat.min_eq_right (Nat.le_succ _)]

/-- The search ends at the first slot of the largest age. -/
theorem scan_largest {page : Nat} {l : List EECachePage} {i o n k : Nat} (h : scan page l i o n = .inr k) :
    (k = o ∧ ∀ c ∈ l, c.count ≤ n) ∨
      ∃ m, ∃ hm : m < l.length, k = i + m ∧ n < (l[m]).count ∧ (∀ c ∈ l, c.count ≤ (l[m]).count) ∧
        ∀ q c, q < m → l[q]? = some c → c.count < (l[m]).count := by
  induction l generalizing i o n with
  | nil =>
    cases h
    exact Or.inl ⟨rfl, fun _ hc => absurd hc List.not_mem_nil⟩
  | cons ptr rest ih =>
    have hall : ∀ {b : Nat}, ptr.count ≤ b → (∀ c ∈ rest, c.count ≤ b) → ∀ c ∈ ptr :: rest, c.count ≤ b := by
      intro b hp hr c hc
      rcases List.mem_cons.mp hc with rfl | hc
      · exact hp
      · exact hr c hc
    rw [scan] at h
    split at h
    · cases h
    · split at h
      · rename_i hgt
        rcases ih h with ⟨rfl, hr⟩ | ⟨m, hm, rfl, hlt, hr, hfirst⟩
        · exact Or.inr ⟨0, by simp, rfl, hgt, hall (Nat.le_refl _) hr, fun q _ hq => absurd hq (Nat.not_lt_zero q)⟩
        · refine Or.inr ⟨m + 1, by simpa using hm, by omega, Nat.lt_trans hgt hlt, hall (Nat.le_of_lt hlt) hr, ?_⟩
          intro q c hq hc
          cases q with
          | zero =>
            obtain rfl := Option.some.inj hc
            exact hlt
          | succ q =>
            rw [List.getElem?_cons_succ] at hc
            exact hfirst q c (Nat.lt_of_succ_lt_succ hq) hc
      · rename_i hle
        have hle := Nat.le_of_not_lt hle
        rcases ih h with ⟨rfl, hr⟩ | ⟨m, hm, rfl, hlt, hr, hfirst⟩
        · exact Or.inl ⟨rfl, hall hle hr⟩
        · refine Or.inr ⟨m + 1, by simpa using hm, by omega, hlt, hall (Nat.le_of_lt (Nat.lt_of_le_of_lt hle hlt)) hr, ?_⟩
          intro q c hq hc
          cases q with
          | zero =>
            obtain rfl := Option.some.inj hc
            exact Nat.lt_of_le_of_lt hle hlt
          | succ q =>
            rw [List.getElem?_cons_succ] at hc
            exact hfirst q c (Nat.lt_of_succ_lt_succ hq) hc

/-- On a miss the slot replaced is the first one of the largest age. -/
theorem fill_oldest {s : EE} (h : s.Runs) {page : Nat} (hm : s.Misses page) :
    ∃ k s', s.fill page = some (k, s') ∧ k < s.numPages ∧
      (∀ j, j < s.numPages → (age (s.slot j)).count ≤ (age (s.slot k)).count) ∧
      ∀ j, j < k → (age (s.slot j)).count < (age (s.slot k)).count := by
  have hcount : ∀ j (hj : j < s.ageCache.extCache.length), (s.ageCache.extCache[j]).count = (age (s.slot j)).count := by
    intro j hj
    have hj' : j < s.numPages := by simpa using (show j < s.ageCache.numPages from hj)
    rw [← slot_eq_getElem _ hj, ageCache_slot s hj']
  have hlen : s.ageCache.extCache.length = s.numPages := ageCache_numPages s
  rcases fill_returns h page with ⟨i, hi, hp, -⟩ | ⟨k, s', -, hk, -, hs, he, -⟩
  · rw [slot_eq_getElem s hi] at hp
    exact absurd hp (hm _ (List.getElem_mem _))
  · refine ⟨k, s', he, hk, ?_⟩
    rcases scan_largest hs with ⟨rfl, hall⟩ | ⟨m, hm', rfl, -, hall, hfirst⟩
    · refine ⟨fun j hj => ?_, fun j hj => absurd hj (Nat.not_lt_zero j)⟩
      rw [← hcount j (by omega), ← ageCache_slot s hk]
      exact hall _ (List.getElem_mem _)
    · rw [Nat.zero_add, ← hcount m hm']
      refine ⟨fun j hj => ?_, fun j hj => ?_⟩
      · rw [← hcount j (by omega)]
        exact hall _ (List.getElem_mem _)
      · have hj' : j < s.ageCache.extCache.length := Nat.lt_trans hj hm'
        rw [← hcount j hj']
        exact hfirst j _ hj (List.getElem?_eq_getElem hj')

/-- Only one slot is the first one of the largest age. -/
theorem fill_first {s t : EE} (h : s.Runs) {page i k : Nat} (hm : s.Misses page) (hf : s.fill page = some (i, t)) (hk : k < s.numPages)
    (hmax : ∀ j, j < s.numPages → (age (s.slot j)).count ≤ (age (s.slot k)).count)
    (hfirst : ∀ j, j < k → (age (s.slot j)).count < (age (s.slot k)).count) : i = k := by
  obtain ⟨i', s', he, hi, hmax', hfirst'⟩ := fill_oldest h hm
  rw [hf, Option.some.injEq, Prod.mk.injEq] at he
  obtain ⟨rfl, -⟩ := he
  rcases Nat.lt_trichotomy i k with hlt | heq | hlt
  · exact absurd (hmax' k hk) (Nat.not_le.mpr (hfirst i hlt))
  · exact heq
  · exact absurd (hmax i hi) (Nat.not_le.mpr (hfirst' k hlt))

theorem misses_iff (s : EE) (page : Nat) : s.Misses page ↔ ∀ j, j < s.numPages → (s.slot j).page ≠ page := by
  constructor
  · intro h j hj
    rw [slot_eq_getElem s hj]
    exact h _ (List.getElem_mem _)
  · intro h c hc
    obtain ⟨j, hj, rfl⟩ := List.getElem_of_mem hc
    rw [← slot_eq_getElem s hj]
    exact h j hj

/-- A hit returns a slot that holds the page. -/
theorem fill_hit {s : EE} (h : s.Runs) {page i : Nat} {t : EE} (he : s.fill page = some (i, t)) (hm : ¬ s.Misses page) :
    (s.slot i).page = page := by
  rcases fill_returns h page with ⟨k, -, hp, he'⟩ | ⟨k, s', -, -, hn, -⟩
  · rw [he, Option.some.injEq, Prod.mk.injEq] at he'
    rw [he'.1]
    exact hp
  · exact absurd ((misses_iff s page).mpr hn) hm

/-- A call always ends. One on a page leaves the pages and ages as `ExtCache_Fill` does; any other leaves them as they are. -/
theorem run_marks {s : EE} (h : s.Runs) (op : EEOp) :
    ∃ s', op.run s = some s' ∧ s'.Runs ∧
      ((op.page = none ∧ SameMarks s s') ∨ ∃ p i t, op.page = some p ∧ s.fill p = some (i, t) ∧ SameMarks t s') := by
  have hfill : ∀ p, ∃ i t, s.fill p = some (i, t) ∧ i < t.numPages ∧ t.Runs := by
    intro p
    obtain ⟨i, t, he⟩ : ∃ i t, s.fill p = some (i, t) := by
      rcases fill_returns h p with ⟨i, -, -, he⟩ | ⟨k, s', -, -, -, -, he, -⟩
      · exact ⟨i, _, he⟩
      · exact ⟨k, s', he⟩
    obtain ⟨hi, hruns, hn, -⟩ := fill_marks h he
    exact ⟨i, t, he, by rw [hn]; exact hi, hruns⟩
  cases op with
  | read1 a =>
    obtain ⟨i, t, hf, -, hruns⟩ := hfill (pageOf a)
    exact ⟨t, by simp [EEOp.run, read1, hf], hruns, Or.inr ⟨pageOf a, i, t, rfl, hf, rfl, fun _ _ => ⟨rfl, rfl⟩⟩⟩
  | write1 a d =>
    obtain ⟨i, t, hf, hi, hruns⟩ := hfill (pageOf a)
    by_cases hd : (t.slot i).buf (offsetOf a) = d
    · exact ⟨t, by simp [EEOp.run, write1, hf, hd], hruns, Or.inr ⟨pageOf a, i, t, rfl, hf, rfl, fun _ _ => ⟨rfl, rfl⟩⟩⟩
    · have hm := setSlot_sameMarks t hi (c := written (t.slot i) a d) rfl rfl
      exact ⟨_, by simp [EEOp.run, write1, hf, hd, written], hm.runs hruns hruns.idle, Or.inr ⟨pageOf a, i, t, rfl, hf, hm⟩⟩
  | cacheCheck =>
    obtain ⟨r, t, hc, hruns, hm⟩ := cacheCheck_marks h
    exact ⟨t, by simp [EEOp.run, hc], hruns, Or.inl ⟨rfl, hm⟩⟩
  | cacheFlush =>
    obtain ⟨t, hc, hruns, hm⟩ := flushLoop_marks s.dirtyCount h rfl (s.numPages + 1) (Nat.lt_succ_of_le (dirtyCount_le s))
    exact ⟨t, hc, hruns, Or.inl ⟨rfl, hm⟩⟩

end EE

namespace Watched

open EE

/-! ## Runs -/

/-- Watching changes nothing, and a call always ends. -/
theorem run_some {w : Watched} (h : w.cache.Runs) (op : EEOp) :
    ∃ w', w.run op = some w' ∧ op.run w.cache = some w'.cache ∧ w'.cache.Runs := by
  obtain ⟨s', he, hruns, ⟨hp, -⟩ | ⟨p, i, t, hp, hf, -⟩⟩ := run_marks h op
  · exact ⟨{ w with cache := s' }, by simp only [run, he, hp, Option.bind_eq_bind, Option.bind_some], he, hruns⟩
  · exact ⟨_, by simp only [run, he, hp, hf, Option.bind_eq_bind, Option.bind_some]; rfl, he, hruns⟩

/-- A call without a page is not an access, and leaves the pages and ages. -/
theorem run_quiet {w w' : Watched} (h : w.cache.Runs) {op : EEOp} (hp : op.page = none) (he : w.run op = some w') :
    w'.past = w.past ∧ SameMarks w.cache w'.cache := by
  obtain ⟨s', hrun, -, ⟨-, hm⟩ | ⟨p, i, t, hp', -⟩⟩ := run_marks h op
  · simp only [run, hrun, hp, Option.bind_eq_bind, Option.bind_some, Option.some.injEq] at he
    rw [← he]
    exact ⟨rfl, hm⟩
  · rw [hp] at hp'
    cases hp'

/-- Any other call is an access to the slot that `ExtCache_Fill` returns, which holds the page afterwards; the others grow
older. -/
theorem run_access {w w' : Watched} (h : w.cache.Runs) {op : EEOp} {p : Nat} (hp : op.page = some p) (he : w.run op = some w') :
    ∃ i t, w.cache.fill p = some (i, t) ∧ i < w.cache.numPages ∧ w'.past = w.past.access i (decide (w.cache.Misses p)) ∧
      w'.cache.numPages = w.cache.numPages ∧ (w'.cache.slot i).page = p ∧ (w'.cache.slot i).count = 0 ∧
      ∀ j, j ≠ i → j < w.cache.numPages →
        (w'.cache.slot j).page = (w.cache.slot j).page ∧ (w'.cache.slot j).count = (age (w.cache.slot j)).count := by
  obtain ⟨s', hrun, -, ⟨hp', -⟩ | ⟨q, i, t, hq, hf, hn, hm⟩⟩ := run_marks h op
  · rw [hp] at hp'
    cases hp'
  · obtain rfl : p = q := Option.some.inj (hp.symm.trans hq)
    obtain ⟨hi, -, hnt, hpi, hci, hother⟩ := fill_marks h hf
    rw [hnt] at hn hm
    simp only [run, hrun, hp, hf, Option.bind_eq_bind, Option.bind_some, Option.some.injEq] at he
    subst he
    refine ⟨i, t, hf, hi, rfl, hn, (hm i hi).1.trans hpi, (hm i hi).2.trans hci, fun j hji hj => ?_⟩
    obtain ⟨hpj, hcj⟩ := hother j hji hj
    exact ⟨(hm j hj).1.trans hpj, (hm j hj).2.trans hcj⟩

/-- An access to another slot. -/
theorem access_of_ne (h : Past) {i j : Nat} (hj : j ≠ i) (missed : Bool) :
    (h.access i missed).filled j = h.filled j ∧ (h.access i missed).last j = h.last j := by
  unfold Past.access
  cases missed <;> simp [hj]

/-- Step lemma. -/
theorem Counts.run {w w' : Watched} (h : w.Counts) {op : EEOp} (he : w.run op = some w') : w'.Counts := by
  obtain ⟨w'', he', -, hruns'⟩ := run_some h.runs op
  obtain rfl : w' = w'' := Option.some.inj (he.symm.trans he')
  cases hp : op.page with
  | none =>
    obtain ⟨hpast, hn, hm⟩ := run_quiet h.runs hp he
    refine ⟨hruns', ?_, ?_⟩ <;> rw [hn, hpast] <;> intro j hj hfj
    · rw [(hm j hj).2]
      exact h.age j hj hfj
    · exact h.seen j hj hfj
  | some p =>
    obtain ⟨i, t, hf, -, hpast, hn, -, hci, hother⟩ := run_access h.runs hp he
    refine ⟨hruns', ?_, ?_⟩ <;> rw [hn, hpast] <;> intro j hj hfj
    · by_cases hji : j = i
      · subst hji
        simp [hci, Past.access]
      · obtain ⟨hfo, hlo⟩ := access_of_ne w.past hji (decide (w.cache.Misses p))
        rw [hfo] at hfj
        rw [(hother j hji hj).2, age_of_min (h.age j hj hfj) (h.seen j hj hfj), hlo, Past.access]
    · by_cases hji : j = i
      · subst hji
        simp [Past.access]
      · obtain ⟨hfo, hlo⟩ := access_of_ne w.past hji (decide (w.cache.Misses p))
        rw [hfo] at hfj
        rw [hlo]
        exact Nat.le_succ_of_le (h.seen j hj hfj)

theorem Recalls.counts {w : Watched} (h : w.Recalls) : w.Counts := ⟨h.runs, h.age, h.seen⟩

/-- Unless page 0xFFFF is found in an empty slot, the slot accessed is a filled one afterwards. -/
theorem access_filled {w : Watched} (h : w.Recalls) {p i : Nat} {t : EE} (hf : w.cache.fill p = some (i, t))
    (hempty : p = 0xFFFF → ∀ j, j < w.cache.numPages → w.past.filled j = true) :
    (w.past.access i (decide (w.cache.Misses p))).filled i = true := by
  obtain ⟨hi, -⟩ := fill_marks h.runs hf
  by_cases hm : w.cache.Misses p
  · simp [Past.access, hm]
  · simp only [Past.access, hm, decide_false, Bool.false_eq_true, if_false]
    cases hfi : w.past.filled i with
    | true => rfl
    | false =>
      have hp : p = 0xFFFF := (fill_hit h.runs hf hm).symm.trans (h.empty i hi hfi).2
      rw [← hfi]
      exact hempty hp i hi

/-- Step lemma. -/
theorem Recalls.run {w w' : Watched} (h : w.Recalls) {op : EEOp} (ha : w.Apart op) (he : w.run op = some w') : w'.Recalls := by
  obtain ⟨hruns', hage', hseen'⟩ := h.counts.run he
  refine ⟨hruns', hage', hseen', ?_⟩
  cases hp : op.page with
  | none =>
    obtain ⟨hpast, hn, hm⟩ := run_quiet h.runs hp he
    intro j hj hfj
    rw [hn] at hj
    rw [hpast] at hfj
    rw [(hm j hj).1, (hm j hj).2]
    exact h.empty j hj hfj
  | some p =>
    obtain ⟨i, t, hf, -, hpast, hn, -, -, hother⟩ := run_access h.runs hp he
    intro j hj hfj
    rw [hn] at hj
    rw [hpast] at hfj
    have hji : j ≠ i := by
      rintro rfl
      rw [access_filled h hf (ha p hp).1] at hfj
      cases hfj
    rw [(access_of_ne w.past hji _).1] at hfj
    obtain ⟨hc, hpg⟩ := h.empty j hj hfj
    obtain ⟨hpo, hco⟩ := hother j hji hj
    rw [hpo, hco]
    exact ⟨age_of_max hc, hpg⟩

/-- The oldest slot is the least recently used as long as no slot shares the largest age with a filled one. -/
theorem Recalls.replaces {w : Watched} (h : w.Recalls) {op : EEOp} (ha : w.Apart op) : w.ReplacesLeast op := by
  intro p hp hm
  have hapart := (ha p hp).2 hm
  obtain ⟨k, s', he, hk, hold, -⟩ := fill_oldest h.runs hm
  refine ⟨k, s', he, hk, ?_, ?_⟩
  · rintro ⟨j, hj, hfj⟩
    cases hfk : w.past.filled k with
    | false => rfl
    | true =>
      have hle := hold j hj
      have hck := h.age k hk hfk
      obtain ⟨hcj, -⟩ := h.empty j hj hfj
      rw [age_of_max hcj, age_of_min hck (h.seen k hk hfk)] at hle
      have hkj : k ≠ j := by
        rintro rfl
        rw [hfk] at hfj
        cases hfj
      have hstale := (hapart k j hk hj hkj ⟨hfk, Nat.le_trans hle (Nat.min_le_left _ _)⟩).1
      rw [hfj] at hstale
      cases hstale
  · intro hall j hj
    by_cases hjk : j = k
    · exact Nat.le_of_eq (by rw [hjk])
    · have hle := hold j hj
      have hsj := h.seen j hj (hall j hj)
      rw [age_of_min (h.age j hj (hall j hj)) hsj, age_of_min (h.age k hk (hall k hk)) (h.seen k hk (hall k hk))] at hle
      by_contra hlt
      have hstale : w.past.Stale j := ⟨hall j hj, by omega⟩
      exact (hapart j k hj hk hjk hstale).2 ⟨hall k hk, by omega⟩

theorem init_recalls (tk : DFToken) {n : Nat} (hn : 1 ≤ n) {spi : Spi} (hi : spi.Idle) : (init tk n spi).Recalls := by
  have hslot : ∀ i, i < (init tk n spi).cache.numPages → (init tk n spi).cache.slot i = .blank := fun i h =>
    init_slot tk n spi (by rwa [← init_numPages tk n spi])
  refine ⟨⟨by rw [show (init tk n spi).cache.numPages = n from init_numPages tk n spi]; exact hn, hi⟩, ?_, ?_, ?_⟩
  · intro i _ hfi
    cases hfi
  · intro i _ hfi
    cases hfi
  · intro i h _
    rw [hslot i h]
    exact ⟨rfl, rfl⟩

/-- Run lemma. -/
theorem runAll_recalls (ops : List EEOp) : ∀ {w : Watched}, w.Recalls →
    (∀ pre op v, pre ++ [op] <+: ops → runAll pre w = some v → v.Apart op) →
    ∃ v, runAll ops w = some v ∧ EEOp.runAll ops w.cache = some v.cache ∧ v.Recalls := by
  induction ops with
  | nil => exact fun h _ => ⟨_, rfl, rfl, h⟩
  | cons op ops ih =>
    intro w h hapart
    obtain ⟨u, he, hc, -⟩ := run_some h.runs op
    have hu := h.run (hapart [] op w (by simp) rfl) he
    obtain ⟨v, hv, hcv, hrec⟩ := ih hu fun pre o x hp hx =>
      hapart (op :: pre) o x (by simpa using hp) (by simp only [runAll, he, Option.bind_some, hx])
    exact ⟨v, by simp only [runAll, he, Option.bind_some, hv], by simp only [EEOp.runAll, hc, Option.bind_some, hcv], hrec⟩

theorem runAll_append (ops ops' : List EEOp) : ∀ w : Watched, runAll (ops ++ ops') w = (runAll ops w).bind (runAll ops') := by
  induction ops with
  | nil => exact fun _ => rfl
  | cons op ops ih =>
    intro w
    simp only [List.cons_append, runAll, Option.bind_assoc]
    exact Option.bind_congr fun u _ => ih u

/-- There is one access a call at most. -/
theorem runAll_time (ops : List EEOp) : ∀ {w v : Watched}, runAll ops w = some v → v.past.time ≤ w.past.time + ops.length := by
  induction ops with
  | nil =>
    intro w v h
    cases h
    exact Nat.le_refl _
  | cons op ops ih =>
    intro w v h
    obtain ⟨u, hu, hv⟩ := Option.bind_eq_some_iff.mp h
    have hle := ih hv
    have hone : u.past.time ≤ w.past.time + 1 := by
      simp only [run, Option.bind_eq_bind, Option.bind_eq_some_iff] at hu
      obtain ⟨s, -, hu⟩ := hu
      split at hu
      · cases hu
        exact Nat.le_succ _
      · obtain ⟨r, -, hr⟩ := Option.bind_eq_some_iff.mp hu
        cases hr
        exact Nat.le_refl _
    rw [List.length_cons]
    omega

/-- No age has stopped before the 32767th access. -/
theorem apart_of_short {w : Watched} (h : w.past.time + 1 < pageCountMax) {op : EEOp} (hp : op.page ≠ some 0xFFFF) :
    w.Apart op := by
  intro p hop
  refine ⟨?_, ?_⟩
  · rintro rfl
    exact absurd hop hp
  · rintro - i j - - - ⟨-, hs⟩
    exact absurd (Nat.le_trans hs (Nat.sub_le _ _)) (Nat.not_le.mpr h)

end Watched

/-- In every run in which no two slots tie at the largest age and page 0xFFFF is accessed only with every slot filled, a call that
misses replaces a slot that has never been filled, if there is one, and else the one whose last access lies furthest back. -/
theorem replacement_is_lru (tk : DFToken) (n : Nat) (hn : 1 ≤ n) (spi : Spi) (hi : spi.Idle) (ops : List EEOp)
    (h : ∀ pre op w, pre ++ [op] <+: ops → Watched.runAll pre (.init tk n spi) = some w → w.Apart op) :
    ∀ pre op, pre ++ [op] <+: ops → ∃ w, Watched.runAll pre (.init tk n spi) = some w ∧
      EEOp.runAll pre (.init tk n spi) = some w.cache ∧ w.ReplacesLeast op := by
  intro pre op hp
  obtain ⟨w, hw, hc, hrec⟩ := Watched.runAll_recalls pre (Watched.init_recalls tk hn hi) fun p o v hpo =>
    h p o v (hpo.trans ((List.prefix_append pre [op]).trans hp))
  exact ⟨w, hw, hc, hrec.replaces (h pre op w hp hw)⟩

/-- Two slots and three pages: the third page is a miss on full slots. -/
theorem replacement_is_lru_three_pages :
    ∃ w, Watched.runAll [.read1 0, .write1 600 7, .read1 3, .cacheCheck]
        (.init ⟨3, 4⟩ 2 (Spi.reset ⟨fun _ _ => 0xFF, fun _ _ => 0, []⟩ 5 [2, 0] 0x25 [])) = some w ∧
      EEOp.runAll [.read1 0, .write1 600 7, .read1 3, .cacheCheck]
        (.init ⟨3, 4⟩ 2 (Spi.reset ⟨fun _ _ => 0xFF, fun _ _ => 0, []⟩ 5 [2, 0] 0x25 [])) = some w.cache ∧
      w.ReplacesLeast (.read1 1024) := by
  refine replacement_is_lru ⟨3, 4⟩ 2 (by decide) _ (DataFlashAux.reset_idle _ _ _ _ _)
    [.read1 0, .write1 600 7, .read1 3, .cacheCheck, .read1 1024] ?_ _ (.read1 1024) (List.prefix_refl _)
  intro pre op w hp hw
  have htime := Watched.runAll_time pre hw
  have hlen := hp.length_le
  have hmem : op ∈ [EEOp.read1 0, .write1 600 7, .read1 3, .cacheCheck, .read1 1024] := hp.subset (by simp)
  have hpage : ∀ o ∈ [EEOp.read1 0, .write1 600 7, .read1 3, .cacheCheck, .read1 1024], o.page ≠ some 0xFFFF := by decide
  refine Watched.apart_of_short ?_ (hpage op hmem)
  simp only [Watched.init, EE.Past.none, List.length_append, List.length_cons, List.length_nil] at htime hlen
  exact Nat.lt_of_le_of_lt (show w.past.time + 1 ≤ 5 by omega) (by decide)

/-! ## One page read in a loop -/

namespace Watched

open EE

/-- Three slots: page 0, not accessed for `a` accesses; page 1, just accessed; and an empty one. -/
structure Looped (w : Watched) (a : Nat) : Prop where
  runs : w.cache.Runs
  three : w.cache.numPages = 3
  zero : (w.cache.slot 0).page = 0 ∧ (w.cache.slot 0).count = min (a - 0) pageCountMax
  one : (w.cache.slot 1).page = 1 ∧ (w.cache.slot 1).count = 0
  two : (w.cache.slot 2).page = 0xFFFF ∧ (w.cache.slot 2).count = pageCountMax
  filled : w.past.filled 0 = true ∧ w.past.filled 2 = false

/-- Step lemma: page 1 is read again. -/
theorem Looped.again {w : Watched} {a : Nat} (h : w.Looped a) : ∃ w', w.run (.read1 512) = some w' ∧ w'.Looped (a + 1) := by
  obtain ⟨w', he, -, hruns'⟩ := run_some h.runs (.read1 512)
  obtain ⟨i, t, hf, hi, hpast, hn, hpi, hci, hother⟩ := run_access h.runs (p := 1) rfl he
  have hm : ¬ w.cache.Misses 1 := fun hm => (misses_iff _ _).mp hm 1 (by rw [h.three]; decide) h.one.1
  obtain rfl : i = 1 := by
    have hp := fill_hit h.runs hf hm
    rw [h.three] at hi
    rcases (by omega : i = 0 ∨ i = 1 ∨ i = 2) with rfl | rfl | rfl
    · rw [h.zero.1] at hp
      cases hp
    · rfl
    · rw [h.two.1] at hp
      exact absurd hp (by decide)
  obtain ⟨hp0, hc0⟩ := hother 0 (by decide) (by rw [h.three]; decide)
  obtain ⟨hp2, hc2⟩ := hother 2 (by decide) (by rw [h.three]; decide)
  refine ⟨w', he, hruns', hn.trans h.three, ⟨hp0.trans h.zero.1, ?_⟩, ⟨hpi, hci⟩, ⟨hp2.trans h.two.1, ?_⟩, ?_⟩
  · rw [hc0, age_of_min h.zero.2 (Nat.zero_le a)]
  · rw [hc2, age_of_max h.two.2]
  · rw [hpast]
    simpa [Past.access, hm] using h.filled

/-- Run lemma. -/
theorem Looped.loop (m : Nat) : ∀ {w : Watched} {a : Nat}, w.Looped a →
    ∃ w', runAll (List.replicate m (.read1 512)) w = some w' ∧ w'.Looped (a + m) := by
  induction m with
  | zero => exact fun h => ⟨_, rfl, h⟩
  | succ m ih =>
    intro w a h
    obtain ⟨u, hu, hlu⟩ := h.again
    obtain ⟨v, hv, hlv⟩ := ih hlu
    refine ⟨v, by rw [List.replicate_succ, runAll, hu, Option.bind_some, hv], ?_⟩
    rwa [Nat.add_right_comm] at hlv

/-- With the age of page 0 at its end, the slot it is in is taken before the empty one. -/
theorem Looped.forgets {w : Watched} {a : Nat} (h : w.Looped a) (ha : pageCountMax ≤ a) :
    (∃ s', w.cache.fill 2 = some (0, s')) ∧ ¬ w.ReplacesLeast (.read1 1024) := by
  have hm : w.cache.Misses 2 := by
    refine (misses_iff _ _).mpr fun j hj => ?_
    rw [h.three] at hj
    rcases (by omega : j = 0 ∨ j = 1 ∨ j = 2) with rfl | rfl | rfl
    · rw [h.zero.1]
      decide
    · rw [h.one.1]
      decide
    · rw [h.two.1]
      decide
  have h0 : (EE.age (w.cache.slot 0)).count = pageCountMax := age_of_max (by rw [h.zero.2, Nat.sub_zero, Nat.min_eq_right ha])
  have h2 : (EE.age (w.cache.slot 2)).count = pageCountMax := age_of_max h.two.2
  obtain ⟨k, s', he, -⟩ := fill_oldest h.runs hm
  obtain rfl : k = 0 := by
    refine fill_first h.runs hm he (by rw [h.three]; decide) (fun j hj => ?_) fun j hj => absurd hj (Nat.not_lt_zero j)
    rw [h0]
    rw [h.three] at hj
    rcases (by omega : j = 0 ∨ j = 1 ∨ j = 2) with rfl | rfl | rfl
    · exact Nat.le_of_eq h0
    · rw [age_count _ (by rw [h.one.2]; decide), h.one.2]
      decide
    · exact Nat.le_of_eq h2
  refine ⟨⟨s', he⟩, fun hlaw => ?_⟩
  obtain ⟨k, t, he', -, hleast, -⟩ := hlaw 2 rfl hm
  rw [he, Option.some.injEq, Prod.mk.injEq] at he'
  have hf := hleast ⟨2, by rw [h.three]; decide, h.filled.2⟩
  rw [← he'.1, h.filled.1] at hf
  cases hf

/-- Pages 0 and 1 are read into the first two of three slots. -/
theorem looped_start (tk : DFToken) {spi : Spi} (hi : spi.Idle) :
    ∃ w, runAll [.read1 0, .read1 512] (init tk 3 spi) = some w ∧ w.Looped 1 := by
  have hrec : (init tk 3 spi).Recalls := init_recalls tk (by decide) hi
  have hthree : (init tk 3 spi).cache.numPages = 3 := init_numPages tk 3 spi
  have hblank : ∀ j, j < 3 → (init tk 3 spi).cache.slot j = .blank := fun j hj => init_slot tk 3 spi hj
  have hold : ∀ j, j < 3 → (EE.age ((init tk 3 spi).cache.slot j)).count = pageCountMax := fun j hj =>
    age_of_max (by rw [hblank j hj]; rfl)
  have hm : (init tk 3 spi).cache.Misses 0 := (misses_iff _ _).mpr fun j hj => by
    rw [hblank j (by rwa [hthree] at hj)]
    decide
  obtain ⟨u, hu, -, hwu⟩ := run_some hrec.runs (.read1 0)
  obtain ⟨i, t, hfi, -, hpast, hn, hpi, hci, hother⟩ := run_access hrec.runs (p := 0) rfl hu
  obtain rfl : i = 0 := by
    refine fill_first hrec.runs hm hfi (by rw [hthree]; decide) (fun j hj => ?_) fun j hj => absurd hj (Nat.not_lt_zero j)
    exact Nat.le_of_eq ((hold j (by rwa [hthree] at hj)).trans (hold 0 (by decide)).symm)
  rw [hthree] at hn hother
  have hm' : u.cache.Misses 1 := (misses_iff _ _).mpr fun j hj => by
    rw [hn] at hj
    by_cases hj0 : j = 0
    · subst hj0
      rw [hpi]
      decide
    · rw [(hother j hj0 hj).1, hblank j hj]
      decide
  have hold' : ∀ j, j ≠ 0 → j < 3 → (EE.age (u.cache.slot j)).count = pageCountMax := fun j hj0 hj =>
    age_of_max ((hother j hj0 hj).2.trans (hold j hj))
  obtain ⟨v, hv, -, hwv⟩ := run_some hwu (.read1 512)
  obtain ⟨k, t', hfk, -, hpast', hn', hpk, hck, hother'⟩ := run_access hwu (p := 1) rfl hv
  have h0 : (EE.age (u.cache.slot 0)).count = min (1 - 0) pageCountMax := by
    rw [age_count _ (by rw [hci]; decide), hci]
  obtain rfl : k = 1 := by
    refine fill_first hwu hm' hfk (by rw [hn]; decide) (fun j hj => ?_) fun j hj => ?_
    · rw [hold' 1 (by decide) (by decide)]
      by_cases hj0 : j = 0
      · rw [hj0, h0]
        exact Nat.min_le_right _ _
      · exact Nat.le_of_eq (hold' j hj0 (by rwa [hn] at hj))
    · obtain rfl : j = 0 := Nat.lt_one_iff.mp hj
      rw [hold' 1 (by decide) (by decide), h0]
      decide
  rw [hn] at hn' hother'
  obtain ⟨hp0, hc0⟩ := hother' 0 (by decide) (by decide)
  obtain ⟨hp2, hc2⟩ := hother' 2 (by decide) (by decide)
  refine ⟨v, by simp only [runAll, hu, hv, Option.bind_some], hwv, hn', ⟨hp0.trans hpi, hc0.trans h0⟩, ⟨hpk, hck⟩, ⟨?_, ?_⟩, ?_⟩
  · rw [hp2, (hother 2 (by decide) (by decide)).1, hblank 2 (by decide)]
    rfl
  · rw [hc2, hold' 2 (by decide) (by decide)]
  · rw [hpast', hpast, decide_eq_true hm, decide_eq_true hm']
    exact ⟨rfl, rfl⟩

end Watched

/-- Page 0 and page 1 are read, and page 1 then 32767 times more. Page 2 replaces page 0, with a slot that has never been
filled. -/
theorem replacement_forgets : ∃ w, Watched.runAll ([.read1 0, .read1 512] ++ List.replicate 32767 (.read1 512))
      (.init ⟨3, 4⟩ 3 (Spi.reset ⟨fun _ _ => 0xFF, fun _ _ => 0, []⟩ 5 [2, 0] 0x25 [])) = some w ∧
    (∃ s', w.cache.fill 2 = some (0, s')) ∧ w.past.filled 0 = true ∧ w.past.filled 2 = false ∧
      ¬ w.ReplacesLeast (.read1 1024) := by
  obtain ⟨u, hu, hlu⟩ := Watched.looped_start ⟨3, 4⟩ (DataFlashAux.reset_idle ⟨fun _ _ => 0xFF, fun _ _ => 0, []⟩ 5 [2, 0] 0x25 [])
  obtain ⟨w, hw, hlw⟩ := hlu.loop 32767
  obtain ⟨hfill, hlaw⟩ := hlw.forgets (by decide)
  exact ⟨w, by rw [Watched.runAll_append, hu, Option.bind_some, hw], hfill, hlw.filled.1, hlw.filled.2, hlaw⟩

end PowerMonitor
