import Mathlib.Logic.Function.Basic

/-!
# Write-back caches

A cache keeps a few of the cells of a backing store in lines; a line may hold a newer value than the store does, and is then
dirty. `view` is what a reader sees: the line that holds the key, or else the store. The operations of a cache are loading a clean
copy, changing a line, writing a line back, and dropping a clean line; all but the change leave the view as it is.

Keys, values and line names are arbitrary types.
-/

/-- A line of a cache. -/
structure CacheLine (K V : Type*) where
  key : K
  dirty : Bool
  data : V

/-- A cache over a store: some lines are in use. -/
structure WriteBack (ι K V : Type*) where
  line : ι → Option (CacheLine K V)
  store : K → V

namespace WriteBack

variable {ι K V : Type*}

/-- No key is held twice, and a clean line agrees with the store. -/
structure Coherent (c : WriteBack ι K V) : Prop where
  unique : ∀ i j l m, c.line i = some l → c.line j = some m → l.key = m.key → i = j
  clean : ∀ i l, c.line i = some l → l.dirty = false → l.data = c.store l.key

/-- The key is in some line. -/
def Holds (c : WriteBack ι K V) (k : K) : Prop := ∃ i l, c.line i = some l ∧ l.key = k

open Classical in
/-- What a reader of the cache sees. -/
noncomputable def view (c : WriteBack ι K V) (k : K) : V :=
  if h : ∃ l, (∃ i, c.line i = some l) ∧ l.key = k then h.choose.data else c.store k

/-- A cache is its lines and its store. -/
theorem eq_of_lines {c d : WriteBack ι K V} (hl : ∀ i, c.line i = d.line i) (hs : c.store = d.store) : c = d := by
  cases c
  cases d
  obtain rfl := funext hl
  obtain rfl := hs
  rfl

theorem view_of_line {c : WriteBack ι K V} (h : c.Coherent) {i : ι} {l : CacheLine K V} (hl : c.line i = some l) :
    c.view l.key = l.data := by
  have hex : ∃ m, (∃ j, c.line j = some m) ∧ m.key = l.key := ⟨l, ⟨i, hl⟩, rfl⟩
  obtain ⟨⟨j, hj⟩, hk⟩ := hex.choose_spec
  have hij : j = i := h.unique j i _ _ hj hl hk
  subst hij
  rw [view, dif_pos hex, Option.some.inj (hj.symm.trans hl)]

theorem view_of_not_holds {c : WriteBack ι K V} {k : K} (h : ¬c.Holds k) : c.view k = c.store k := by
  rw [view, dif_neg]
  rintro ⟨l, ⟨i, hi⟩, hk⟩
  exact h ⟨i, l, hi, hk⟩

/-- What is seen at a key is decided by the line that holds it and the store at that key. -/
theorem view_cases {c : WriteBack ι K V} (h : c.Coherent) (k : K) :
    (∃ i l, c.line i = some l ∧ l.key = k ∧ c.view k = l.data) ∨ (¬c.Holds k ∧ c.view k = c.store k) := by
  by_cases hk : c.Holds k
  · obtain ⟨i, l, hl, rfl⟩ := hk
    exact Or.inl ⟨i, l, hl, rfl, view_of_line h hl⟩
  · exact Or.inr ⟨hk, view_of_not_holds hk⟩

/-- A cache without dirty lines agrees with its store everywhere. -/
theorem view_eq_store {c : WriteBack ι K V} (h : c.Coherent) (hc : ∀ i l, c.line i = some l → l.dirty = false) (k : K) :
    c.view k = c.store k := by
  rcases view_cases h k with ⟨i, l, hl, rfl, hv⟩ | ⟨-, hv⟩
  · rw [hv, h.clean i l hl (hc i l hl)]
  · exact hv

variable [DecidableEq ι]

/-! ## The operations -/

/-- Line `i` takes the value `l`. -/
def setLine (c : WriteBack ι K V) (i : ι) (l : Option (CacheLine K V)) : WriteBack ι K V :=
  { c with line := Function.update c.line i l }

theorem setLine_line_self (c : WriteBack ι K V) (i : ι) (l : Option (CacheLine K V)) : (c.setLine i l).line i = l := by
  simp [setLine]

theorem setLine_line_of_ne (c : WriteBack ι K V) {i j : ι} (h : j ≠ i) (l : Option (CacheLine K V)) :
    (c.setLine i l).line j = c.line j := by
  simp [setLine, h]

theorem setLine_setLine (c : WriteBack ι K V) (i : ι) (l m : Option (CacheLine K V)) :
    (c.setLine i l).setLine i m = c.setLine i m := by
  simp [setLine]

/-- A line after a change of one line is the new one or an old one. -/
theorem setLine_line_cases {c : WriteBack ι K V} {i j : ι} {l : Option (CacheLine K V)} {m : CacheLine K V}
    (h : (c.setLine i l).line j = some m) : (j = i ∧ l = some m) ∨ (j ≠ i ∧ c.line j = some m) := by
  by_cases hj : j = i
  · subst hj
    rw [setLine_line_self] at h
    exact Or.inl ⟨rfl, h⟩
  · rw [setLine_line_of_ne c hj] at h
    exact Or.inr ⟨hj, h⟩

/-- Replacing a line by one whose key is in no other line, and which is right if it is clean, keeps the cache coherent. -/
theorem coherent_setLine {c : WriteBack ι K V} (h : c.Coherent) (i : ι) (l : Option (CacheLine K V))
    (hk : ∀ m, l = some m → ∀ j n, j ≠ i → c.line j = some n → n.key ≠ m.key)
    (hc : ∀ m, l = some m → m.dirty = false → m.data = c.store m.key) : (c.setLine i l).Coherent := by
  refine ⟨?_, ?_⟩
  · intro a b m n ha hb hmn
    rcases setLine_line_cases ha with ⟨ea, hm⟩ | ⟨hai, ha'⟩ <;>
      rcases setLine_line_cases hb with ⟨eb, hn⟩ | ⟨hbi, hb'⟩
    · exact ea.trans eb.symm
    · exact absurd hmn.symm (hk m hm b n hbi hb')
    · exact absurd hmn (hk n hn a m hai ha')
    · exact h.unique a b m n ha' hb' hmn
  · intro a m ha hd
    rcases setLine_line_cases ha with ⟨-, hm⟩ | ⟨-, ha'⟩
    · exact hc m hm hd
    · exact h.clean a m ha' hd

section Drop

variable {c : WriteBack ι K V} (h : c.Coherent) {i : ι} (hi : ∀ l, c.line i = some l → l.dirty = false)
include h

theorem coherent_drop : (c.setLine i none).Coherent :=
  coherent_setLine h i none (fun _ hm => by cases hm) (fun _ hm => by cases hm)

include hi in
/-- Dropping a clean line is not seen. -/
theorem view_drop : (c.setLine i none).view = c.view := by
  have h' : (c.setLine i none).Coherent := coherent_drop h
  funext k
  rcases view_cases h' k with ⟨j, l, hj, rfl, hv⟩ | ⟨hk, hv⟩
  · rcases setLine_line_cases hj with ⟨-, hl⟩ | ⟨-, hj⟩
    · cases hl
    · rw [hv, view_of_line h hj]
  · rw [hv]
    rcases view_cases h k with ⟨j, l, hj, rfl, hv'⟩ | ⟨-, hv'⟩
    · by_cases hji : j = i
      · subst hji
        rw [hv', h.clean j l hj (hi l hj)]
        rfl
      · exact absurd ⟨j, l, (setLine_line_of_ne c hji none).trans hj, rfl⟩ hk
    · exact hv'.symm

end Drop

section Load

variable {c : WriteBack ι K V} (h : c.Coherent) {i : ι} {k : K} (hi : c.line i = none) (hk : ¬c.Holds k)
include h hk

/-- A clean copy of the store is loaded into a line. -/
theorem coherent_load : (c.setLine i (some ⟨k, false, c.store k⟩)).Coherent := by
  refine coherent_setLine h i _ ?_ ?_
  · rintro m hm j n - hj hn
    cases hm
    exact hk ⟨j, n, hj, hn⟩
  · rintro m hm -
    cases hm
    rfl

include hi in
/-- Loading a key that no line holds into a free line is not seen. -/
theorem view_load : (c.setLine i (some ⟨k, false, c.store k⟩)).view = c.view := by
  have h' := coherent_load (i := i) h hk
  funext q
  rcases view_cases h q with ⟨j, l, hj, rfl, hv⟩ | ⟨hq, hv⟩
  · have hji : j ≠ i := by
      rintro rfl
      rw [hi] at hj
      cases hj
    rw [hv]
    exact view_of_line h' ((setLine_line_of_ne c hji _).trans hj)
  · rw [hv]
    by_cases hqk : q = k
    · subst hqk
      exact view_of_line h' (setLine_line_self c i _)
    · refine view_of_not_holds ?_
      rintro ⟨j, l, hj, rfl⟩
      rcases setLine_line_cases hj with ⟨-, hl⟩ | ⟨-, hj⟩
      · cases hl
        exact hqk rfl
      · exact hq ⟨j, l, hj, rfl⟩

end Load

section Change

variable {c : WriteBack ι K V} (h : c.Coherent) {i : ι} {l : CacheLine K V} (hl : c.line i = some l)
include h hl

/-- The data of a line is changed, and the line is marked dirty unless the data is what it was. -/
theorem coherent_change {d : Bool} {v : V} (hd : d = false → l.dirty = false ∧ v = l.data) :
    (c.setLine i (some ⟨l.key, d, v⟩)).Coherent := by
  refine coherent_setLine h i _ ?_ ?_
  · rintro m hm j n hji hj hn
    cases hm
    exact hji (h.unique j i n l hj hl hn)
  · rintro m hm hm'
    cases hm
    obtain ⟨h1, rfl⟩ := hd hm'
    exact h.clean i l hl h1

/-- The change is seen at the key of the line and nowhere else. -/
theorem view_change [DecidableEq K] {d : Bool} {v : V} (hd : d = false → l.dirty = false ∧ v = l.data) :
    (c.setLine i (some ⟨l.key, d, v⟩)).view = Function.update c.view l.key v := by
  have h' := coherent_change h hl hd
  funext q
  by_cases hq : q = l.key
  · subst hq
    rw [Function.update_self]
    exact view_of_line h' (setLine_line_self c i _)
  · rw [Function.update_of_ne hq]
    rcases view_cases h q with ⟨j, m, hj, rfl, hv⟩ | ⟨hn, hv⟩
    · have hji : j ≠ i := by
        rintro rfl
        rw [hl] at hj
        cases hj
        exact hq rfl
      rw [hv]
      exact view_of_line h' ((setLine_line_of_ne c hji _).trans hj)
    · rw [hv]
      refine view_of_not_holds ?_
      rintro ⟨j, m, hj, rfl⟩
      rcases setLine_line_cases hj with ⟨-, hm⟩ | ⟨-, hj⟩
      · cases hm
        exact hq rfl
      · exact hn ⟨j, m, hj, rfl⟩

end Change

section WriteBackLine

variable [DecidableEq K]

/-- Line `i`, which holds `l`, is written back. -/
def writeBack (c : WriteBack ι K V) (i : ι) (l : CacheLine K V) : WriteBack ι K V where
  line := Function.update c.line i (some ⟨l.key, false, l.data⟩)
  store := Function.update c.store l.key l.data

variable {c : WriteBack ι K V} (h : c.Coherent) {i : ι} {l : CacheLine K V} (hl : c.line i = some l)
include h hl

theorem coherent_writeBack : (c.writeBack i l).Coherent := by
  have hcases : ∀ {j m}, (c.writeBack i l).line j = some m →
      (j = i ∧ m = ⟨l.key, false, l.data⟩) ∨ (j ≠ i ∧ c.line j = some m) := by
    intro j m hj
    rcases setLine_line_cases (c := c) (i := i) (j := j) (m := m) hj with ⟨rfl, hm⟩ | hj
    · exact Or.inl ⟨rfl, (Option.some.inj hm).symm⟩
    · exact Or.inr hj
  refine ⟨?_, ?_⟩
  · intro a b m n ha hb hmn
    rcases hcases ha with ⟨ea, em⟩ | ⟨-, ha'⟩ <;> rcases hcases hb with ⟨eb, en⟩ | ⟨-, hb'⟩
    · exact ea.trans eb.symm
    · exact ea.trans (h.unique i b l n hl hb' (by rw [← hmn, em]))
    · exact (h.unique a i m l ha' hl (by rw [hmn, en])).trans eb.symm
    · exact h.unique a b m n ha' hb' hmn
  · intro a m ha hd
    rcases hcases ha with ⟨-, rfl⟩ | ⟨hai, ha'⟩
    · simp [writeBack]
    · have hne : m.key ≠ l.key := fun e => hai (h.unique a i m l ha' hl e)
      simpa [writeBack, hne] using h.clean a m ha' hd

/-- Writing a line back is not seen. -/
theorem view_writeBack : (c.writeBack i l).view = c.view := by
  have h' := coherent_writeBack h hl
  funext q
  rcases view_cases h q with ⟨j, m, hj, rfl, hv⟩ | ⟨hn, hv⟩
  · rw [hv]
    by_cases hji : j = i
    · subst hji
      cases hl.symm.trans hj
      exact view_of_line h' (l := ⟨l.key, false, l.data⟩) (setLine_line_self c j _)
    · exact view_of_line h' ((setLine_line_of_ne c hji (some ⟨l.key, false, l.data⟩)).trans hj)
  · have hq : q ≠ l.key := fun e => hn ⟨i, l, hl, e.symm⟩
    have hn' : ¬(c.writeBack i l).Holds q := by
      rintro ⟨j, m, hj, rfl⟩
      rcases setLine_line_cases (c := c) (i := i) (j := j) (m := m) hj with ⟨-, hm⟩ | ⟨-, hj⟩
      · cases hm
        exact hq rfl
      · exact hn ⟨j, m, hj, rfl⟩
    rw [hv, view_of_not_holds hn']
    simp [writeBack, hq]

end WriteBackLine

end WriteBack
