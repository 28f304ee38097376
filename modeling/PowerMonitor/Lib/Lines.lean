import Mathlib.Data.List.Infix

/-!
# Splitting a stream at terminators

A stream is cut behind every element that satisfies a test: `pieces` are the parts a terminator has ended, without their
terminators, and `rest` is the unfinished part behind the last one. However a stream is cut into chunks, the pieces of the whole
are those of the chunks when each chunk starts with the unfinished part of those before it (`pieces_append`).
-/

namespace PowerMonitor

namespace Lines

variable {α : Type*} (p : α → Bool)

/-- An element in front of the first piece, or of the unfinished part where there is no piece. -/
def push (a : α) : List (List α) × List α → List (List α) × List α
  | ([], r) => ([], a :: r)
  | (q :: qs, r) => ((a :: q) :: qs, r)

/-- The pieces of a stream and its unfinished part. -/
def split : List α → List (List α) × List α
  | [] => ([], [])
  | a :: t => if p a then ([] :: (split t).1, (split t).2) else push a (split t)

/-- The parts of a stream that a terminator has ended. -/
def pieces (t : List α) : List (List α) := (split p t).1

/-- The part behind the last terminator. -/
def rest (t : List α) : List α := (split p t).2

/-- A stream up to its first terminator, with it. -/
def upTo : List α → List α
  | [] => []
  | a :: t => if p a then [a] else a :: upTo t

/-- No element of the list is a terminator. -/
def Free (l : List α) : Prop := ∀ a ∈ l, p a = false

instance (l : List α) : Decidable (Free p l) := inferInstanceAs (Decidable (∀ a ∈ l, p a = false))

variable {p}

theorem Free.nil : Free p [] := by simp [Free]

theorem Free.of_cons {a : α} {l : List α} (h : Free p (a :: l)) : p a = false ∧ Free p l :=
  ⟨h a List.mem_cons_self, fun b hb => h b (List.mem_cons_of_mem a hb)⟩

theorem Free.append {l m : List α} (hl : Free p l) (hm : Free p m) : Free p (l ++ m) := by
  intro a ha
  rcases List.mem_append.mp ha with h | h
  · exact hl a h
  · exact hm a h

/-- A stream has no terminator, or there is a first one. -/
theorem free_or_stop (t : List α) : Free p t ∨ ∃ l a r, t = l ++ a :: r ∧ Free p l ∧ p a = true := by
  induction t with
  | nil => exact Or.inl Free.nil
  | cons a t ih =>
    by_cases ha : p a = true
    · exact Or.inr ⟨[], a, t, rfl, Free.nil, ha⟩
    · have ha' : Free p [a] := by simpa [Free] using ha
      rcases ih with h | ⟨l, b, r, rfl, hl, hb⟩
      · exact Or.inl (ha'.append h)
      · exact Or.inr ⟨a :: l, b, r, rfl, ha'.append hl, hb⟩

/-- Induction along the terminators of a stream. -/
@[elab_as_elim]
theorem line_induction {motive : List α → Prop} (free : ∀ l, Free p l → motive l)
    (stop : ∀ l a r, Free p l → p a = true → motive r → motive (l ++ a :: r)) (t : List α) : motive t := by
  induction hn : t.length using Nat.strong_induction_on generalizing t with
  | _ n ih =>
    rcases free_or_stop (p := p) t with h | ⟨l, a, r, he, hl, ha⟩
    · exact free t h
    · have hlt : r.length < n := by
        rw [← hn, he, List.length_append, List.length_cons]
        omega
      rw [he]
      exact stop l a r hl ha (ih _ hlt r rfl)

/-! ## Pieces -/

theorem split_free {l : List α} (h : Free p l) : split p l = ([], l) := by
  induction l with
  | nil => rfl
  | cons a l ih =>
    obtain ⟨ha, hl⟩ := h.of_cons
    simp [split, ha, ih hl, push]

theorem split_stop {l : List α} (h : Free p l) {a : α} (ha : p a = true) (r : List α) :
    split p (l ++ a :: r) = (l :: pieces p r, rest p r) := by
  induction l with
  | nil => simp [split, ha, pieces, rest]
  | cons b l ih =>
    obtain ⟨hb, hl⟩ := h.of_cons
    simp [split, hb, ih hl, push]

theorem pieces_free {l : List α} (h : Free p l) : pieces p l = [] := by rw [pieces, split_free h]

theorem rest_of_free {l : List α} (h : Free p l) : rest p l = l := by rw [rest, split_free h]

theorem pieces_stop {l : List α} (h : Free p l) {a : α} (ha : p a = true) (r : List α) :
    pieces p (l ++ a :: r) = l :: pieces p r := by rw [pieces, split_stop h ha]

theorem rest_stop {l : List α} (h : Free p l) {a : α} (ha : p a = true) (r : List α) :
    rest p (l ++ a :: r) = rest p r := by rw [rest, split_stop h ha]

/-- The unfinished part has no terminator. -/
theorem rest_free (t : List α) : Free p (rest p t) := by
  induction t using line_induction (p := p) with
  | free l h =>
    rw [rest_of_free h]
    exact h
  | stop l a r hl ha ih =>
    rw [rest_stop hl ha]
    exact ih

/-- The elements of the pieces are elements of the stream. -/
theorem mem_of_mem_pieces {t l : List α} {a : α} (hl : l ∈ pieces p t) (ha : a ∈ l) : a ∈ t := by
  induction t using line_induction (p := p) with
  | free m h =>
    rw [pieces_free h] at hl
    simp at hl
  | stop m b r hm hb ih =>
    rw [pieces_stop hm hb] at hl
    rcases List.mem_cons.mp hl with rfl | hl
    · exact List.mem_append_left _ ha
    · exact List.mem_append_right _ (List.mem_cons_of_mem b (ih hl))

/-- A piece has no terminator. -/
theorem free_of_mem_pieces {t l : List α} (hl : l ∈ pieces p t) : Free p l := by
  induction t using line_induction (p := p) with
  | free m h =>
    rw [pieces_free h] at hl
    simp at hl
  | stop m b r hm hb ih =>
    rw [pieces_stop hm hb] at hl
    rcases List.mem_cons.mp hl with rfl | hl
    · exact hm
    · exact ih hl

/-- There are no more pieces than elements. -/
theorem pieces_length_le (t : List α) : (pieces p t).length ≤ t.length := by
  induction t using line_induction (p := p) with
  | free l h =>
    rw [pieces_free h]
    exact Nat.zero_le _
  | stop l a r hl ha ih =>
    rw [pieces_stop hl ha, List.length_cons, List.length_append, List.length_cons]
    omega

/-- A stream that goes on: the pieces are the earlier ones and those of the unfinished part with what follows. -/
theorem split_append (s t : List α) :
    pieces p (s ++ t) = pieces p s ++ pieces p (rest p s ++ t) ∧ rest p (s ++ t) = rest p (rest p s ++ t) := by
  induction s using line_induction (p := p) with
  | free l h =>
    rw [pieces_free h, rest_of_free h]
    exact ⟨rfl, rfl⟩
  | stop l a r hl ha ih =>
    rw [List.append_assoc, List.cons_append, pieces_stop hl ha, rest_stop hl ha, pieces_stop hl ha, rest_stop hl ha,
      ih.1, ih.2]
    exact ⟨rfl, rfl⟩

theorem pieces_append (s t : List α) : pieces p (s ++ t) = pieces p s ++ pieces p (rest p s ++ t) := (split_append s t).1

theorem rest_append (s t : List α) : rest p (s ++ t) = rest p (rest p s ++ t) := (split_append s t).2

/-! ## One element more -/

/-- A terminator makes a piece of the unfinished part. -/
theorem snoc_stop (t : List α) {a : α} (ha : p a = true) :
    pieces p (t ++ [a]) = pieces p t ++ [rest p t] ∧ rest p (t ++ [a]) = [] := by
  have h := rest_free (p := p) t
  rw [pieces_append, rest_append, pieces_stop h ha, rest_stop h ha, pieces_free Free.nil, rest_of_free Free.nil]
  exact ⟨rfl, rfl⟩

/-- Any other element joins the unfinished part. -/
theorem snoc_free (t : List α) {a : α} (ha : p a = false) :
    pieces p (t ++ [a]) = pieces p t ∧ rest p (t ++ [a]) = rest p t ++ [a] := by
  have h : Free p (rest p t ++ [a]) := (rest_free t).append (by simpa [Free] using ha)
  rw [pieces_append, rest_append, pieces_free h, rest_of_free h, List.append_nil]
  exact ⟨rfl, rfl⟩

/-- The pieces of a stream are the first pieces of any stream that goes on from it. -/
theorem pieces_prefix {s t : List α} (h : s <+: t) : pieces p s <+: pieces p t := by
  obtain ⟨u, rfl⟩ := h
  rw [pieces_append]
  exact List.prefix_append _ _

/-! ## Up to the first terminator -/

theorem upTo_free {l : List α} (h : Free p l) : upTo p l = l := by
  induction l with
  | nil => rfl
  | cons a l ih =>
    obtain ⟨ha, hl⟩ := h.of_cons
    simp [upTo, ha, ih hl]

theorem upTo_stop {l : List α} (h : Free p l) {a : α} (ha : p a = true) (r : List α) : upTo p (l ++ a :: r) = l ++ [a] := by
  induction l with
  | nil => simp [upTo, ha]
  | cons b l ih =>
    obtain ⟨hb, hl⟩ := h.of_cons
    simp [upTo, hb, ih hl]

end Lines

end PowerMonitor
