import PowerMonitor.Daemon.CmdParse
import Mathlib.Data.List.TakeWhile

/-!
# The command parser on text

`CmdParse_ProcessString` reads and writes a block of memory. Here it is a function of the text in the block: without a carriage
return nothing happens (`processString_none`); otherwise the text before the first one is processed as a line and the text behind
it is what stays, behind a line feed when the text began with one (`processString_line`).
-/

namespace PowerMonitor

open CString

namespace CmdParse

variable {σ : Type*}

/-- The command of a line: behind leading spaces, up to a colon. -/
def nameOf (l : List UInt8) : List UInt8 := (skipSpace l).takeWhile (· ≠ colon)

/-- The argument of a line: what stands behind its first colon, if anything does. -/
def argOf (l : List UInt8) : Option (List UInt8) :=
  match l.dropWhile (· ≠ colon) with
  | _ :: c :: rest => some (c :: rest)
  | _ => none

/-- A line processed: the result, the state, and what was looked up. -/
def processLine (table : List (CmdFunc σ)) (fd : Int) (l : List UInt8) (st : σ) :
    Int × σ × Option (List UInt8 × Option (List UInt8)) :=
  if nameOf l = [] then (-1, st, none)
  else
    let r := scan fd (nameOf l) (argOf l) st table
    (r.1, r.2, some (nameOf l, argOf l))

/-- The line feed that stays at the start of the buffer. -/
def residue (l : List UInt8) : List UInt8 := l.take (if l.head? = some lf then 1 else 0)

/-- A line is blank when all its bytes are spaces. -/
def Blank (l : List UInt8) : Prop := ∀ c ∈ l, isspace c = true

instance (l : List UInt8) : Decidable (Blank l) := List.decidableBAll _ l

/-! ## Lines -/

theorem residue_cases (l : List UInt8) : residue l = [] ∨ residue l = [lf] := by
  cases l with
  | nil => exact Or.inl rfl
  | cons c l =>
    by_cases h : c = lf
    · exact Or.inr (by simp [residue, h])
    · exact Or.inl (by simp [residue, h])

theorem skipSpace_append {s : List UInt8} (hs : Blank s) (l : List UInt8) : skipSpace (s ++ l) = skipSpace l :=
  List.dropWhile_append_of_pos hs

theorem skipSpace_blank {l : List UInt8} (h : Blank l) : skipSpace l = [] := List.dropWhile_eq_nil_iff.mpr h

theorem colon_not_mem_blank {s : List UInt8} (hs : Blank s) : ∀ a ∈ s, decide (a ≠ colon) = true := by
  intro a ha
  rw [decide_eq_true_eq]
  rintro rfl
  exact absurd (hs _ ha) (by decide)

/-- Spaces in front of a line change neither its command nor its argument. -/
theorem nameOf_append {s : List UInt8} (hs : Blank s) (l : List UInt8) : nameOf (s ++ l) = nameOf l := by
  rw [nameOf, skipSpace_append hs, nameOf]

theorem argOf_append {s : List UInt8} (hs : Blank s) (l : List UInt8) : argOf (s ++ l) = argOf l := by
  unfold argOf
  rw [List.dropWhile_append_of_pos (colon_not_mem_blank hs)]

theorem processLine_append {s : List UInt8} (hs : Blank s) (table : List (CmdFunc σ)) (fd : Int) (l : List UInt8) (st : σ) :
    processLine table fd (s ++ l) st = processLine table fd l st := by
  rw [processLine, processLine, nameOf_append hs, argOf_append hs]

theorem blank_lf : Blank [lf] := by decide

/-- The line feed that a call skips changes nothing. -/
theorem nameOf_drop_residue (l : List UInt8) :
    nameOf (l.drop (residue l).length) = nameOf l ∧ argOf (l.drop (residue l).length) = argOf l := by
  have hl : residue l ++ l.drop (residue l).length = l := by
    rcases residue_cases l with h | h
    · simp [h]
    · cases l with
      | nil => simp [residue] at h
      | cons c l =>
        have hc : c = lf := by
          by_contra hne
          simp [residue, hne] at h
        simp [residue, hc]
  have hb : Blank (residue l) := by
    rcases residue_cases l with h | h
    · rw [h]
      intro c hc
      simp at hc
    · rw [h]
      exact blank_lf
  constructor
  · conv_rhs => rw [← hl, nameOf_append hb]
  · conv_rhs => rw [← hl, argOf_append hb]

/-- What is left of a line behind its leading spaces is a tail of the line. -/
theorem skipSpace_eq_drop (l : List UInt8) : skipSpace l = l.drop (l.length - (skipSpace l).length) := by
  obtain ⟨t, ht⟩ := List.dropWhile_suffix (l := l) isspace
  have hlen : l.length = t.length + (skipSpace l).length := by
    conv_lhs => rw [← ht]
    rw [List.length_append, skipSpace]
  rw [show l.length - (skipSpace l).length = t.length by omega]
  conv_rhs => rw [← ht]
  rw [List.drop_left, skipSpace]

/-! ## The buffer -/

/-- The string inside a string. -/
theorem text_drop {t : List UInt8} (h : (0 : UInt8) ∉ t) (r : List UInt8) {k : Nat} (hk : k ≤ t.length) :
    text ((t ++ 0 :: r).drop k) = t.drop k := by
  rw [List.drop_append_of_le_length hk]
  exact text_append_nul (fun h0 => h (List.mem_of_mem_drop h0)) r

theorem strchr_of_mem {t : List UInt8} (h : (0 : UInt8) ∉ t) (r : List UInt8) {a b : List UInt8} {c : UInt8} {k : Nat}
    (hk : k ≤ t.length) (ht : t.drop k = a ++ c :: b) (ha : c ∉ a) : strchr (t ++ 0 :: r) k c = some (k + a.length) := by
  have hidx : (a ++ c :: b).idxOf? c = some a.length := by
    rw [List.idxOf?, List.findIdx?_eq_some_iff_getElem]
    refine ⟨by simp, by simp, ?_⟩
    intro j hj
    rw [List.getElem_append_left hj]
    intro he
    exact ha (by simpa using (beq_iff_eq.mp he) ▸ List.getElem_mem hj)
  rw [strchr, text_drop h r hk, ht, hidx, Option.map_some]

theorem strchr_of_not_mem {t : List UInt8} (h : (0 : UInt8) ∉ t) (r : List UInt8) {c : UInt8} {k : Nat} (hk : k ≤ t.length)
    (hc : c ∉ t.drop k) : strchr (t ++ 0 :: r) k c = none := by
  rw [strchr, text_drop h r hk, List.idxOf?_eq_none_iff.mpr hc, Option.map_none]

/-- Without a carriage return in its text the buffer stays as it is and nothing is looked up. -/
theorem processString_none (table : List (CmdFunc σ)) {mem : List UInt8} (hcr : cr ∉ text mem) (fd : Int) (st : σ) :
    processString table mem fd st = { rv := -1, string := mem, st := st, lookup := none } := by
  have h : strchr mem 0 cr = none := by
    rw [strchr, List.drop_zero, List.idxOf?_eq_none_iff.mpr hcr, Option.map_none]
  rw [processString, h]

/-- Splitting a list at the first occurrence of an element. -/
theorem exists_first {c : UInt8} {l : List UInt8} (h : c ∈ l) : ∃ a b, l = a ++ c :: b ∧ c ∉ a := by
  induction l with
  | nil => exact absurd h (by simp)
  | cons d l ih =>
    by_cases hd : d = c
    · exact ⟨[], l, by simp [hd], by simp⟩
    · obtain ⟨a, b, rfl, ha⟩ := ih ((List.mem_cons.mp h).resolve_left (Ne.symm hd))
      exact ⟨d :: a, b, rfl, by simp [Ne.symm hd, ha]⟩

theorem skipSpace_append_colon (a b : List UInt8) : skipSpace (a ++ colon :: b) = skipSpace a ++ colon :: b := by
  rw [skipSpace, List.dropWhile_append]
  split
  · next h => rw [skipSpace, List.isEmpty_iff.mp h, List.dropWhile_cons_of_neg (by decide), List.nil_append]
  · rfl

/-- Without a colon the line is the command. -/
theorem cutArg_none {l : List UInt8} (hl : (0 : UInt8) ∉ l) {k : Nat} (hk : k ≤ l.length) (hc : colon ∉ l.drop k)
    (m : List UInt8) : cutArg (l ++ 0 :: m) k = (l ++ 0 :: m, none) := by
  rw [cutArg, strchr_of_not_mem hl m hk hc]

/-- The first colon becomes a NUL, and the argument is what stands behind it. -/
theorem cutArg_colon {l : List UInt8} (hl : (0 : UInt8) ∉ l) {k : Nat} (hk : k ≤ l.length) {a b : List UInt8}
    (hab : l.drop k = a ++ colon :: b) (ha : colon ∉ a) (m : List UInt8) :
    cutArg (l ++ 0 :: m) k = ((l.take k ++ a ++ 0 :: b) ++ 0 :: m, if b = [] then none else some b) := by
  have hklen : (l.take k).length = k := List.length_take_of_le hk
  have hb0 : (0 : UInt8) ∉ b := by
    intro h
    refine hl (List.mem_of_mem_drop (i := k) ?_)
    rw [hab]
    exact List.mem_append_right _ (List.mem_cons_of_mem _ h)
  have hset : (l ++ 0 :: m).set (k + a.length) 0 = (l.take k ++ a ++ 0 :: b) ++ 0 :: m := by
    conv_lhs => rw [← List.take_append_drop k l, hab]
    rw [← List.append_assoc, List.append_assoc, List.cons_append, List.set_append_right _ _ (by simp [hklen])]
    simp [hklen]
  have hdrop : ((l.take k ++ a ++ 0 :: b) ++ 0 :: m).drop (k + a.length + 1) = b ++ 0 :: m := by
    have hlen : k + a.length + 1 = (l.take k ++ a ++ [0]).length := by simp [hklen, Nat.add_assoc]
    rw [hlen, show (l.take k ++ a ++ 0 :: b) ++ 0 :: m = (l.take k ++ a ++ [0]) ++ (b ++ 0 :: m) by simp, List.drop_left]
  have hget : ((l.take k ++ a ++ 0 :: b) ++ 0 :: m).getD (k + a.length + 1) 0 = (b ++ 0 :: m).getD 0 0 := by
    rw [← hdrop, List.getD_eq_getElem?_getD, List.getD_eq_getElem?_getD, List.getElem?_drop, Nat.add_zero]
  rw [cutArg, strchr_of_mem hl m hk hab ha]
  simp only [hset, hget, hdrop]
  cases b with
  | nil => rfl
  | cons c b =>
    have hhead : (c :: b ++ 0 :: m).getD 0 0 = c := rfl
    have hc0 : c ≠ 0 := fun h => hb0 (h ▸ List.mem_cons_self)
    rw [hhead, if_neg hc0, text_append_nul hb0 m, if_neg (List.cons_ne_nil c b)]

/-- What a line with a colon says. -/
theorem line_colon {a : List UInt8} (ha : colon ∉ a) (b : List UInt8) :
    nameOf (a ++ colon :: b) = skipSpace a ∧ argOf (a ++ colon :: b) = if b = [] then none else some b := by
  have hne : ∀ c ∈ a, decide (c ≠ colon) = true := fun c hc => decide_eq_true fun h => ha (h ▸ hc)
  constructor
  · rw [nameOf, skipSpace_append_colon]
    exact takeWhile_append_stop (fun c hc => hne c ((List.dropWhile_suffix _).subset hc)) (by simp) b
  · rw [argOf, dropWhile_append_stop hne (by simp)]
    cases b <;> rfl

/-- What a line without one says. -/
theorem line_no_colon {l : List UInt8} (hc : colon ∉ l) : nameOf l = skipSpace l ∧ argOf l = none := by
  have hne : ∀ c ∈ l, decide (c ≠ colon) = true := fun c h => decide_eq_true fun he => hc (he ▸ h)
  constructor
  · exact List.takeWhile_eq_self_iff.mpr fun c h => hne c ((List.dropWhile_suffix _).subset h)
  · rw [argOf, List.dropWhile_eq_nil_iff.mpr hne]

/-- The colon cut: the memory changes only behind the start of the string, the argument is that of the line, and the string at
the command's offset is the command of the line. -/
theorem cutArg_spec {l : List UInt8} (hl : (0 : UInt8) ∉ l) {k : Nat} (hk : k ≤ l.length) (m : List UInt8) :
    ∃ w, (cutArg (l ++ 0 :: m) k).1 = w ++ 0 :: m ∧ w.length = l.length ∧ w.take k = l.take k ∧
      (cutArg (l ++ 0 :: m) k).2 = argOf (l.drop k) ∧
      text ((w ++ 0 :: m).drop (k + ((l.drop k).length - (skipSpace (l.drop k)).length))) = nameOf (l.drop k) := by
  have hklen : (l.take k).length = k := List.length_take_of_le hk
  by_cases hc : colon ∈ l.drop k
  · obtain ⟨a, b, hab, ha⟩ := exists_first hc
    obtain ⟨hname, harg⟩ := line_colon ha b
    have hlen : l.length = k + (a ++ colon :: b).length := by
      rw [← hab, List.length_drop]
      omega
    refine ⟨l.take k ++ a ++ 0 :: b, ?_, ?_, ?_, ?_, ?_⟩
    · rw [cutArg_colon hl hk hab ha]
    · rw [hlen, List.length_append, List.length_append, List.length_append, hklen, List.length_cons, List.length_cons,
        Nat.add_assoc]
    · rw [List.append_assoc, List.take_append_of_le_length (by omega), List.take_take, Nat.min_self]
    · rw [cutArg_colon hl hk hab ha, hab, harg]
    · have ha0 : (0 : UInt8) ∉ l.take k ++ a := by
        intro h
        rcases List.mem_append.mp h with h | h
        · exact hl (List.mem_of_mem_take h)
        · exact hl (List.mem_of_mem_drop (i := k) (hab ▸ List.mem_append_left _ h))
      have hoff : (l.drop k).length - (skipSpace (l.drop k)).length = a.length - (skipSpace a).length := by
        rw [hab, skipSpace_append_colon, List.length_append, List.length_append, Nat.add_sub_add_right]
      have hle : k + (a.length - (skipSpace a).length) ≤ (l.take k ++ a).length := by
        rw [List.length_append, hklen]
        omega
      rw [hoff, hab, hname, List.append_assoc, List.cons_append, text_drop ha0 _ hle]
      rw [← List.drop_drop, List.drop_left' hklen, ← skipSpace_eq_drop]
  · obtain ⟨hname, harg⟩ := line_no_colon hc
    have hle : k + ((l.drop k).length - (skipSpace (l.drop k)).length) ≤ l.length := by
      rw [List.length_drop]
      omega
    refine ⟨l, by rw [cutArg_none hl hk hc], rfl, rfl, by rw [cutArg_none hl hk hc, harg], ?_⟩
    rw [text_drop hl m hle, ← List.drop_drop, ← skipSpace_eq_drop, hname]

/-- The move: the text behind the cut line stays, behind what precedes the string. -/
theorem memmove_spec {w r : List UInt8} {k : Nat} (hk : k ≤ w.length) (hw : (0 : UInt8) ∉ w.take k) (hr : (0 : UInt8) ∉ r)
    (m : List UInt8) :
    let mem := w ++ 0 :: (r ++ 0 :: m)
    let moved := memmove mem k (w.length + 1) (strlen mem (w.length + 1) + 1)
    text moved = w.take k ++ r ∧ moved.length = mem.length ∧ 0 ∈ moved := by
  intro mem moved
  have hdrop : mem.drop (w.length + 1) = r ++ 0 :: m := by
    rw [show mem = (w ++ [0]) ++ (r ++ 0 :: m) by simp [mem], List.drop_left' (by simp)]
  have hlen : strlen mem (w.length + 1) = r.length := by rw [strlen, hdrop, text_append_nul hr m]
  have hmoved : moved = store mem k (r ++ [0]) := by
    rw [show moved = memmove mem k (w.length + 1) (strlen mem (w.length + 1) + 1) from rfl, memmove, hdrop, hlen]
    congr 1
    rw [show r ++ 0 :: m = (r ++ [0]) ++ m by simp, List.take_left' (by simp)]
  have htake : mem.take k = w.take k := by rw [show mem = w ++ 0 :: (r ++ 0 :: m) from rfl, List.take_append_of_le_length hk]
  have hmem : moved = (w.take k ++ r) ++ 0 :: mem.drop (k + (r ++ [0]).length) := by
    rw [hmoved, store, htake]
    simp
  have h0 : (0 : UInt8) ∉ w.take k ++ r := by
    intro h
    rcases List.mem_append.mp h with h | h
    · exact hw h
    · exact hr h
  refine ⟨by rw [hmem, text_append_nul h0], ?_, by rw [hmem]; simp⟩
  rw [hmoved, store_length]
  simp only [mem, List.length_append, List.length_cons, List.length_nil]
  omega

/-- A line: the call does what the line says, and leaves the text behind it. -/
theorem processString_line (table : List (CmdFunc σ)) {mem l r : List UInt8} (hz : (0 : UInt8) ∈ mem)
    (ht : text mem = l ++ cr :: r) (hl : cr ∉ l) (fd : Int) (st : σ) :
    let p := processString table mem fd st
    (p.rv, p.st, p.lookup) = processLine table fd l st ∧ text p.string = residue l ++ r ∧
      p.string.length = mem.length ∧ 0 ∈ p.string := by
  intro p
  obtain ⟨m, hm⟩ := exists_text_append hz
  have h0 := nul_not_mem_text mem
  rw [ht] at hm h0
  have hl0 : (0 : UInt8) ∉ l := fun h => h0 (List.mem_append_left _ h)
  have hr0 : (0 : UInt8) ∉ r := fun h => h0 (List.mem_append_right _ (List.mem_cons_of_mem _ h))
  have hstop : strchr mem 0 cr = some l.length := by
    rw [hm, strchr_of_mem h0 m (Nat.zero_le _) (by rw [List.drop_zero]) hl, Nat.zero_add]
  have hset : mem.set l.length 0 = l ++ 0 :: (r ++ 0 :: m) := by
    rw [hm, List.append_assoc, List.set_append_right _ _ (Nat.le_refl _)]
    simp
  have hptr : (if (l ++ 0 :: (r ++ 0 :: m)).getD 0 0 = lf then 1 else 0) = (residue l).length := by
    cases l with
    | nil => simp [residue, lf]
    | cons c l => by_cases hc : c = lf <;> simp [residue, hc]
  have hk : (residue l).length ≤ l.length := (List.take_prefix _ l).length_le
  have htk : l.take (residue l).length = residue l := by
    rw [residue, List.length_take, List.take_eq_take_iff]
    omega
  obtain ⟨w, hw, hwl, hwt, harg, hname⟩ := cutArg_spec hl0 hk (r ++ 0 :: m)
  obtain ⟨hn, ha⟩ := nameOf_drop_residue l
  rw [ha] at harg
  rw [hn] at hname
  have hwk : (0 : UInt8) ∉ w.take (residue l).length := by
    rw [hwt]
    exact fun h => hl0 (List.mem_of_mem_take h)
  have hmove := memmove_spec (k := (residue l).length) (by omega) hwk hr0 m
  rw [hwl, hwt, htk] at hmove
  have hlen : (w ++ 0 :: (r ++ 0 :: m)).length = mem.length := by
    rw [hm]
    simp [hwl]
  obtain ⟨hmt, hml, hmz⟩ := hmove
  have hp : p = processString table mem fd st := rfl
  rw [processString, hstop] at hp
  simp only [hset, hptr, hw, harg, strlen, text_drop hl0 _ hk] at hp
  rw [hname] at hp
  rw [strlen] at hmt hml hmz
  by_cases hne : nameOf l = []
  · rw [hne, List.length_nil, if_neg (Nat.lt_irrefl 0)] at hp
    rw [hp]
    exact ⟨by rw [processLine, if_pos hne], hmt, hml.trans hlen, hmz⟩
  · rw [if_pos (List.length_pos_of_ne_nil hne)] at hp
    rw [hp]
    exact ⟨by rw [processLine, if_neg hne], hmt, hml.trans hlen, hmz⟩

/-! ## The state -/

/-- What every function of the table does to the state, a search of the table does. -/
theorem scan_st {R : σ → σ → Prop} (hrefl : ∀ s, R s s) {table : List (CmdFunc σ)}
    (hfun : ∀ e ∈ table, ∀ fd arg s, R s (e.func fd arg s).2) (fd : Int) (cmd : List UInt8) (arg : Option (List UInt8)) (st : σ) :
    R st (scan fd cmd arg st table).2 := by
  induction table with
  | nil => exact hrefl st
  | cons e table ih =>
    rw [scan]
    split
    · exact hfun e List.mem_cons_self fd arg st
    · exact ih fun e he => hfun e (List.mem_cons_of_mem _ he)

/-- What every function of the table does to the state, a call does, whatever the buffer. -/
theorem processString_st {R : σ → σ → Prop} (hrefl : ∀ s, R s s) {table : List (CmdFunc σ)}
    (hfun : ∀ e ∈ table, ∀ fd arg s, R s (e.func fd arg s).2) (mem : List UInt8) (fd : Int) (st : σ) :
    R st (processString table mem fd st).st := by
  cases h : strchr mem 0 cr with
  | none =>
    rw [processString, h]
    exact hrefl st
  | some e =>
    simp only [processString, h]
    generalize (if (mem.set e 0).getD 0 0 = lf then 1 else 0) = ptr
    split
    · exact scan_st hrefl hfun _ _ _ _
    · exact hrefl st

end CmdParse

end PowerMonitor
