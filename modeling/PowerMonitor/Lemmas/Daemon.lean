import PowerMonitor.Daemon.Main
import PowerMonitor.Lemmas.CmdParse
import PowerMonitor.Lib.Lines

/-!
# The daemon's receive loop on lines

The text of the buffer is a stream cut at carriage returns. The inner loop goes on while lines are in the table: `drain_text` says
which lines it takes (`taken`), what it does with them, and what stays in the buffer.
-/

namespace PowerMonitor

open CString CmdParse

/-- The terminator of the daemon's lines. -/
def isCr (c : UInt8) : Bool := c = cr

namespace Daemon

/-- The lines of a stream that a carriage return has ended. -/
def lines (t : List UInt8) : List (List UInt8) := Lines.pieces isCr t

/-- The unfinished line of a stream. -/
def partialLine (t : List UInt8) : List UInt8 := Lines.rest isCr t

/-- The line's command begins with the name of an entry of the table. -/
def Known (l : List UInt8) : Prop := ∃ e ∈ PMon.cmdTable, e.cmd <+: nameOf l

instance (l : List UInt8) : Decidable (Known l) := inferInstanceAs (Decidable (∃ e ∈ PMon.cmdTable, e.cmd <+: nameOf l))

/-- What a line looks up in the table. -/
def lookupOf (l : List UInt8) : Option (List UInt8 × Option (List UInt8)) :=
  if nameOf l = [] then none else some (nameOf l, argOf l)

/-- What a line does to the shared memory. -/
def handleLine (fd : Int) (s : PMon) (l : List UInt8) : PMon := (processLine PMon.cmdTable fd l s).2.1

/-- The lines the inner loop takes: up to the first one that is not in the table. -/
def taken : List (List UInt8) → List (List UInt8)
  | [] => []
  | l :: ls => if Known l then l :: taken ls else [l]

/-- Lines, each with its carriage return, and an unfinished line. -/
def joined (ls : List (List UInt8)) (p : List UInt8) : List UInt8 := ls.flatMap (· ++ [cr]) ++ p

/-- What the inner loop leaves of a buffer that holds the line feed `nl`, if there is one, the lines `ls` and the unfinished line
`p`. -/
def leave (nl : List UInt8) : List (List UInt8) → List UInt8 → List UInt8
  | [], p => nl ++ p
  | l :: ls, p => if Known l then leave (residue (nl ++ l)) ls p else residue (nl ++ l) ++ joined ls p

/-! ## The table -/

theorem processLine_lookup (fd : Int) (l : List UInt8) (s : PMon) :
    (processLine PMon.cmdTable fd l s).2.2 = lookupOf l := by
  unfold processLine lookupOf
  split <;> rfl

theorem receiveVoltage_rv (fd : Int) (buf : Option (List UInt8)) (s : PMon) : 0 ≤ (PMon.receiveVoltage fd buf s).1 := by
  cases buf with
  | none => simp [PMon.receiveVoltage]
  | some buf =>
    unfold PMon.receiveVoltage
    dsimp only
    split
    · simp
    · split <;> simp

theorem receiveCurrent_rv (fd : Int) (buf : Option (List UInt8)) (s : PMon) : 0 ≤ (PMon.receiveCurrent fd buf s).1 := by
  cases buf <;> simp [PMon.receiveCurrent]

/-- The result of a line tells whether it is in the table. -/
theorem processLine_rv (fd : Int) (l : List UInt8) (s : PMon) : 0 ≤ (processLine PMon.cmdTable fd l s).1 ↔ Known l := by
  have hv : strncmp (bytes "Voltage") (nameOf l) (bytes "Voltage").length = 0 ↔ bytes "Voltage" <+: nameOf l :=
    strncmp_eq_zero_iff (by decide) _
  have hc : strncmp (bytes "current") (nameOf l) (bytes "current").length = 0 ↔ bytes "current" <+: nameOf l :=
    strncmp_eq_zero_iff (by decide) _
  have hk : Known l ↔ bytes "Voltage" <+: nameOf l ∨ bytes "current" <+: nameOf l := by
    simp [Known, PMon.cmdTable]
  rw [hk]
  unfold processLine
  split
  · next hn =>
    rw [hn]
    simp only [List.prefix_nil]
    decide
  · simp only [PMon.cmdTable, scan]
    by_cases h1 : bytes "Voltage" <+: nameOf l
    · simp only [hv.mpr h1, if_true, receiveVoltage_rv, h1, true_or]
    · by_cases h2 : bytes "current" <+: nameOf l
      · simp only [hv.not.mpr h1, if_false, hc.mpr h2, if_true, receiveCurrent_rv, h2, or_true]
      · simp [hv.not.mpr h1, hc.not.mpr h2, h1, h2]

/-! ## The inner loop -/

/-- The inner loop takes every line exactly when all but the last are in the table. -/
theorem taken_eq_iff (ls : List (List UInt8)) : taken ls = ls ↔ ∀ l ∈ ls.dropLast, Known l := by
  induction ls with
  | nil => simp [taken]
  | cons l ls ih =>
    cases ls with
    | nil =>
      unfold taken
      split <;> simp [taken]
    | cons m ls =>
      rw [List.dropLast_cons_cons, List.forall_mem_cons, ← ih]
      by_cases hk : Known l
      · rw [taken, if_pos hk]
        simp [hk]
      · rw [taken, if_neg hk]
        simp [hk]

theorem isCr_false_iff (c : UInt8) : isCr c = false ↔ c ≠ cr := by simp [isCr]

theorem free_iff (l : List UInt8) : Lines.Free isCr l ↔ cr ∉ l := by
  constructor
  · intro h hmem
    exact absurd (h cr hmem) (by decide)
  · intro h c hc
    rw [isCr_false_iff]
    rintro rfl
    exact h hc

/-- The buffer holds a string whose text is at most a line feed and then `u`. -/
def Holds (d : Daemon) (u : List UInt8) : Prop :=
  (0 : UInt8) ∈ d.readBuf ∧ ∃ nl, (nl = [] ∨ nl = [lf]) ∧ text d.readBuf = nl ++ u

theorem blank_of_residue {nl : List UInt8} (h : nl = [] ∨ nl = [lf]) : Blank nl := by
  rcases h with rfl | rfl <;> decide

/-- A line feed at most in front of a stream adds no carriage return. -/
theorem cr_mem_text {d : Daemon} {u : List UInt8} (h : d.Holds u) : cr ∈ text d.readBuf ↔ cr ∈ u := by
  obtain ⟨-, nl, hnl, ht⟩ := h
  rw [ht, List.mem_append]
  rcases hnl with rfl | rfl <;> simp [cr, lf]

/-- A call on a buffer without a carriage return fails and changes nothing. -/
theorem processString_free {d : Daemon} (h : cr ∉ text d.readBuf) : d.processString = (-1, d) := by
  simp [processString, processString_none _ h]

/-- A call takes the first line of the buffer. -/
theorem processString_stop {d : Daemon} {nl l r : List UInt8} (hz : (0 : UInt8) ∈ d.readBuf) (hnl : nl = [] ∨ nl = [lf])
    (ht : text d.readBuf = nl ++ (l ++ cr :: r)) (hl : cr ∉ l) :
    (0 ≤ d.processString.1 ↔ Known l) ∧ (0 : UInt8) ∈ d.processString.2.readBuf ∧
      text d.processString.2.readBuf = residue (nl ++ l) ++ r ∧ d.processString.2.serialFd = d.serialFd ∧
      d.processString.2.readBuf.length = d.readBuf.length ∧ d.processString.2.pmon = handleLine d.serialFd d.pmon l ∧
      d.processString.2.lookups = d.lookups ++ [l].filterMap lookupOf := by
  have hcr : cr ∉ nl ++ l := by
    rw [List.mem_append]
    rcases hnl with rfl | rfl <;> simp [cr, lf] <;> exact hl
  obtain ⟨hres, htext, hlen, hz'⟩ := processString_line PMon.cmdTable hz (by rw [ht, List.append_assoc]) hcr d.serialFd d.pmon
  rw [processLine_append (blank_of_residue hnl)] at hres
  have hlk : (CmdParse.processString PMon.cmdTable d.readBuf d.serialFd d.pmon).lookup = lookupOf l :=
    (congrArg (fun x => x.2.2) hres).trans (processLine_lookup _ _ _)
  refine ⟨?_, hz', htext, rfl, hlen, congrArg (fun x => x.2.1) hres, ?_⟩
  · rw [← processLine_rv d.serialFd l d.pmon]
    exact iff_of_eq (congrArg (fun x => 0 ≤ x.1) hres)
  · rw [processString, hlk]
    cases h : lookupOf l <;> simp [h]

theorem drain_neg (fuel : Nat) {rv : Int} (h : ¬ 0 ≤ rv) (d : Daemon) : drain fuel rv d = some d := by
  cases fuel <;> rw [drain, if_neg h]

/-- A stream is its lines and its unfinished line. -/
theorem joined_lines (u : List UInt8) : joined (lines u) (partialLine u) = u := by
  unfold lines partialLine
  induction u using Lines.line_induction (p := isCr) with
  | free l hl => simp [Lines.pieces_free hl, Lines.rest_of_free hl, joined]
  | stop l c r hl hc ih =>
    obtain rfl : c = cr := by simpa [isCr] using hc
    rw [Lines.pieces_stop hl hc, Lines.rest_stop hl hc]
    conv_rhs => rw [← ih]
    simp [joined]

/-- Where the loop takes every line, at most a line feed is left in front of the unfinished one. -/
theorem leave_done {nl : List UInt8} (hnl : nl = [] ∨ nl = [lf]) {ls : List (List UInt8)} (h : taken ls = ls) (p : List UInt8) :
    ∃ nl', (nl' = [] ∨ nl' = [lf]) ∧ leave nl ls p = nl' ++ p := by
  induction ls generalizing nl with
  | nil => exact ⟨nl, hnl, rfl⟩
  | cons l ls ih =>
    by_cases hk : Known l
    · rw [taken, if_pos hk] at h
      rw [leave, if_pos hk]
      exact ih (residue_cases _) (List.cons.inj h).2
    · rw [taken, if_neg hk] at h
      obtain rfl : ls = [] := ((List.cons.inj h).2).symm
      exact ⟨residue (nl ++ l), residue_cases _, by rw [leave, if_neg hk]; rfl⟩

/-- Where it leaves a line behind, it leaves a carriage return. -/
theorem leave_left (nl : List UInt8) {ls : List (List UInt8)} (h : taken ls ≠ ls) (p : List UInt8) : cr ∈ leave nl ls p := by
  induction ls generalizing nl with
  | nil => exact absurd rfl h
  | cons l ls ih =>
    by_cases hk : Known l
    · rw [taken, if_pos hk] at h
      rw [leave, if_pos hk]
      exact ih _ fun he => h (by rw [he])
    · rw [taken, if_neg hk] at h
      rw [leave, if_neg hk]
      cases ls with
      | nil => exact absurd rfl h
      | cons m ls => simp [joined]

/-- What the inner loop does with a buffer that holds a stream: it takes lines up to the first that is not in the table, in
order. A carriage return stays in the buffer when it leaves a line behind; otherwise the unfinished line stays. -/
structure Drained (d : Daemon) (u : List UInt8) (d' : Daemon) : Prop where
  serialFd : d'.serialFd = d.serialFd
  length : d'.readBuf.length = d.readBuf.length
  pmon : d'.pmon = (taken (lines u)).foldl (handleLine d.serialFd) d.pmon
  lookups : d'.lookups = d.lookups ++ (taken (lines u)).filterMap lookupOf
  left : taken (lines u) ≠ lines u → cr ∈ text d'.readBuf
  done : taken (lines u) = lines u → d'.Holds (partialLine u)

/-- The inner loop, with the text it leaves. -/
theorem drain_text (fuel : Nat) : ∀ {d : Daemon} {nl u : List UInt8} {rv : Int}, 0 ≤ rv → (0 : UInt8) ∈ d.readBuf →
    (nl = [] ∨ nl = [lf]) → text d.readBuf = nl ++ u → (lines u).length < fuel →
    ∃ d', drain fuel rv d = some d' ∧ d'.serialFd = d.serialFd ∧ d'.readBuf.length = d.readBuf.length ∧
      d'.pmon = (taken (lines u)).foldl (handleLine d.serialFd) d.pmon ∧
      d'.lookups = d.lookups ++ (taken (lines u)).filterMap lookupOf ∧ (0 : UInt8) ∈ d'.readBuf ∧
      text d'.readBuf = leave nl (lines u) (partialLine u) := by
  induction fuel with
  | zero =>
    intro d nl u rv _ _ _ _ hf
    exact absurd hf (Nat.not_lt_zero _)
  | succ fuel ih =>
    intro d nl u rv hrv hz hnl ht hf
    rw [drain, if_pos hrv]
    rcases Lines.free_or_stop (p := isCr) u with hfree | ⟨l, c, r, rfl, hl, hc⟩
    · have hcr : cr ∉ text d.readBuf := (cr_mem_text ⟨hz, nl, hnl, ht⟩).not.mpr ((free_iff u).mp hfree)
      have hlines : lines u = [] := Lines.pieces_free hfree
      rw [processString_free hcr, drain_neg fuel (show ¬ (0 : Int) ≤ -1 by decide)]
      refine ⟨d, rfl, rfl, rfl, by simp [hlines, taken], by simp [hlines, taken], hz, ?_⟩
      rw [hlines, partialLine, Lines.rest_of_free hfree, leave, ht]
    · obtain rfl : c = cr := by simpa [isCr] using hc
      have hlines : lines (l ++ cr :: r) = l :: lines r := Lines.pieces_stop hl hc r
      have hpart : partialLine (l ++ cr :: r) = partialLine r := Lines.rest_stop hl hc r
      obtain ⟨hk, hz', ht', hfd, hlen, hpm, hlk⟩ := processString_stop hz hnl ht ((free_iff l).mp hl)
      rw [hlines, hpart]
      by_cases hknown : Known l
      · obtain ⟨d', hd', hfd', hlen', hpm', hlk', hz'', ht''⟩ := ih (hk.mpr hknown) hz' (residue_cases _) ht'
          (by rw [hlines, List.length_cons] at hf; omega)
        refine ⟨d', hd', hfd'.trans hfd, hlen'.trans hlen, ?_, ?_, hz'', ?_⟩
        · rw [hpm', taken, if_pos hknown, List.foldl_cons, hpm, hfd]
        · rw [hlk', taken, if_pos hknown, hlk, List.append_assoc, ← List.filterMap_append]
          rfl
        · rw [ht'', leave, if_pos hknown]
      · -- the loop leaves behind what follows a line that is not in the table
        refine ⟨d.processString.2, drain_neg fuel (hk.not.mpr hknown) _, hfd, hlen, ?_, ?_, hz', ?_⟩
        · rw [hpm, taken, if_neg hknown, List.foldl_cons, List.foldl_nil]
        · rw [hlk, taken, if_neg hknown]
        · rw [ht', leave, if_neg hknown, joined_lines]

theorem drain_spec (fuel : Nat) {d : Daemon} {u : List UInt8} {rv : Int} (hrv : 0 ≤ rv) (h : d.Holds u)
    (hf : (lines u).length < fuel) : ∃ d', drain fuel rv d = some d' ∧ d.Drained u d' := by
  obtain ⟨hz, nl, hnl, ht⟩ := h
  obtain ⟨d', hd', hfd, hlen, hpm, hlk, hz', ht'⟩ := drain_text fuel hrv hz hnl ht hf
  refine ⟨d', hd', hfd, hlen, hpm, hlk, fun hne => ?_, fun he => ?_⟩
  · rw [ht']
    exact leave_left nl hne _
  · obtain ⟨nl', hnl', hl⟩ := leave_done hnl he (partialLine u)
    exact ⟨hz', nl', hnl', ht'.trans hl⟩

/-! ## Reading into the buffer -/

/-- The bytes of a read go behind the text, and their NUL behind them, where there is room for both. -/
theorem readBuf_spec {mem data : List UInt8} (hz : (0 : UInt8) ∈ mem) (hfit : (text mem).length + data.length < mem.length) :
    ∃ buf, (store mem (text mem).length data).set ((text mem).length + data.length) 0 = buf ∧ buf.length = mem.length ∧
      (0 : UInt8) ∈ buf ∧ text buf = text (text mem ++ data) := by
  obtain ⟨m, hm⟩ := exists_text_append hz
  have hml : m.length + 1 + (text mem).length = mem.length := by
    conv_rhs => rw [hm]
    simp only [List.length_append, List.length_cons]
    omega
  -- the bytes overwrite the NUL and what follows
  have hstore : store mem (text mem).length data = text mem ++ data ++ (0 :: m).drop data.length := by
    have : ∀ t : List UInt8, store (t ++ 0 :: m) t.length data = t ++ data ++ (0 :: m).drop data.length := by
      intro t
      rw [store, List.take_left, List.drop_length_add_append]
    rw [← this, ← hm]
  have hrest : ∃ b m', (0 :: m).drop data.length = b :: m' := by
    refine List.exists_cons_of_ne_nil ?_
    intro he
    have := congrArg List.length he
    simp only [List.length_drop, List.length_cons, List.length_nil] at this
    omega
  obtain ⟨b, m', hb⟩ := hrest
  refine ⟨(text mem ++ data) ++ 0 :: m', ?_, ?_, by simp, text_append_zero _ _⟩
  · rw [hstore, hb, List.set_append_right _ _ (by simp)]
    simp
  · have hm' := congrArg List.length hb
    simp only [List.length_drop, List.length_cons] at hm'
    simp only [List.length_append, List.length_cons]
    omega

/-- A read that returns bytes the buffer has room for: the inner loop runs on the text with the bytes behind it. -/
theorem receiveData_drain {d : Daemon} {c : List UInt8} (hpos : c.length > 0) (hz : (0 : UInt8) ∈ d.readBuf)
    (hfit : (text d.readBuf).length + c.length < d.readBuf.length) :
    ∃ buf, d.receiveData c = drain (buf.length + 1) c.length { d with readBuf := buf } ∧ buf.length = d.readBuf.length ∧
      (0 : UInt8) ∈ buf ∧ text buf = text (text d.readBuf ++ c) := by
  obtain ⟨buf, he, hbuf⟩ := readBuf_spec hz hfit
  refine ⟨buf, ?_, hbuf⟩
  have hlen : strlen d.readBuf 0 = (text d.readBuf).length := rfl
  rw [receiveData, if_pos hpos]
  simp only [hlen, he]

/-- There are fewer lines than cells. -/
theorem lines_length_lt {buf nl u : List UInt8} (h : text buf = nl ++ u) : (lines u).length < buf.length + 1 := by
  have hp := Lines.pieces_length_le (p := isCr) u
  have htl := text_length_le buf
  rw [h, List.length_append] at htl
  rw [lines]
  omega

end Daemon

end PowerMonitor
