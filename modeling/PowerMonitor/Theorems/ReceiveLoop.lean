import PowerMonitor.Lemmas.Daemon
import Mathlib.Data.List.Induction

/-!
# The daemon's receive loop over a stream

The serial stream arrives in chunks, one for each read. The loop that follows a read ends at the first line that is not in the
table, also when more lines are complete, and a line whose command is empty is not looked up. The lines of a chunk are all taken
exactly when none but the last is unknown.
-/

namespace PowerMonitor

open CString CmdParse

namespace Daemon

/-- The reads of a run, each with its chunk. -/
def receiveAll : List (List UInt8) → Daemon → Option Daemon := fun cs d => cs.foldlM (fun d c => d.receiveData c) d

/-- A daemon whose receive buffer is empty and that has looked nothing up. -/
structure Fresh (d : Daemon) : Prop where
  length : d.readBuf.length = readBufSize
  empty : d.readBuf.head? = some 0
  lookups : d.lookups = []

/-- A chunk fits behind the text of the buffer, with room for its NUL. -/
def Fits (d : Daemon) (c : List UInt8) : Prop := strlen d.readBuf 0 + c.length < readBufSize

/-- What the lines of a stream should look up: each line that is not blank, once and in order. -/
def expected (s : List UInt8) : List (List UInt8 × Option (List UInt8)) :=
  ((lines s).filter fun l => ¬ Blank l).map fun l => (nameOf l, argOf l)

/-- The law of the loop after the stream `s`: no carriage return is left in the buffer, and the lines have been looked up. -/
def LoopLaw (s : List UInt8) (d : Daemon) : Prop := cr ∉ text d.readBuf ∧ d.lookups = expected s

/-- Of the lines that the chunk `c` completes behind the stream `s`, all but the last are in the table, and none that is not blank
has an empty command. -/
def ChunkOk (s c : List UInt8) : Prop :=
  (∀ l ∈ (lines (partialLine s ++ c)).dropLast, Known l) ∧ ∀ l ∈ lines (partialLine s ++ c), Blank l ∨ nameOf l ≠ []

instance (s c : List UInt8) : Decidable (ChunkOk s c) := inferInstanceAs (Decidable (_ ∧ _))

/-! ## Lookups -/

theorem nameOf_blank {l : List UInt8} (h : Blank l) : nameOf l = [] := by rw [nameOf, skipSpace_blank h, List.takeWhile_nil]

theorem lookups_length_le (ls : List (List UInt8)) :
    (ls.filterMap lookupOf).length ≤ (ls.filter fun l => ¬ Blank l).length := by
  induction ls with
  | nil => simp
  | cons l ls ih =>
    by_cases hb : Blank l
    · simpa [hb, lookupOf, nameOf_blank hb] using ih
    · by_cases hn : nameOf l = []
      · simp [hb, lookupOf, hn]
        simpa using Nat.le_succ_of_le ih
      · simpa [hb, lookupOf, hn] using ih

/-- The lines looked up are the lines that are not blank exactly when none of these has an empty command. -/
theorem lookups_eq_iff (ls : List (List UInt8)) :
    ls.filterMap lookupOf = (ls.filter fun l => ¬ Blank l).map (fun l => (nameOf l, argOf l)) ↔
      ∀ l ∈ ls, Blank l ∨ nameOf l ≠ [] := by
  induction ls with
  | nil => simp
  | cons l ls ih =>
    rw [List.forall_mem_cons, ← ih]
    by_cases hb : Blank l
    · simp [hb, lookupOf, nameOf_blank hb]
    · by_cases hn : nameOf l = []
      · have hlen := lookups_length_le ls
        simp only [hb, hn, ne_eq, not_true_eq_false, or_self, false_and, iff_false]
        intro he
        have := congrArg List.length he
        simp [hb, lookupOf, hn] at this
        simp at hlen
        omega
      · simp [hb, lookupOf, hn]

/-! ## Reads -/

/-- A read: the chunk joins the text, and the loop takes lines of it. -/
theorem receiveData_spec {d : Daemon} {u c : List UInt8} (hd : d.Holds u) (hlen : d.readBuf.length = readBufSize)
    (hfit : d.Fits c) (hc : (0 : UInt8) ∉ c) (hu : cr ∉ u) : ∃ d', d.receiveData c = some d' ∧ d.Drained (u ++ c) d' := by
  by_cases hpos : c.length > 0
  · obtain ⟨hz, nl, hnl, ht⟩ := hd
    obtain ⟨buf, he, hlen', hz', ht'⟩ := receiveData_drain hpos hz (by rw [hlen]; exact hfit)
    have hn : (0 : UInt8) ∉ text d.readBuf ++ c := by
      rw [List.mem_append]
      rintro (h | h)
      · exact nul_not_mem_text _ h
      · exact hc h
    rw [text_of_not_mem hn, ht, List.append_assoc] at ht'
    obtain ⟨d', hd', hdr⟩ := drain_spec _ (d := { d with readBuf := buf }) (Int.natCast_nonneg c.length) ⟨hz', nl, hnl, ht'⟩
      (lines_length_lt ht')
    exact ⟨d', he.trans hd', hdr.serialFd, hdr.length.trans hlen', hdr.pmon, hdr.lookups, hdr.left, hdr.done⟩
  · obtain rfl : c = [] := List.length_eq_zero_iff.mp (by omega)
    have hfree : Lines.Free isCr u := (free_iff u).mpr hu
    rw [List.append_nil]
    refine ⟨d, by simp [receiveData], rfl, rfl, ?_, ?_, ?_, ?_⟩
    · simp [lines, Lines.pieces_free hfree, taken]
    · simp [lines, Lines.pieces_free hfree, taken]
    · simp [lines, Lines.pieces_free hfree, taken]
    · intro _
      rwa [partialLine, Lines.rest_of_free hfree]

/-- The state after a stream whose reads have all gone well. -/
structure Caught (s : List UInt8) (d : Daemon) : Prop where
  length : d.readBuf.length = readBufSize
  holds : d.Holds (partialLine s)
  lookups : d.lookups = expected s

theorem expected_append (s c : List UInt8) :
    expected (s ++ c) = expected s ++ ((lines (partialLine s ++ c)).filter fun l => ¬ Blank l).map fun l =>
      (nameOf l, argOf l) := by
  rw [expected, lines, Lines.pieces_append, List.filter_append, List.map_append]
  rfl

theorem cr_not_mem_partialLine (s : List UInt8) : cr ∉ partialLine s := (free_iff _).mp (Lines.rest_free s)

/-- Step lemma: the law holds after a read exactly when the chunk is in order, and then the state is caught up again. -/
theorem receiveData_law {s c : List UInt8} {d : Daemon} (hd : d.Caught s) (hfit : d.Fits c) (hc : (0 : UInt8) ∉ c) :
    ∃ d', d.receiveData c = some d' ∧ (d'.LoopLaw (s ++ c) ↔ ChunkOk s c) ∧ (ChunkOk s c → d'.Caught (s ++ c)) := by
  obtain ⟨d', hd', hdr⟩ := receiveData_spec hd.holds hd.length hfit hc (cr_not_mem_partialLine s)
  have hpart : partialLine (s ++ c) = partialLine (partialLine s ++ c) := Lines.rest_append s c
  have hlook : taken (lines (partialLine s ++ c)) = lines (partialLine s ++ c) →
      (d'.lookups = expected (s ++ c) ↔ ∀ l ∈ lines (partialLine s ++ c), Blank l ∨ nameOf l ≠ []) := by
    intro ht
    rw [hdr.lookups, ht, expected_append, hd.lookups, List.append_cancel_left_eq, lookups_eq_iff]
  refine ⟨d', hd', ?_, ?_⟩
  · constructor
    · rintro ⟨hcr, hlk⟩
      have ht : taken (lines (partialLine s ++ c)) = lines (partialLine s ++ c) := by
        by_contra hne
        exact hcr (hdr.left hne)
      exact ⟨(taken_eq_iff _).mp ht, (hlook ht).mp hlk⟩
    · rintro ⟨hk, hn⟩
      have ht := (taken_eq_iff _).mpr hk
      exact ⟨(cr_mem_text (hdr.done ht)).not.mpr (cr_not_mem_partialLine _), (hlook ht).mpr hn⟩
  · rintro ⟨hk, hn⟩
    have ht := (taken_eq_iff _).mpr hk
    exact ⟨hdr.length.trans hd.length, hpart ▸ hdr.done ht, (hlook ht).mpr hn⟩

theorem Fresh.caught {d : Daemon} (h : d.Fresh) : d.Caught [] := by
  obtain ⟨m, hm⟩ : ∃ m, d.readBuf = 0 :: m := by
    have he := h.empty
    cases hb : d.readBuf with
    | nil => simp [hb] at he
    | cons a m =>
      rw [hb, List.head?_cons, Option.some.injEq] at he
      exact ⟨m, by rw [he]⟩
  exact ⟨h.length, ⟨by simp [hm], [], Or.inl rfl, by simp [hm, text, partialLine, Lines.rest, Lines.split]⟩,
    by simp [h.lookups, expected, lines, Lines.pieces, Lines.split]⟩

theorem initial_fresh {buf : List UInt8} (hl : buf.length = readBufSize) (h0 : buf.head? = some 0) : (initial buf).Fresh :=
  ⟨hl, h0, rfl⟩

/-- A chunk shorter than the buffer fits into an empty one. -/
theorem initial_fits {buf c : List UInt8} (h0 : buf.head? = some 0) (hc : c.length < readBufSize) : (initial buf).Fits c := by
  cases buf with
  | nil => simp at h0
  | cons a m =>
    obtain rfl : a = 0 := by simpa using h0
    simpa [Fits, strlen, initial, text] using hc

/-- A run of one read that the buffer has room for. -/
theorem single_fits {buf c : List UInt8} (h0 : buf.head? = some 0) (hc : c.length < readBufSize) :
    ∀ pre x d, pre ++ [x] <+: [c] → receiveAll pre (initial buf) = some d → d.Fits x := by
  intro pre x d hp hd
  cases pre with
  | nil =>
    obtain rfl : x = c := (List.cons_prefix_cons.mp hp).1
    obtain rfl : initial buf = d := by simpa [receiveAll] using hd
    exact initial_fits h0 hc
  | cons a pre =>
    have hlen := hp.length_le
    simp at hlen

/-- Data shorter than what is left behind the text of the buffer fits. -/
theorem Holds.fits {d : Daemon} {u c : List UInt8} (h : d.Holds u) (hlen : u.length + 1 + c.length < readBufSize) : d.Fits c := by
  obtain ⟨-, nl, hnl, ht⟩ := h
  have htext : strlen d.readBuf 0 = nl.length + u.length := (congrArg List.length ht).trans List.length_append
  have hnl' : nl.length ≤ 1 := by rcases hnl with rfl | rfl <;> decide
  rw [Fits, htext]
  omega

theorem receiveAll_snoc (cs : List (List UInt8)) (c : List UInt8) (d : Daemon) :
    receiveAll (cs ++ [c]) d = (receiveAll cs d).bind fun d => d.receiveData c := by
  simp [receiveAll, List.foldlM_append]

/-- Run lemma: over reads whose chunks are all in order the daemon keeps up with the stream. -/
theorem receiveAll_caught {d : Daemon} (hd : d.Fresh) (cs : List (List UInt8)) (hnul : ∀ c ∈ cs, (0 : UInt8) ∉ c)
    (hfit : ∀ pre c d', pre ++ [c] <+: cs → receiveAll pre d = some d' → d'.Fits c)
    (hok : ∀ pre c, pre ++ [c] <+: cs → ChunkOk pre.flatten c) :
    ∃ d', receiveAll cs d = some d' ∧ d'.Caught cs.flatten := by
  induction cs using List.reverseRecOn with
  | nil => exact ⟨d, rfl, hd.caught⟩
  | append_singleton cs c ih =>
    obtain ⟨d₁, hd₁, hc₁⟩ := ih (fun x hx => hnul x (List.mem_append_left _ hx))
      (fun pre x d' hp => hfit pre x d' (hp.trans (List.prefix_append _ _)))
      (fun pre x hp => hok pre x (hp.trans (List.prefix_append _ _)))
    obtain ⟨d₂, hd₂, -, hc₂⟩ := receiveData_law hc₁ (hfit cs c d₁ (List.prefix_refl _) hd₁)
      (hnul c (List.mem_append_right _ List.mem_cons_self))
    refine ⟨d₂, by rw [receiveAll_snoc, hd₁, Option.bind_some, hd₂], ?_⟩
    rw [List.flatten_append, List.flatten_singleton]
    exact hc₂ (hok cs c (List.prefix_refl _))

/-- Reads that are shorter than the buffer in all fit. -/
theorem receiveAll_fits {d : Daemon} (hd : d.Fresh) (cs : List (List UInt8)) (hnul : ∀ c ∈ cs, (0 : UInt8) ∉ c)
    (hok : ∀ pre c, pre ++ [c] <+: cs → ChunkOk pre.flatten c) (hlen : cs.flatten.length + 1 < readBufSize) :
    ∀ pre c d', pre ++ [c] <+: cs → receiveAll pre d = some d' → d'.Fits c := by
  induction cs using List.reverseRecOn with
  | nil =>
    intro pre c d' hp
    simp at hp
  | append_singleton cs c ih =>
    rw [List.flatten_append, List.flatten_singleton, List.length_append] at hlen
    have hok' : ∀ pre x, pre ++ [x] <+: cs → ChunkOk pre.flatten x := fun pre x hp => hok pre x (hp.trans (List.prefix_append _ _))
    have hnul' : ∀ x ∈ cs, (0 : UInt8) ∉ x := fun x hx => hnul x (List.mem_append_left _ hx)
    have hfit := ih hnul' hok' (by omega)
    intro pre x d' hp hd'
    rcases List.prefix_concat_iff.mp hp with he | hp
    · obtain ⟨rfl, hx⟩ := List.append_inj' he rfl
      obtain rfl : x = c := (List.cons.inj hx).1
      obtain ⟨d₁, hd₁, hc₁⟩ := receiveAll_caught hd pre hnul' hfit hok'
      obtain rfl : d₁ = d' := Option.some.inj (hd₁.symm.trans hd')
      have hsuf : partialLine pre.flatten <:+ pre.flatten := ⟨_, joined_lines pre.flatten⟩
      have hpart := hsuf.length_le
      exact hc₁.holds.fits (by omega)
    · exact hfit pre x d' hp hd'

/-- Where a read whose chunk is not in order comes first, the law fails after it. -/
theorem receiveAll_law_iff {d : Daemon} (hd : d.Fresh) (cs : List (List UInt8)) (hnul : ∀ c ∈ cs, (0 : UInt8) ∉ c)
    (hfit : ∀ pre c d', pre ++ [c] <+: cs → receiveAll pre d = some d' → d'.Fits c)
    (hlaw : ∀ pre, pre <+: cs → ∃ d', receiveAll pre d = some d' ∧ d'.LoopLaw pre.flatten) :
    ∀ pre c, pre ++ [c] <+: cs → ChunkOk pre.flatten c := by
  induction cs using List.reverseRecOn with
  | nil =>
    intro pre c hp
    simp at hp
  | append_singleton cs c ih =>
    have hok := ih (fun x hx => hnul x (List.mem_append_left _ hx))
      (fun pre x d' hp => hfit pre x d' (hp.trans (List.prefix_append _ _)))
      (fun pre hp => hlaw pre (hp.trans (List.prefix_append _ _)))
    intro pre x hp
    rcases List.prefix_concat_iff.mp hp with he | hp
    · obtain ⟨rfl, rfl⟩ := List.append_singleton_inj.mp he
      obtain ⟨d₁, hd₁, hc₁⟩ := receiveAll_caught hd pre (fun y hy => hnul y (List.mem_append_left _ hy))
        (fun q y d' hq => hfit q y d' (hq.trans (List.prefix_append _ _))) hok
      obtain ⟨d₂, hd₂, hiff, -⟩ := receiveData_law hc₁ (hfit pre x d₁ (List.prefix_refl _) hd₁)
        (hnul x (List.mem_append_right _ List.mem_cons_self))
      obtain ⟨d₃, hd₃, hl₃⟩ := hlaw (pre ++ [x]) (List.prefix_refl _)
      rw [receiveAll_snoc, hd₁, Option.bind_some, hd₂, Option.some.injEq] at hd₃
      rw [← hd₃, List.flatten_append, List.flatten_singleton] at hl₃
      exact hiff.mp hl₃
    · exact hok pre x hp

end Daemon

/-- After every read of a run no carriage return is left in the buffer and every line that is not blank has been looked up, once
and in order, exactly when of the lines each chunk completes all but the last are in the table, and none that is not blank has an
empty command. -/
theorem receive_loop_iff {d : Daemon} (hd : d.Fresh) (cs : List (List UInt8)) (hnul : ∀ c ∈ cs, (0 : UInt8) ∉ c)
    (hfit : ∀ pre c d', pre ++ [c] <+: cs → Daemon.receiveAll pre d = some d' → d'.Fits c) :
    (∀ pre, pre <+: cs → ∃ d', Daemon.receiveAll pre d = some d' ∧ d'.LoopLaw pre.flatten) ↔
      ∀ pre c, pre ++ [c] <+: cs → Daemon.ChunkOk pre.flatten c := by
  constructor
  · exact Daemon.receiveAll_law_iff hd cs hnul hfit
  · intro hok pre hp
    obtain ⟨d', hd', hc⟩ := Daemon.receiveAll_caught hd pre (fun c hm => hnul c (hp.subset hm))
      (fun q c d' hq => hfit q c d' (hq.trans hp)) (fun q c hq => hok q c (hq.trans hp))
    refine ⟨d', hd', (Daemon.cr_mem_text hc.holds).not.mpr (Daemon.cr_not_mem_partialLine _), hc.lookups⟩

/-- A reply is cut between two reads, and the second brings another one. -/
theorem receive_loop_iff_cut :
    let cs := [bytes "\nVoltage: Pri 12", bytes "000 mV\r\n\nVoltage: Sec 11990 mV\r\n"]
    ∀ pre, pre <+: cs →
      ∃ d', Daemon.receiveAll pre (Daemon.initial (List.replicate readBufSize 0)) = some d' ∧ d'.LoopLaw pre.flatten := by
  intro cs
  have hfresh : (Daemon.initial (List.replicate readBufSize 0)).Fresh := Daemon.initial_fresh List.length_replicate rfl
  have hok : ∀ pre c, pre ++ [c] <+: cs → Daemon.ChunkOk pre.flatten c := by
    intro pre c hp
    rcases pre with _ | ⟨a, _ | ⟨a', pre⟩⟩
    · obtain rfl := (List.cons_prefix_cons.mp hp).1
      decide
    · obtain ⟨rfl, hp'⟩ := List.cons_prefix_cons.mp hp
      obtain rfl := (List.cons_prefix_cons.mp hp').1
      decide
    · have hlen := hp.length_le
      simp [cs] at hlen
  exact (receive_loop_iff hfresh cs (by decide) (Daemon.receiveAll_fits hfresh cs (by decide) hok (by decide))).mpr hok

/-- The reply to the start-up command and a reading arrive in one read: the loop ends at the first line, which is not in the
table, and the reading stays in the buffer. -/
theorem receive_loop_leaves_reading :
    let c := bytes "\nVer: Power Monitor Rev0, V0.1\r\n\nVoltage: Pri 12000 mV\r\n"
    ∃ d', Daemon.receiveAll [c] (Daemon.initial (List.replicate readBufSize 0)) = some d' ∧ cr ∈ text d'.readBuf ∧
      d'.lookups = [(bytes "Ver", some (bytes " Power Monitor Rev0, V0.1"))] ∧ ¬ d'.LoopLaw c := by
  intro c
  have hfresh : (Daemon.initial (List.replicate readBufSize 0)).Fresh := Daemon.initial_fresh List.length_replicate rfl
  have hfit : (Daemon.initial (List.replicate readBufSize 0)).Fits c := Daemon.initial_fits rfl (by decide)
  obtain ⟨d', hd', hdr⟩ := Daemon.receiveData_spec hfresh.caught.holds hfresh.length hfit (by decide) (by decide)
  have hcr : cr ∈ text d'.readBuf := hdr.left (by decide)
  refine ⟨d', ?_, hcr, ?_, fun law => law.1 hcr⟩
  · simpa [Daemon.receiveAll] using hd'
  · rw [hdr.lookups]
    decide

end PowerMonitor
