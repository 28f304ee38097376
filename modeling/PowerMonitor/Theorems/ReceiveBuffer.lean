import PowerMonitor.Theorems.ReceiveLoop
import PowerMonitor.Lib.Monitor

/-!
# The bounds of the daemon's receive buffer

`main` asks `read` for all the cells behind the text of the buffer and puts a NUL behind what it gets. The text is what earlier
reads have left of the lines they completed, with the unfinished line; it is told here from the bytes alone (`pending`). The NUL
has a cell as long as that text and the bytes of the next read are shorter than the buffer.
-/

namespace PowerMonitor

open CString CmdParse

namespace Daemon

/-- What a read leaves of a text that now has its bytes behind it. -/
def leaveText (t : List UInt8) : List UInt8 := leave [] (lines t) (partialLine t)

/-- The text that a sequence of reads leaves in the buffer. -/
def pending (cs : List (List UInt8)) : List UInt8 := cs.foldl (fun t c => leaveText (text (t ++ c))) []

/-- The receiver stays inside `readBuf`: it asks for at least one byte, and the index of the NUL behind the bytes is at most
4095. -/
def InBounds (d : Daemon) (c : List UInt8) : Prop :=
  1 ≤ readBufSize - strlen d.readBuf 0 ∧ strlen d.readBuf 0 + c.length ≤ 4095

/-- The buffer holds a string, and the string is `t`. -/
structure Contains (d : Daemon) (t : List UInt8) : Prop where
  length : d.readBuf.length = readBufSize
  nul : (0 : UInt8) ∈ d.readBuf
  text_eq : text d.readBuf = t

theorem Fresh.contains {d : Daemon} (h : d.Fresh) : d.Contains [] := by
  obtain ⟨hlen, ⟨hz, -⟩, -⟩ := h.caught
  refine ⟨hlen, hz, ?_⟩
  cases hb : d.readBuf with
  | nil => rfl
  | cons a m =>
    obtain rfl : a = 0 := by simpa [hb] using h.empty
    rfl

theorem Contains.inBounds_iff {d : Daemon} {t : List UInt8} (h : d.Contains t) (c : List UInt8) :
    d.InBounds c ↔ t.length + c.length < readBufSize := by
  have hlen : strlen d.readBuf 0 = t.length := congrArg List.length h.text_eq
  rw [InBounds, hlen]
  simp only [readBufSize]
  omega

/-- Step lemma. -/
theorem Contains.receiveData {d : Daemon} {t c : List UInt8} (h : d.Contains t) (hpos : 1 ≤ c.length)
    (hfit : t.length + c.length < readBufSize) :
    ∃ d', d.receiveData c = some d' ∧ d'.Contains (leaveText (text (t ++ c))) := by
  obtain ⟨hlen, hz, ht⟩ := h
  obtain ⟨buf, he, hlen', hz', ht'⟩ := receiveData_drain hpos hz (by rw [hlen, ht]; exact hfit)
  rw [ht] at ht'
  have hbuf : text buf = [] ++ text (t ++ c) := ht'
  obtain ⟨d', hd', -, hlen'', -, -, hz'', ht''⟩ := drain_text _ (d := { d with readBuf := buf }) (Int.natCast_nonneg c.length) hz'
    (Or.inl rfl) hbuf (lines_length_lt hbuf)
  exact ⟨d', he.trans hd', hlen''.trans (hlen'.trans hlen), hz'', ht''⟩

theorem pending_snoc (cs : List (List UInt8)) (c : List UInt8) : pending (cs ++ [c]) = leaveText (text (pending cs ++ c)) := by
  rw [pending, List.foldl_append, List.foldl_cons, List.foldl_nil, pending]

/-- Run lemma: as long as every read has room, the text of the buffer is the pending one. -/
theorem receiveAll_contains {d : Daemon} (hd : d.Fresh) (cs : List (List UInt8)) (hpos : ∀ c ∈ cs, 1 ≤ c.length)
    (hfit : ∀ pre c, pre ++ [c] <+: cs → (pending pre).length + c.length < readBufSize) :
    ∃ d', receiveAll cs d = some d' ∧ d'.Contains (pending cs) := by
  induction cs using List.reverseRecOn with
  | nil => exact ⟨d, rfl, hd.contains⟩
  | append_singleton cs c ih =>
    obtain ⟨d₁, hd₁, hc₁⟩ := ih (fun x hx => hpos x (List.mem_append_left _ hx))
      (fun pre x hp => hfit pre x (hp.trans (List.prefix_append _ _)))
    obtain ⟨d₂, hd₂, hc₂⟩ := hc₁.receiveData (hpos c (List.mem_append_right _ List.mem_cons_self))
      (hfit cs c (List.prefix_refl _))
    exact ⟨d₂, by rw [receiveAll_snoc, hd₁, Option.bind_some, hd₂], by rw [pending_snoc]; exact hc₂⟩

end Daemon

/-- Every read of a run stays inside `readBuf` exactly when, at each of them, the text that the earlier reads have left and the
bytes of the read are together shorter than `readBuf`. -/
theorem read_in_bounds_iff {d : Daemon} (hd : d.Fresh) (cs : List (List UInt8)) (hpos : ∀ c ∈ cs, 1 ≤ c.length) :
    (∀ pre c, pre ++ [c] <+: cs → ∃ d', Daemon.receiveAll pre d = some d' ∧ d'.InBounds c) ↔
      ∀ pre c, pre ++ [c] <+: cs → (Daemon.pending pre).length + c.length < readBufSize := by
  constructor
  · induction cs using List.reverseRecOn with
    | nil =>
      intro _ pre c hp
      simp at hp
    | append_singleton cs c ih =>
      intro hin
      have hfit := ih (fun x hx => hpos x (List.mem_append_left _ hx))
        (fun pre x hp => hin pre x (hp.trans (List.prefix_append _ _)))
      intro pre x hp
      rcases List.prefix_concat_iff.mp hp with he | hp
      · obtain ⟨rfl, rfl⟩ := List.append_singleton_inj.mp he
        obtain ⟨d', hd', hb⟩ := hin pre x (List.prefix_refl _)
        obtain ⟨d₁, hd₁, hc₁⟩ := Daemon.receiveAll_contains hd pre (fun y hy => hpos y (List.mem_append_left _ hy)) hfit
        rw [hd', Option.some.injEq] at hd₁
        exact (hc₁.inBounds_iff x).mp (hd₁ ▸ hb)
      · exact hfit pre x hp
  · intro hfit pre c hp
    have hpre : pre <+: cs := (List.prefix_append pre [c]).trans hp
    obtain ⟨d', hd', hc⟩ := Daemon.receiveAll_contains hd pre (fun x hx => hpos x (hpre.subset hx))
      (fun q x hq => hfit q x (hq.trans hpre))
    exact ⟨d', hd', (hc.inBounds_iff c).mpr (hfit pre c hp)⟩

/-- A reply in two reads. -/
theorem read_in_bounds_iff_two_reads :
    (∀ pre c, pre ++ [c] <+: [bytes "Voltage: Pri 12", bytes "000 mV\r\nVol"] →
      ∃ d', Daemon.receiveAll pre (Daemon.initial (List.replicate readBufSize 0)) = some d' ∧ d'.InBounds c) ↔
      ∀ pre c, pre ++ [c] <+: [bytes "Voltage: Pri 12", bytes "000 mV\r\nVol"] →
        (Daemon.pending pre).length + c.length < readBufSize :=
  read_in_bounds_iff (Daemon.initial_fresh List.length_replicate rfl) _ (by decide)

/-- A first read that returns the 4096 bytes it asks for: the index of the NUL is 4096. -/
theorem read_out_of_bounds :
    let d := Daemon.initial (List.replicate readBufSize 0)
    let c := List.replicate 4096 0x61
    d.Fresh ∧ readBufSize - strlen d.readBuf 0 = c.length ∧ strlen d.readBuf 0 + c.length = 4096 ∧ ¬ d.InBounds c := by
  intro d c
  have hfresh : d.Fresh := Daemon.initial_fresh List.length_replicate rfl
  have hstr : strlen d.readBuf 0 = 0 := congrArg List.length hfresh.contains.text_eq
  have hlen : c.length = 4096 := List.length_replicate
  refine ⟨hfresh, ?_, by rw [hstr, hlen], ?_⟩
  · rw [hstr, hlen]
    rfl
  · rw [hfresh.contains.inBounds_iff, hlen]
    decide

end PowerMonitor
