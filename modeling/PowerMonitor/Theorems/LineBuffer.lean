import PowerMonitor.Lemmas.Lookups
import PowerMonitor.Theorems.Calibration

/-!
# The bounds of the line buffer

`Run_Config` compares `RxSize` with the size of `MsgBuf` before it stores a byte and counts it, and then stores the terminator
behind it. Between two bytes `RxSize` is the length of the unfinished line, up to that size, so the stores stay below it exactly
as long as no line takes all of it.
-/

namespace PowerMonitor

open CString Outcome

namespace MainOp

/-- The byte that a step delivers to `Run_Config`. -/
def delivers : MainOp → Option UInt8
  | .receive c => some c
  | .cacheCheck => none
  | .sample => none

/-- The bytes that a run delivers to `Run_Config`. -/
def stream (ops : List MainOp) : List UInt8 := ops.filterMap delivers

@[simp] theorem stream_receive (ops : List MainOp) (c : UInt8) : stream (ops ++ [.receive c]) = stream ops ++ [c] := by
  simp [stream, delivers]

@[simp] theorem stream_cacheCheck (ops : List MainOp) : stream (ops ++ [.cacheCheck]) = stream ops := by
  simp [stream, delivers]

@[simp] theorem stream_sample (ops : List MainOp) : stream (ops ++ [.sample]) = stream ops := by simp [stream, delivers]

end MainOp

open MainOp

namespace Firmware

/-- At every byte of the run, `Run_Config` stores to indices of `MsgBuf` below `RX_SIZE` only, and `MsgBuf` has a NUL below
`RX_SIZE` if `CP_Lookup` is called. -/
def LineLaw (b : Build) (board : Board) (ops : List MainOp) : Prop :=
  ∀ pre c, pre ++ [.receive c] <+: ops → ∀ fw, reach b board pre = .ok fw →
    (∀ s ∈ fw.stores c, s.1 < rxSizeMax) ∧ (fw.looks c ≠ [] → (0 : UInt8) ∈ fw.msgBuf.take rxSizeMax)

/-- Run lemma: a run ends as long as none of its lines is a restart, and `Run_Config` has then read its stream. -/
theorem reach_assembled (b : Build) (board : Board) (ops : List MainOp) :
    Ends (Assembled (stream ops)) (fun _ => ¬ Lines.Free restarts (linesOf (stream ops))) (reach b board ops) := by
  induction ops using List.reverseRecOn with
  | nil =>
    obtain ⟨fw, he, h, -⟩ := start_assembled b board
    rw [reach, he]
    exact h
  | append_singleton ops op ih =>
    have hpre : linesOf (stream ops) <+: linesOf (stream (ops ++ [op])) :=
      linesOf_prefix ((List.prefix_append ops [op]).filterMap delivers)
    rw [reach_snoc]
    refine (ih.mono (fun _ h => h) fun _ hf hfree => hf fun l hl => hfree l (hpre.subset hl)).bind fun fw h => ?_
    cases op with
    | receive c =>
      rw [stream_receive]
      refine (h.char b c).mono (fun _ h' => h') ?_
      rintro (fw' | _) he
      · obtain ⟨ls, l, hlines, -, hrest⟩ := he.restart
        intro hfree
        have hmem : l ∈ linesOf (stream ops ++ [c]) := by
          rw [hlines]
          exact List.mem_append_right _ List.mem_cons_self
        rw [hfree l hmem] at hrest
        cases hrest
      · exact he.elim
    | cacheCheck =>
      rw [stream_cacheCheck]
      exact h.cacheCheck.mono (fun _ h' => h'.1) fun _ hf => hf.elim
    | sample =>
      rw [stream_sample]
      exact h.runChannels

/-- A run without a restart reads its stream. -/
theorem exists_reach (b : Build) (board : Board) {ops : List MainOp} (h : Lines.Free restarts (linesOf (stream ops))) :
    ∃ fw, reach b board ops = .ok fw ∧ Assembled (stream ops) fw := by
  have hend := reach_assembled b board ops
  cases hx : reach b board ops with
  | ok fw =>
    rw [hx] at hend
    exact ⟨fw, rfl, hend⟩
  | error e =>
    rw [hx] at hend
    exact absurd h hend

theorem assembled_of_reach {b : Build} {board : Board} {ops : List MainOp} {fw : Firmware} (h : reach b board ops = .ok fw) :
    Assembled (stream ops) fw := by
  have hend := reach_assembled b board ops
  rwa [h] at hend

/-- Behind an unfinished line that is shorter than `MsgBuf`, a byte that is no terminator is stored behind it. -/
theorem Received.stores_eq {t : List UInt8} {fw : Firmware} (h : Received t fw) (hlt : (Lines.rest isEol t).length < rxSizeMax)
    {c : UInt8} (hc : isEol c = false) :
    fw.stores c = [((Lines.rest isEol t).length, c), ((Lines.rest isEol t).length + 1, 0)] := by
  have hsize : fw.rxSize = (Lines.rest isEol t).length := by
    rw [h.rxSize, unfinished, List.take_of_length_le (Nat.le_of_lt hlt)]
  rw [stores, if_neg (not_eol hc), hsize, if_pos hlt]

/-- Behind an unfinished line that is shorter than `MsgBuf`, `MsgBuf` is terminated. -/
theorem Received.terminated {t : List UInt8} {fw : Firmware} (h : Received t fw) (hlt : (Lines.rest isEol t).length < rxSizeMax)
    (h0 : fw.rxSize ≠ 0) : (0 : UInt8) ∈ fw.msgBuf.take rxSizeMax := by
  have hu : unfinished t = Lines.rest isEol t := List.take_of_length_le (Nat.le_of_lt hlt)
  obtain ⟨m, hm⟩ := h.msgBuf (by
    rintro he
    rw [h.rxSize, he] at h0
    exact h0 rfl)
  rw [hm, List.take_append, hu]
  refine List.mem_append_right _ ?_
  obtain ⟨k, hk⟩ := Nat.exists_eq_add_of_lt hlt
  rw [show rxSizeMax - (Lines.rest isEol t).length = k + 1 by omega, List.take_succ_cons]
  exact List.mem_cons_self

end Firmware

/-- Every store of a run into `MsgBuf` is inside it, and `MsgBuf` is terminated whenever `CP_Lookup` is called, exactly when no
line, finished or not, that arrives before a restart is as long as `MsgBuf`. -/
theorem line_buffer_in_bounds_iff (b : Build) (board : Firmware.Board) (ops : List MainOp) :
    Firmware.LineLaw b board ops ↔
      ∀ pre, pre <+: ops → Lines.Free restarts (linesOf (stream pre)) → (Lines.rest isEol (stream pre)).length < rxSizeMax := by
  constructor
  · intro law pre
    induction pre using List.reverseRecOn with
    | nil => exact fun _ _ => by decide
    | append_singleton pre op ih =>
      intro hp
      have ih := ih ((List.prefix_append _ _).trans hp)
      cases op with
      | receive c =>
        rw [stream_receive]
        cases hc : isEol c with
        | true =>
          intro _
          rw [(Lines.snoc_stop _ hc).2]
          decide
        | false =>
          rw [linesOf_plain _ hc, (Lines.snoc_free _ hc).2]
          intro hfree
          obtain ⟨fw, hfw, ha⟩ := Firmware.exists_reach b board hfree
          have hstores := (law pre c hp fw hfw).1
          rw [ha.received.stores_eq (ih hfree) hc] at hstores
          rw [List.length_append]
          exact hstores _ (List.mem_cons_of_mem _ List.mem_cons_self)
      | cacheCheck => simpa using ih
      | sample => simpa using ih
  · intro hfit pre c hp fw hfw
    have ha := Firmware.assembled_of_reach hfw
    have hlt := hfit pre ((List.prefix_append _ _).trans hp) ha.returned
    refine ⟨?_, ?_⟩
    · cases hc : isEol c with
      | true =>
        rw [Firmware.stores, if_pos ((isEol_iff c).mp hc)]
        exact nofun
      | false =>
        have hlt' := hfit _ hp
        rw [stream_receive, linesOf_plain _ hc, (Lines.snoc_free _ hc).2, List.length_append] at hlt'
        rw [ha.received.stores_eq hlt hc]
        simp only [List.forall_mem_cons, List.not_mem_nil, false_implies, implies_true, and_true]
        exact ⟨hlt, hlt' ha.returned⟩
    · intro hlook
      refine ha.received.terminated hlt fun h0 => hlook ?_
      rw [Firmware.looks, if_neg fun h => h.2 h0]

/-- A line of 256 bytes: its terminator is stored at index 256. -/
theorem line_buffer_overrun :
    let b : Build := { date := [], time := [], order4 := .leftFirst, order2 := .leftFirst }
    let board : Firmware.Board :=
      { dev := { pages := fun _ _ => 0xFF, buf := fun _ _ => 0, programs := [] }, busy := 0, delays := [], id := 0, adcIn := [],
        usart := [] }
    let ops := List.replicate 256 (MainOp.receive 0x61)
    (∃ fw, Firmware.reach b board (List.replicate 255 (MainOp.receive 0x61)) = .ok fw ∧
        fw.stores 0x61 = [(255, 0x61), (256, 0)]) ∧
      ¬ Firmware.LineLaw b board ops := by
  intro b board ops
  have hstream : stream (List.replicate 255 (.receive 0x61)) = List.replicate 255 0x61 :=
    List.filterMap_replicate_of_some (f := delivers) rfl
  have hplain : Lines.Free isEol (List.replicate 255 0x61) := by
    intro a ha
    rw [(List.mem_replicate.mp ha).2]
    decide
  have hrest : Lines.rest isEol (stream (List.replicate 255 (.receive 0x61))) = List.replicate 255 0x61 := by
    rw [hstream, Lines.rest_of_free hplain]
  have hlines : linesOf (stream (List.replicate 255 (.receive 0x61))) = [] := by
    rw [hstream, linesOf, Lines.pieces_free hplain]
    rfl
  obtain ⟨fw, hfw, ha⟩ := Firmware.exists_reach b board (hlines ▸ Lines.Free.nil)
  have hstores := ha.received.stores_eq (c := 0x61) (by rw [hrest, List.length_replicate]; decide) (by decide)
  rw [hrest, List.length_replicate] at hstores
  refine ⟨⟨fw, hfw, hstores⟩, fun law => ?_⟩
  have hops : List.replicate 255 (MainOp.receive 0x61) ++ [.receive 0x61] <+: ops := by
    rw [← List.replicate_succ']
  have hlt := (law _ _ hops fw hfw).1 (256, 0)
  rw [hstores] at hlt
  exact absurd (hlt (by simp)) (by decide)

end PowerMonitor
