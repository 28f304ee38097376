import PowerMonitor.Lemmas.MainLoop
import PowerMonitor.Lib.Lines

/-!
# Run_Config on a stream

The bytes `Run_Config` reads are a stream cut at carriage returns and line feeds. Between two bytes `MsgBuf` holds the unfinished
line, up to its size (`Received`); a terminator behind an unfinished line that is not empty is a complete line.
-/

namespace PowerMonitor

open CString Outcome

/-- The terminators of the firmware's lines. -/
def isEol (c : UInt8) : Bool := c = cr ∨ c = lf

theorem isEol_iff (c : UInt8) : isEol c = true ↔ c = cr ∨ c = lf := by simp [isEol]

theorem not_eol {c : UInt8} (h : isEol c = false) : ¬(c = cr ∨ c = lf) := by
  rw [← isEol_iff, h]
  exact Bool.false_ne_true

namespace Firmware

/-- The bytes of the unfinished line that `MsgBuf` has room for. -/
def unfinished (t : List UInt8) : List UInt8 := (Lines.rest isEol t).take rxSizeMax

/-- The line buffer after the stream `t`. -/
structure Received (t : List UInt8) (fw : Firmware) : Prop where
  rxSize : fw.rxSize = (unfinished t).length
  msgBuf : unfinished t ≠ [] → ∃ m, fw.msgBuf = unfinished t ++ 0 :: m

theorem unfinished_eq_nil_iff (t : List UInt8) : unfinished t = [] ↔ Lines.rest isEol t = [] := by
  simp [unfinished, rxSizeMax]

theorem received_nil {fw : Firmware} (h : fw.rxSize = 0) : Received [] fw := ⟨h, fun hne => absurd rfl hne⟩

/-- Behind a terminator the buffer is empty again. -/
theorem received_eol (t : List UInt8) {c : UInt8} (hc : isEol c = true) {fw : Firmware} (h : fw.rxSize = 0) :
    Received (t ++ [c]) fw := by
  have hu : unfinished (t ++ [c]) = [] := (unfinished_eq_nil_iff _).mpr (Lines.snoc_stop t hc).2
  exact ⟨by rw [h, hu]; rfl, fun hne => absurd hu hne⟩

/-- A byte stored behind the unfinished line, with its terminator. -/
theorem set_set_append {l buf : List UInt8} (hl : l = [] ∨ ∃ m, buf = l ++ 0 :: m)
    (hlen : l.length + 1 < buf.length) (c : UInt8) :
    ∃ m, (buf.set l.length c).set (l.length + 1) 0 = (l ++ [c]) ++ 0 :: m := by
  have hbuf : ∃ a a' m, buf = l ++ a :: a' :: m := by
    have hdrop : l.length + ((buf.drop l.length).length) = buf.length := by
      rw [List.length_drop]
      omega
    have htake : buf = l ++ buf.drop l.length := by
      rcases hl with rfl | ⟨m, rfl⟩
      · rfl
      · rw [List.drop_left]
    match hd : buf.drop l.length with
    | [] => rw [hd] at hdrop; simp at hdrop; omega
    | [_] => rw [hd] at hdrop; simp at hdrop; omega
    | a :: a' :: m => exact ⟨a, a', m, by rw [← hd]; exact htake⟩
  obtain ⟨a, a', m, rfl⟩ := hbuf
  refine ⟨m, ?_⟩
  simp [List.set_append_right]

/-- A byte that is no terminator joins the unfinished line, while there is room. -/
theorem receiveChar_plain {fw : Firmware} (h : fw.msgBuf.length = rxSizeMax + 1) {t : List UInt8} (hr : Received t fw) {c : UInt8}
    (hc : isEol c = false) (b : Build) :
    ∃ m n, receiveChar b c fw = .ok { fw with msgBuf := m, rxSize := n } ∧ m.length = fw.msgBuf.length ∧
      Received (t ++ [c]) { fw with msgBuf := m, rxSize := n } := by
  have hrest : Lines.rest isEol (t ++ [c]) = Lines.rest isEol t ++ [c] := (Lines.snoc_free t hc).2
  rw [receiveChar, if_neg (not_eol hc)]
  by_cases hlt : fw.rxSize < rxSizeMax
  · have hlen : (Lines.rest isEol t).length < rxSizeMax := by
      have := hr.rxSize
      rw [unfinished, List.length_take] at this
      omega
    have hu : unfinished t = Lines.rest isEol t := List.take_of_length_le (Nat.le_of_lt hlen)
    have hu' : unfinished (t ++ [c]) = unfinished t ++ [c] := by
      rw [hu, unfinished, hrest]
      exact List.take_of_length_le (by rw [List.length_append]; exact hlen)
    have hl : unfinished t = [] ∨ ∃ m, fw.msgBuf = unfinished t ++ 0 :: m := by
      by_cases he : unfinished t = []
      · exact Or.inl he
      · exact Or.inr (hr.msgBuf he)
    obtain ⟨m, hm⟩ := set_set_append hl (by rw [← hr.rxSize]; omega) c
    have hstores : fw.stores c = [(fw.rxSize, c), (fw.rxSize + 1, 0)] := (if_neg (not_eol hc)).trans (if_pos hlt)
    rw [if_pos hlt, hstores]
    refine ⟨_, _, rfl, by simp, ?_, fun _ => ⟨m, ?_⟩⟩
    · rw [hu', List.length_append, ← hr.rxSize]
      rfl
    · rw [hu', hr.rxSize]
      exact hm
  · rw [if_neg hlt]
    have hfull : rxSizeMax ≤ (Lines.rest isEol t).length := by
      have := hr.rxSize
      rw [unfinished, List.length_take] at this
      omega
    have hu' : unfinished (t ++ [c]) = unfinished t := by
      rw [unfinished, hrest, List.take_append_of_le_length hfull, unfinished]
    exact ⟨fw.msgBuf, fw.rxSize, rfl, rfl, by rw [hu']; exact hr.rxSize, by rw [hu']; exact hr.msgBuf⟩

/-- Bytes without a terminator only fill the line buffer. -/
theorem receive_plain (b : Build) (l : List UInt8) (hl : Lines.Free isEol l) : ∀ {fw : Firmware} {t : List UInt8},
    fw.msgBuf.length = rxSizeMax + 1 → Received t fw →
      ∃ m n, l.foldlM (fun fw c => receiveChar b c fw) fw = .ok { fw with msgBuf := m, rxSize := n } ∧
        m.length = fw.msgBuf.length ∧ Received (t ++ l) { fw with msgBuf := m, rxSize := n } := by
  induction l with
  | nil =>
    intro fw t _ hr
    rw [List.append_nil]
    exact ⟨fw.msgBuf, fw.rxSize, rfl, rfl, hr⟩
  | cons c l ih =>
    intro fw t h hr
    obtain ⟨hc, hl⟩ := hl.of_cons
    obtain ⟨m, n, he, hm, hr'⟩ := receiveChar_plain h hr hc b
    have hlen : ({ fw with msgBuf := m, rxSize := n } : Firmware).msgBuf.length = rxSizeMax + 1 := hm.trans h
    obtain ⟨m', n', he', hm', hr''⟩ := ih hl hlen hr'
    refine ⟨m', n', ?_, hm'.trans hm, ?_⟩
    · rw [List.foldlM_cons, he]
      exact he'
    · rw [List.append_cons]
      exact hr''

/-- A terminator completes the unfinished line, if it is not empty. -/
theorem receiveChar_eol {fw : Firmware} {t : List UInt8} (hr : Received t fw) {c : UInt8} (hc : isEol c = true) (b : Build) :
    receiveChar b c fw =
      if unfinished t = [] then .ok fw
      else (handleLine b (text (unfinished t)) fw).bind fun fw => .ok { fw with rxSize := 0 } := by
  rw [receiveChar, if_pos ((isEol_iff c).mp hc)]
  by_cases he : unfinished t = []
  · have h0 : fw.rxSize = 0 := by rw [hr.rxSize, he]; rfl
    rw [if_neg (not_not.mpr h0), if_pos he]
  · have h0 : fw.rxSize ≠ 0 := by
      rw [hr.rxSize]
      exact fun h => he (List.length_eq_zero_iff.mp h)
    obtain ⟨m, hm⟩ := hr.msgBuf he
    rw [if_pos h0, if_neg he, hm, text_append_zero]
    rfl

/-- A terminator that is handled leaves an empty line buffer. -/
theorem received_of_eol {fw fw' : Firmware} {t : List UInt8} (hr : Received t fw) {c : UInt8} (hc : isEol c = true) {b : Build}
    (h : receiveChar b c fw = .ok fw') : Received (t ++ [c]) fw' := by
  refine received_eol t hc ?_
  rw [receiveChar_eol hr hc] at h
  split at h
  · next hu =>
    cases h
    rw [hr.rxSize, hu]
    rfl
  · cases hl : handleLine b (text (unfinished t)) fw with
    | error e =>
      rw [hl] at h
      cases h
    | ok fw₁ =>
      rw [hl] at h
      cases h
      rfl

/-- A byte that is handled is the next one of the stream. -/
theorem received_of_char {fw fw' : Firmware} (h : fw.msgBuf.length = rxSizeMax + 1) {t : List UInt8} (hr : Received t fw)
    {c : UInt8} {b : Build} (he : receiveChar b c fw = .ok fw') : Received (t ++ [c]) fw' := by
  cases hc : isEol c with
  | true => exact received_of_eol hr hc he
  | false =>
    obtain ⟨m, n, he', -, hr'⟩ := receiveChar_plain h hr hc b
    rw [he'] at he
    exact Except.ok.inj he ▸ hr'

/-- What a byte asks for behind the stream `t`. -/
theorem charRequest_eq {fw : Firmware} {t : List UInt8} (hr : Received t fw) (c : UInt8) :
    charRequest c fw = if isEol c = true ∧ unfinished t ≠ [] then Request.ofLine (text (unfinished t)) else .other := by
  have h0 : fw.rxSize ≠ 0 ↔ unfinished t ≠ [] := by rw [hr.rxSize, Ne, List.length_eq_zero_iff]
  unfold charRequest
  by_cases he : unfinished t = []
  · simp [h0, he]
  · obtain ⟨m, hm⟩ := hr.msgBuf he
    rw [hm, text_append_zero]
    exact if_congr (and_congr (isEol_iff c).symm h0) rfl rfl

/-! ## The bytes to be read -/

/-- With nothing left at the USART, the next byte `Run_Config` reads is the first one waiting. -/
theorem getChar_waiting {fw : Firmware} {t : List UInt8} (hw : Waiting t fw.port) (hu : fw.usart = [])
    (hr : fw.uart.rxReady ≠ 0) :
    ∃ t', t = fw.uart.getChar.1 :: t' ∧ Waiting t' (fw.uart.getChar.2, fw.usart) := by
  obtain ⟨q, hq, he⟩ := hw
  rw [show fw.port.2 = [] from hu, List.filterMap_nil, List.append_nil] at he
  obtain ⟨h1, h2⟩ := UartBuffer.getChar_rxHolds hq
  cases q with
  | nil =>
    have : fw.uart.rxIn = fw.uart.rxOut := hq.ring.in_eq_out_iff.mpr rfl
    exact absurd ((UartBuffer.rxReady_eq_zero_iff _).mpr this) hr
  | cons c q =>
    have hc : fw.uart.getChar.1 = c := h1
    exact ⟨q, by rw [he, hc], q, h2, by simp [hu]⟩

theorem waiting_nil {fw : Firmware} {t : List UInt8} (hw : Waiting t fw.port) (hu : fw.usart = []) (hr : fw.uart.rxReady = 0) :
    t = [] := by
  obtain ⟨q, hq, he⟩ := hw
  rw [show fw.port.2 = [] from hu, List.filterMap_nil, List.append_nil] at he
  rw [he]
  exact hq.ring.in_eq_out_iff.mp ((UartBuffer.rxReady_eq_zero_iff _).mp hr)

end Firmware

end PowerMonitor
