import PowerMonitor.Lemmas.Replies

/-!
# The current protocol end to end

`Cmd_Current` prints "Current:", and the entry of the daemon's table is "current", so that no reply is taken: the call leaves the
shared memory as it is.
-/

namespace PowerMonitor

open CString CmdParse

/-- The reply of `Cmd_Current` without the bytes that end the line. -/
def currentLine (ch : Channel) (v : Int) : List UInt8 :=
  bytes "Current: " ++ ch.name ++ bytes " " ++ (signedDecimal v ++ bytes " mA")

/-- The reply of `Cmd_Current`. -/
def currentReply (ch : Channel) (v : Int) : List UInt8 :=
  bytes "Current: " ++ ch.name ++ bytes " " ++ (signedDecimal v ++ bytes " mA\r\n")

/-- The current entries after a call are those before it, but for the channel's, which is `v`. -/
def TakesCurrent (ch : Channel) (v : Int) (mem : List UInt8) (fd : Int) (st : PMon) : Prop :=
  (processString PMon.cmdTable mem fd st).st.shared.current = Function.update st.shared.current ch.index v

/-- `Cmd_Current` prints the reply for the channel its argument names, with what `PowerChan_GetCurrent` returns. -/
theorem cmdCurrent_reply {argument rest : List UInt8} {ch : Channel} (h : Firmware.channelOf argument = some (ch, rest))
    (resp : CmdResponse) (fw : Firmware) :
    Firmware.cmdCurrent argument resp fw = .ok (0, { buffer := currentReply ch (fw.chan ch).getCurrent }, fw) := by
  rw [Firmware.cmdCurrent, Firmware.cmdReport, h]
  simp only [List.append_nil, currentReply]

theorem currentReply_eq (ch : Channel) (v : Int) : currentReply ch v = currentLine ch v ++ cr :: [lf] := by
  simp [currentReply, currentLine, List.append_assoc, show bytes " mA\r\n" = bytes " mA" ++ cr :: [lf] by decide]

theorem not_mem_signedDecimal {c : UInt8} (hc : isdigit c = false) (hne : c ≠ 45) (v : Int) : c ∉ signedDecimal v := by
  have hd := not_digit_not_mem hc v.natAbs
  unfold signedDecimal
  split
  · exact fun h => hd ((List.mem_cons.mp h).resolve_left hne)
  · exact hd

theorem cr_not_mem_currentLine (ch : Channel) (v : Int) : cr ∉ currentLine ch v := by
  have hd : cr ∉ signedDecimal v := not_mem_signedDecimal (by decide) (by decide) v
  cases ch <;> simp [currentLine, Channel.name, hd] <;> decide

theorem nameOf_currentLine (ch : Channel) (v : Int) : nameOf (currentLine ch v) = bytes "Current" := by
  cases ch <;> rfl

/-- No entry of the table is a name that the command of the reply begins with. -/
theorem processLine_currentLine (fd : Int) (ch : Channel) (v : Int) (st : PMon) :
    (processLine PMon.cmdTable fd (currentLine ch v) st).2.1 = st := by
  have hne : ¬bytes "Current" = [] := by decide
  rw [processLine, nameOf_currentLine, if_neg hne]
  rfl

/-- The daemon takes the reply for a channel and a current if and only if the shared entry has that value already. -/
theorem current_protocol_iff (ch : Channel) (v : Int) {mem : List UInt8} (hz : (0 : UInt8) ∈ mem)
    (ht : text mem = currentReply ch v) (fd : Int) (st : PMon) :
    TakesCurrent ch v mem fd st ↔ st.shared.current ch.index = v := by
  obtain ⟨hp, -⟩ := processString_line PMon.cmdTable hz (ht.trans (currentReply_eq ch v)) (cr_not_mem_currentLine ch v) fd st
  have hst : (processString PMon.cmdTable mem fd st).st = st :=
    (congrArg (fun r => r.2.1) hp).trans (processLine_currentLine fd ch v st)
  rw [TakesCurrent, hst]
  constructor
  · intro h
    rw [h, Function.update_self]
  · intro h
    rw [← h, Function.update_eq_self]

/-- A reply of 5 mA when the entry is 5 already. -/
theorem current_protocol_iff_same :
    let mem := bytes "Current: Pri 5 mA\r\n\x00"
    let st : PMon := { shared := { Shared.zero with current := fun _ => 5 }, last := 0, trace := [] }
    TakesCurrent .pri 5 mem 3 st ↔ st.shared.current Channel.pri.index = 5 :=
  current_protocol_iff .pri 5 (by decide) (by simp [currentReply, signedDecimal, decimal]; decide) 3 _

/-- A reply of 5 mA is not taken. -/
theorem current_reply_not_taken :
    let mem := bytes "Current: Pri 5 mA\r\n\x00"
    text mem = currentReply .pri 5 ∧ ¬TakesCurrent .pri 5 mem 3 { shared := .zero, last := 0, trace := [] } := by
  intro mem
  refine ⟨by simp [mem, currentReply, signedDecimal, decimal]; decide, fun h => ?_⟩
  have h0 := congrFun h 0
  exact absurd h0 (by decide)

end PowerMonitor
