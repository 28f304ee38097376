import PowerMonitor.Lemmas.MainLoop

/-!
# Rejected commands

`CP_Lookup` returns -1 for a line that begins with no command's name, and for a command about a channel when no channel is named.
Every handler looks for the channel before it does anything else, so a rejected line finds the response cleared and leaves it so,
and the reply is a line feed alone.
-/

namespace PowerMonitor

open CString CmdProcessor Outcome

namespace Firmware

/-- The line begins with no command's name, or with the name of a command about a channel, and no channel is named. -/
def Rejected (b : Build) (line : List UInt8) : Prop :=
  (∀ entry ∈ systemCommands b, ¬ entry.cmd <+: line) ∨
    (channelOf (skipChars line) = none ∧
      ∃ entry ∈ systemCommands b, entry.cmd <+: line ∧ entry.cmd ≠ bytes "restart" ∧ entry.cmd ≠ bytes "ver")

/-- What a rejected command leaves as it is: the EEPROM as `EE_Read1` shows it, the flash, and the parameters in use. -/
structure Unchanged (fw fw' : Firmware) : Prop where
  read1 : ∀ addr, (fw'.ee.read1 addr).map Prod.fst = (fw.ee.read1 addr).map Prod.fst
  flash : fw'.ee.spi.chip.dev = fw.ee.spi.chip.dev
  live : ∀ p ch, fw'.live p ch = fw.live p ch

/-- The law of a line for which `CP_Lookup` returns -1 with the response `resp` and the state `fw'`: it is a rejected line, nothing
changes, the response is the empty string, and `Run_Config` replies to the line with a line feed. -/
structure RejectLaw (b : Build) (line : List UInt8) (fw : Firmware) (resp : CmdResponse) (fw' : Firmware) : Prop where
  rejected : Rejected b line
  empty : resp.buffer = []
  kept : Unchanged fw fw'
  reply : ∃ fw'', fw.handleLine b line = .ok fw'' ∧ fw''.resp.buffer = [] ∧ Unchanged fw fw'' ∧ Serves fw.port [lf] fw''.port

theorem Unchanged.of_printed {fw fw' : Firmware} {out : List UInt8} (h : Printed fw out fw') : Unchanged fw fw' := by
  refine ⟨fun addr => ?_, ?_, fun p ch => ?_⟩
  · rw [h.rest]
  · rw [h.rest]
  · rw [h.rest]
    cases p <;> cases ch <;> rfl

/-! ## Handlers -/

/-- A handler that needs a channel: without one it returns -1 and has done nothing, and with one it returns 0, if it returns. -/
structure NeedsChannel (f : List UInt8 → CmdResponse → Firmware → Except Stop (Int × CmdResponse × Firmware)) : Prop where
  unnamed : ∀ argument resp fw, channelOf argument = none → f argument resp fw = .ok (-1, resp, fw)
  named : ∀ argument resp fw, channelOf argument ≠ none → Ends (fun r => r.1 = 0) (fun _ => True) (f argument resp fw)

theorem cmdReport_needsChannel (label : List UInt8) (print : PowerChanel → List UInt8)
    (events : Channel → PowerChanel → List FwEvent) : NeedsChannel (cmdReport label print events) := by
  constructor
  · intro argument resp fw h
    rw [cmdReport, h]
  · intro argument resp fw h
    obtain ⟨r, hr⟩ := Option.ne_none_iff_exists'.mp h
    rw [cmdReport, hr]
    exact Eq.refl (0 : Int)

theorem cmdParam_needsChannel (p : Param) (label : List UInt8) (write : Channel → Nat → EE → Option EE)
    (setLive : Nat → PowerChanel → PowerChanel) (read : Channel → EE → Option (Nat × EE)) (print : Nat → List UInt8) :
    NeedsChannel (cmdParam p label write setLive read print) := by
  constructor
  · intro argument resp fw h
    rw [cmdParam, h]
  · intro argument resp fw h
    obtain ⟨⟨ch, argument⟩, hr⟩ := Option.ne_none_iff_exists'.mp h
    rw [cmdParam, hr]
    have hread : ∀ fw : Firmware, Ends (fun r : Int × CmdResponse × Firmware => r.1 = 0) (fun _ => True) (do
        let r ← returns (read ch fw.ee)
        .ok (0, { buffer := label ++ ch.name ++ bytes ": " ++ print r.1 ++ bytes "\r\n" }, { fw with ee := r.2 })) :=
      fun fw => (returns_ends _ trivial).bind fun r _ => Eq.refl (0 : Int)
    dsimp only
    split
    · exact (returns_ends _ trivial).bind fun ee _ => hread _
    · exact hread fw

/-- Every command but `restart` and `ver` needs a channel. -/
theorem systemCommands_needsChannel {b : Build} {entry : CmdTable Stop Firmware} (he : entry ∈ systemCommands b)
    (hr : entry.cmd ≠ bytes "restart") (hv : entry.cmd ≠ bytes "ver") : NeedsChannel entry.vector := by
  simp only [systemCommands, List.mem_cons, List.not_mem_nil, or_false] at he
  rcases he with rfl | rfl | rfl | rfl | rfl | rfl | rfl | rfl
  · exact absurd rfl hr
  · change NeedsChannel cmdCurrent
    unfold cmdCurrent
    exact cmdReport_needsChannel _ _ _
  · change NeedsChannel cmdVoltage
    unfold cmdVoltage
    exact cmdReport_needsChannel _ _ _
  · change NeedsChannel cmdVoltageRaw
    unfold cmdVoltageRaw
    exact cmdReport_needsChannel _ _ _
  · change NeedsChannel cmdCurrentRaw
    unfold cmdCurrentRaw
    exact cmdReport_needsChannel _ _ _
  · change NeedsChannel (cmdVoltCalib b)
    unfold cmdVoltCalib
    exact cmdParam_needsChannel _ _ _ _ _ _
  · change NeedsChannel (cmdVoltOffset b)
    unfold cmdVoltOffset
    exact cmdParam_needsChannel _ _ _ _ _ _
  · exact absurd rfl hv

/-- `Cmd_Restart` does not return, and `Cmd_Version` does not fail. -/
theorem systemCommands_fails {b : Build} {entry : CmdTable Stop Firmware} (he : entry ∈ systemCommands b) {argument : List UInt8}
    {resp resp' : CmdResponse} {fw fw' : Firmware} (h : entry.vector argument resp fw = .ok (-1, resp', fw')) :
    entry.cmd ≠ bytes "restart" ∧ entry.cmd ≠ bytes "ver" := by
  simp only [systemCommands, List.mem_cons, List.not_mem_nil, or_false] at he
  rcases he with rfl | rfl | rfl | rfl | rfl | rfl | rfl | rfl
  · cases h
  · dsimp only
    decide
  · dsimp only
    decide
  · dsimp only
    decide
  · dsimp only
    decide
  · dsimp only
    decide
  · dsimp only
    decide
  · cases h

/-! ## Lines -/

/-- A rejected line leaves the state as it was and the response empty. -/
theorem lookup_of_rejected {b : Build} {line : List UInt8} (h : Rejected b line) (resp : CmdResponse) (fw : Firmware) :
    lookup line (systemCommands b) resp fw = .ok (-1, { buffer := [] }, fw) := by
  rcases h with hno | ⟨hch, entry, he, hp, hr, hv⟩
  · have hnul : ∀ entry ∈ systemCommands b, (0 : UInt8) ∉ entry.cmd := fun entry he =>
      (systemCommands_names b).1 _ (List.mem_map_of_mem he)
    have hnone : (systemCommands b).find? (fun entry => entry.cmd <+: line) = none := by
      rw [List.find?_eq_none]
      intro entry he
      simpa using hno entry he
    rw [lookup, scan_eq_find? hnul, hnone]
  · rw [lookup_of_mem b he hp]
    exact (systemCommands_needsChannel he hr hv).unnamed _ _ fw hch

/-- `CP_Lookup` returns -1 for no other line. -/
theorem rejected_of_lookup {b : Build} {line : List UInt8} {resp resp' : CmdResponse} {fw fw' : Firmware}
    (h : lookup line (systemCommands b) resp fw = .ok (-1, resp', fw')) : Rejected b line := by
  by_cases hex : ∃ entry ∈ systemCommands b, entry.cmd <+: line
  · obtain ⟨entry, he, hp⟩ := hex
    rw [lookup_of_mem b he hp] at h
    obtain ⟨hr, hv⟩ := systemCommands_fails he h
    have hch : channelOf (skipChars line) = none := by
      by_contra hne
      have hzero := (systemCommands_needsChannel he hr hv).named _ { buffer := [] } fw hne
      rw [h] at hzero
      cases hzero
    exact Or.inr ⟨hch, entry, he, hp, hr, hv⟩
  · exact Or.inl fun entry he hp => hex ⟨entry, he, hp⟩

/-- The reply to a rejected line is a line feed. -/
theorem handleLine_of_rejected {b : Build} {line : List UInt8} (h : Rejected b line) (fw : Firmware) :
    handleLine b line fw = .ok { (fw.putChar lf).log (.line line) with resp := { buffer := [] } } := by
  unfold handleLine
  simp only [lookup_of_rejected h, bind, Except.bind]
  rfl

end Firmware

/-- In every state, a line for which `CP_Lookup` returns -1 changes neither what `EE_Read1` returns nor the flash nor the parameters
in use, and no text is left in the response. -/
theorem rejected_changes_nothing (b : Build) (line : List UInt8) (resp resp' : CmdResponse) (fw fw' : Firmware)
    (h : lookup line (Firmware.systemCommands b) resp fw = .ok (-1, resp', fw')) : Firmware.RejectLaw b line fw resp' fw' := by
  have hrej := Firmware.rejected_of_lookup h
  rw [Firmware.lookup_of_rejected hrej, Except.ok.injEq, Prod.mk.injEq, Prod.mk.injEq] at h
  obtain ⟨-, rfl, rfl⟩ := h
  have hp := Firmware.putChar_printed fw lf
  obtain ⟨hread, hflash, hlive⟩ := Firmware.Unchanged.of_printed hp
  exact ⟨hrej, rfl, ⟨fun _ => rfl, rfl, fun _ _ => rfl⟩,
    _, Firmware.handleLine_of_rejected hrej fw, rfl, ⟨hread, hflash, hlive⟩, hp.port⟩

/-- After the start-up, a command whose channel is cut off in the middle, with a reply still in the response. -/
theorem rejected_changes_nothing_cut_off :
    let b : Build := { date := [], time := [], order4 := .leftFirst, order2 := .leftFirst }
    let board : Firmware.Board :=
      { dev := { pages := fun _ _ => 0xFF, buf := fun _ _ => 0, programs := [] }, busy := 0, delays := [], id := 0, adcIn := [],
        usart := [] }
    ∃ fw, Firmware.start b board = .ok fw ∧
      lookup (bytes "offset se") (Firmware.systemCommands b) { buffer := bytes "Volt Calib Pri: 856\r\n" } fw =
        .ok (-1, { buffer := [] }, fw) ∧
      Firmware.RejectLaw b (bytes "offset se") fw { buffer := [] } fw := by
  intro b board
  obtain ⟨fw, he, -⟩ := Firmware.start_started b board
  have h : lookup (bytes "offset se") (Firmware.systemCommands b) { buffer := bytes "Volt Calib Pri: 856\r\n" } fw =
      .ok (-1, { buffer := [] }, fw) := rfl
  exact ⟨fw, he, h, rejected_changes_nothing b _ _ _ fw fw h⟩

end PowerMonitor
