import PowerMonitor.Lemmas.Lookups
import PowerMonitor.Spec.Server
import Mathlib.Data.BitVec

/-!
# A line, in the firmware and in the server

A state of the firmware represents a state of the server when the page cache shows the stored words, the channels' structures hold
the words in use, and the samples are the same (`Represents`). `CP_Lookup` then does what the server does with the query of the line:
the same reply, states that represent each other again, and no use of the bus or of the serial port (`Answers`).
-/

namespace PowerMonitor

open CString CmdProcessor Outcome

/-! ## Words -/

/-- The cast of a word to a signed number. -/
theorem int32_toNat (w : BitVec 32) : int32 w.toNat = w.toInt := by
  have hlt := w.isLt
  rw [int32, BitVec.toInt_eq_toNat_cond, Nat.mod_eq_of_lt hlt]
  split <;> split <;> omega

/-- A number of a line as it is stored. -/
theorem atol32_eq (t : List UInt8) : atol32 t = (BitVec.ofInt 32 (strtol 32 t)).toNat := by
  rw [atol32, BitVec.toNat_ofInt]
  rfl

theorem signedDecimal_natCast (n : Nat) : signedDecimal n = decimal n := by
  rw [signedDecimal, if_neg (by omega), Int.natAbs_natCast]

namespace Server

/-- The word that a parameter reads as. -/
theorem readAs_toNat (p : Param) (w : BitVec 32) : Firmware.readAs p w.toNat = (shown p w).toNat := by
  unfold Firmware.readAs shown
  by_cases h : w = BitVec.allOnes 32
  · rw [if_pos h, h, if_pos (by decide)]
    cases p <;> rfl
  · have hne : w.toNat ≠ 0xFFFFFFFF := fun he => h (BitVec.eq_of_toNat_eq he)
    rw [if_neg h, if_neg hne]

theorem set_stored (p q : Param) (ch c : Channel) (w : BitVec 32) (s : Server) :
    (s.set p ch w).stored q c = if p = q ∧ ch = c then w else s.stored q c := by
  by_cases hq : q = p
  · subst hq
    by_cases hc : c = ch
    · subst hc
      simp [set]
    · simp [set, hc, Ne.symm hc]
  · simp [set, hq, Ne.symm hq]

theorem set_used (p q : Param) (ch c : Channel) (w : BitVec 32) (s : Server) :
    (s.set p ch w).used q c = if p = q ∧ ch = c then w else s.used q c := by
  by_cases hq : q = p
  · subst hq
    by_cases hc : c = ch
    · subst hc
      simp [set]
    · simp [set, hc, Ne.symm hc]
  · simp [set, hq, Ne.symm hq]

end Server

/-! ## The two states -/

namespace Firmware

/-- The state of the firmware stands for the state of the server. -/
structure Represents (s : Server) (fw : Firmware) : Prop where
  stored : ∀ p ch, fw.setting p ch = (s.stored p ch).toNat
  used : ∀ p ch, fw.live p ch = asLive p (s.used p ch).toNat
  sample : ∀ ch, (fw.chan ch).volts = (s.sample ch).toNat

variable {s : Server} {fw fw' : Firmware}

/-- A step that stores nothing and samples nothing. -/
theorem Represents.quiet (h : Represents s fw) (hq : Quiet fw fw') (hv : ∀ ch, (fw'.chan ch).volts = (fw.chan ch).volts) :
    Represents s fw' where
  stored p ch := (hq.setting p ch).trans (h.stored p ch)
  used p ch := (hq.live p ch).trans (h.used p ch)
  sample ch := (hv ch).trans (h.sample ch)

/-- A step that stores a word. -/
theorem Represents.store (h : Represents s fw) {p : Param} {ch : Channel} {w : BitVec 32}
    (he : Effect (Request.store p ch w.toNat).sets fw fw') (hv : ∀ ch, (fw'.chan ch).volts = (fw.chan ch).volts) :
    Represents (s.set p ch w) fw' where
  stored q c := by
    rw [he.setting, Server.set_stored, Request.sets]
    split
    · rfl
    · exact h.stored q c
  used q c := by
    rw [he.live, Server.set_used, Request.sets]
    by_cases hqc : p = q ∧ ch = c
    · rw [if_pos hqc, if_pos hqc]
      rfl
    · rw [if_neg hqc, if_neg hqc]
      exact h.used q c
  sample c := (hv c).trans (h.sample c)

/-- `PowerChan_GetVolts` computes the server's millivolts. -/
theorem Represents.getVolts (h : Represents s fw) (ch : Channel) : (fw.chan ch).getVolts = (s.millivolts ch).toNat := by
  have hcalib : (fw.chan ch).vCalib = (s.used .calib ch).toNat := Int.ofNat_inj.mp (h.used .calib ch)
  have hoffset : (fw.chan ch).voltOffset = (s.used .offset ch).toInt := (h.used .offset ch).trans (int32_toNat _)
  have hlow : s.sample ch < 0x9000 ↔ (s.sample ch).toNat < 0x9000 := BitVec.lt_def
  unfold PowerChanel.getVolts Server.millivolts
  rw [h.sample ch, hcalib, hoffset]
  by_cases hv : (s.sample ch).toNat < 0x9000
  · rw [if_pos hv, if_pos (hlow.mpr hv)]
    rfl
  · rw [if_neg hv, if_neg (mt hlow.mp hv)]
    have hsample := (s.sample ch).isLt
    have hw : ((s.sample ch).setWidth 32 * s.used .calib ch / 4096).toNat =
        (s.sample ch).toNat * (s.used .calib ch).toNat % 2 ^ 32 / 4096 := by
      rw [BitVec.toNat_udiv, BitVec.toNat_mul, BitVec.toNat_setWidth, Nat.mod_eq_of_lt (by omega : (s.sample ch).toNat < 2 ^ 32)]
      rfl
    rw [← hw, BitVec.toNat_sub, BitVec.toInt_eq_toNat_cond]
    generalize (s.sample ch).setWidth 32 * s.used .calib ch / 4096 = x
    have hx := x.isLt
    have ho := (s.used .offset ch).isLt
    split <;> omega

/-- What a query makes of the firmware, where it makes the state `s` of the server of it. -/
structure Answers (b : Build) (q : Query) (s : Server) (fw : Firmware) (resp : CmdResponse) (fw' : Firmware) : Prop where
  reply : resp.buffer = (Server.answer b q s).2
  represents : Represents (Server.answer b q s).1 fw'
  spi : fw'.ee.spi = fw.ee.spi
  port : fw'.port = fw.port

/-! ## Commands -/

/-- The channel that an argument names. -/
theorem channelOf_eq (t : List UInt8) : channelOf t = (Query.channel t).map fun ch => (ch, Query.trim t) := by
  have hsec : strncmp (bytes "sec") (skipSpace t) 3 = 0 ↔ bytes "sec" <+: Query.trim t :=
    strncmp_eq_zero_iff (e := bytes "sec") (by decide) _
  have hpri : strncmp (bytes "pri") (skipSpace t) 3 = 0 ↔ bytes "pri" <+: Query.trim t :=
    strncmp_eq_zero_iff (e := bytes "pri") (by decide) _
  unfold channelOf Query.channel
  simp only [hsec, hpri]
  split
  · rfl
  · split <;> rfl

variable {b : Build}

/-- A command that reports. -/
theorem cmdReport_answers (h : Represents s fw) {label : List UInt8} {print : PowerChanel → List UInt8}
    {events : Channel → PowerChanel → List FwEvent} {what : Report}
    (hr : ∀ ch, label ++ ch.name ++ bytes " " ++ print (fw.chan ch) = s.reportText what ch) (argument : List UInt8) :
    Ends (fun r => Answers b (.report what (Query.channel argument)) s fw r.2.1 r.2.2) (fun _ => False)
      (cmdReport label print events argument { buffer := [] } fw) := by
  unfold cmdReport
  rw [channelOf_eq]
  rcases Query.channel argument with _ | ch
  · exact ⟨rfl, h, rfl, rfl⟩
  · exact ⟨hr ch, ⟨h.stored, h.used, h.sample⟩, rfl, rfl⟩

theorem setChan_volts (fw : Firmware) (ch : Channel) (p : Param) (v : Nat) (c : Channel) :
    ((fw.setChan ch (putLive p v)).chan c).volts = (fw.chan c).volts := by
  cases ch <;> cases c <;> cases p <;> rfl

/-- A command that shows or sets a stored parameter. -/
theorem cmdParam_answers (hready : fw.Ready) (h : Represents s fw) {p : Param} {label : List UInt8}
    {write : Channel → Nat → EE → Option EE} {setLive : Nat → PowerChanel → PowerChanel}
    {read : Channel → EE → Option (Nat × EE)} {print : Nat → List UInt8}
    (hw : ∀ ch v ee, write ch v ee = ee.write4 (eeAddress p ch) v) (hl : setLive = putLive p)
    (hr : ∀ ch, read ch = readParam b p ch)
    (hp : ∀ ch (s : Server), label ++ ch.name ++ bytes ": " ++ print (Server.shown p (s.stored p ch)).toNat ++ bytes "\r\n" =
      s.paramText p ch) (argument : List UInt8) :
    Ends (fun r => Answers b (.param p (Query.setting argument)) s fw r.2.1 r.2.2) (fun _ => False)
      (cmdParam p label write setLive read print argument { buffer := [] } fw) := by
  subst hl
  unfold cmdParam Query.setting
  rw [channelOf_eq]
  rcases Query.channel argument with _ | ch
  · exact ⟨rfl, h, rfl, rfl⟩
  · -- what is printed last is what the EEPROM then holds
    have hshow : ∀ (s' : Server) (fw' : Firmware), fw'.Ready → Represents s' fw' → fw'.ee.spi = fw.ee.spi → fw'.port = fw.port →
        ∃ ee, read ch fw'.ee = some ((Server.shown p (s'.stored p ch)).toNat, ee) ∧
          Represents s' { fw' with ee := ee } ∧ ee.spi = fw.ee.spi := by
      intro s' fw' hready' h' hspi hport
      obtain ⟨ee, he, haged⟩ := readParam_resident hready'.ee b p ch
      refine ⟨ee, ?_, h'.quiet (read_quiet hready' haged) fun _ => rfl, haged.spi.trans hspi⟩
      rw [hr, he, ← Server.readAs_toNat, ← h'.stored p ch]
      rfl
    dsimp only [Option.map_some, Query.value]
    by_cases ha : Query.trim (Query.behindWord (Query.trim argument)) = []
    · obtain ⟨ee, he, hrep, hspi⟩ := hshow s fw hready h rfl rfl
      have ha' : skipSpace (skipChars (Query.trim argument)) = [] := ha
      simp only [ha, ha', ne_eq, not_true_eq_false, if_true, if_false, bind, Except.bind, he, returns]
      exact ⟨hp ch s, hrep, hspi, rfl⟩
    · have ha' : skipSpace (skipChars (Query.trim argument)) ≠ [] := ha
      have hv : atol32 (skipSpace (skipChars (Query.trim argument))) =
          (BitVec.ofInt 32 (strtol 32 (Query.trim (Query.behindWord (Query.trim argument))))).toNat := atol32_eq _
      generalize BitVec.ofInt 32 (strtol 32 (Query.trim (Query.behindWord (Query.trim argument)))) = w at hv
      obtain ⟨ee, he, heff⟩ := store_effect hready p ch w.isLt
      obtain ⟨ee₀, he₀, -, -, hspi, -⟩ := EE.write4_resident hready.ee (eeAddress_lt p ch) w.toNat
      cases he.symm.trans he₀
      have hrep := h.store heff fun c => setChan_volts _ ch p _ c
      obtain ⟨ee', he', hrep', hspi'⟩ := hshow _ _ heff.ready hrep (by rw [setChan_rest]; exact hspi) (by rw [setChan_rest]; rfl)
      simp only [ha, ha', ne_eq, not_false_eq_true, if_true, if_false, bind, Except.bind, hw, hv, he, he', returns]
      refine ⟨hp ch _, hrep', hspi', ?_⟩
      rw [setChan_rest]
      rfl

/-! ## Lines -/

/-- A search of a table and a search of the words it answers to find the same place. -/
theorem scan_mirrors {tbl : List (CmdTable Stop Firmware)} {w : List (List UInt8 × (List UInt8 → Query))}
    {P : Query → Except Stop (Int × CmdResponse × Firmware) → Prop} {line : List UInt8} {resp : CmdResponse}
    (h : List.Forall₂ (fun e x => e.cmd = x.1 ∧ (0 : UInt8) ∉ x.1 ∧ P (x.2 (skipChars line)) (e.vector (skipChars line) resp fw))
      tbl w) (hnone : P .unknown (.ok (-1, resp, fw))) :
    P (match w.find? fun x => x.1 <+: line with
      | some x => x.2 (Query.behindWord line)
      | none => .unknown) (CmdProcessor.scan line resp fw tbl) := by
  induction h with
  | nil => exact hnone
  | @cons e w tbl ws hew _ ih =>
    obtain ⟨hcmd, hnul, hP⟩ := hew
    rw [CmdProcessor.scan_cons (hcmd ▸ hnul), hcmd]
    by_cases hp : w.1 <+: line
    · rw [if_pos hp, List.find?_cons_of_pos (by simpa using hp)]
      exact hP
    · rw [if_neg hp, List.find?_cons_of_neg (by simpa using hp)]
      exact ih

/-- The outcome of a query: its answer, or a restart with its message. -/
def Replied (b : Build) (s : Server) (fw : Firmware) (q : Query) : Except Stop (Int × CmdResponse × Firmware) → Prop :=
  Ends (fun r => q ≠ .restart ∧ Answers b q s fw r.2.1 r.2.2)
    (Stop.Restarted fun fw' => q = .restart ∧ fw' = fw.putString (Server.answer b q s).2)

/-- A command that returns. -/
theorem Replied.of_answers {q : Query} {x : Except Stop (Int × CmdResponse × Firmware)} (hq : q ≠ .restart)
    (h : Ends (fun r => Answers b q s fw r.2.1 r.2.2) (fun _ => False) x) : Replied b s fw q x :=
  h.mono (fun _ hr => ⟨hq, hr⟩) fun _ hf => hf.elim

/-- What looking a line up leads to. -/
theorem lookup_replied (hready : fw.Ready) (h : Represents s fw) (b : Build) (line : List UInt8) (resp : CmdResponse) :
    Replied b s fw (Query.ofLine line) (lookup line (systemCommands b) resp fw) := by
  have hsample : ∀ ch, (fw.chan ch).getVoltsRaw = (s.sample ch).toNat := h.sample
  have hraw : ∀ ch, int32 (s.sample ch).toNat = (s.sample ch).toNat := by
    intro ch
    have hlt := (s.sample ch).isLt
    rw [int32]
    split <;> omega
  refine scan_mirrors (P := Replied b s fw) (w := Query.words) ?_ (.of_answers nofun ⟨rfl, h, rfl, rfl⟩)
  refine .cons ⟨rfl, by decide, ?_⟩ (.cons ⟨rfl, by decide, ?_⟩ (.cons ⟨rfl, by decide, ?_⟩ (.cons ⟨rfl, by decide, ?_⟩
    (.cons ⟨rfl, by decide, ?_⟩ (.cons ⟨rfl, by decide, ?_⟩ (.cons ⟨rfl, by decide, ?_⟩ (.cons ⟨rfl, by decide, ?_⟩ .nil)))))))
  · exact ⟨rfl, rfl⟩
  · show Replied b s fw (.report .current (Query.channel (skipChars line))) (cmdCurrent _ _ _)
    unfold cmdCurrent
    exact .of_answers nofun (cmdReport_answers h (fun ch => rfl) _)
  · show Replied b s fw (.report .volt (Query.channel (skipChars line))) (cmdVoltage _ _ _)
    unfold cmdVoltage
    refine .of_answers nofun (cmdReport_answers h (fun ch => ?_) _)
    rw [h.getVolts]
    rfl
  · show Replied b s fw (.report .rawVolt (Query.channel (skipChars line))) (cmdVoltageRaw _ _ _)
    unfold cmdVoltageRaw
    refine .of_answers nofun (cmdReport_answers h (fun ch => ?_) _)
    rw [hsample, hraw, signedDecimal_natCast]
    rfl
  · show Replied b s fw (.report .rawCurrent (Query.channel (skipChars line))) (cmdCurrentRaw _ _ _)
    unfold cmdCurrentRaw
    exact .of_answers nofun (cmdReport_answers h (fun ch => rfl) _)
  · show Replied b s fw (.param .calib (Query.setting (skipChars line))) (cmdVoltCalib b _ _ _)
    unfold cmdVoltCalib
    exact .of_answers nofun (cmdParam_answers hready h (fun _ _ _ => rfl) rfl (fun _ => rfl) (fun _ _ => rfl) _)
  · show Replied b s fw (.param .offset (Query.setting (skipChars line))) (cmdVoltOffset b _ _ _)
    unfold cmdVoltOffset
    refine .of_answers nofun (cmdParam_answers hready h (fun _ _ _ => rfl) rfl (fun _ => rfl) (fun _ _ => ?_) _)
    rw [int32_toNat]
    rfl
  · exact .of_answers nofun ⟨rfl, h, rfl, rfl⟩

/-- A step of the firmware that puts what the server writes, and leaves the bus. -/
structure Mirrors (s : Server) (out : List UInt8) (fw fw' : Firmware) : Prop where
  represents : Represents s fw'
  spi : fw'.ee.spi = fw.ee.spi
  port : Serves fw.port out fw'.port

/-- What is printed changes nothing of the server. -/
theorem Represents.printed (h : Represents s fw) (hready : fw.Ready) {out : List UInt8} (hp : Printed fw out fw') :
    Mirrors s out fw fw' := by
  refine ⟨h.quiet (hp.quiet hready) fun ch => ?_, ?_, hp.port⟩
  · rw [hp.rest]
    cases ch <;> rfl
  · rw [hp.rest]

/-- A complete line: the server reads it. -/
theorem handleLine_mirrors (hready : fw.Ready) (h : Represents s fw) (b : Build) (line : List UInt8) :
    Ends (fun fw' => Query.ofLine line ≠ .restart ∧
        Mirrors ((Server.machine b).step (.line line) s).1 ((Server.machine b).step (.line line) s).2 fw fw')
      (Stop.Restarted fun fw' => Query.ofLine line = .restart ∧
        Mirrors s ((Server.machine b).step (.line line) s).2 fw fw') (handleLine b line fw) := by
  have hc := putChar_printed fw lf
  have hq := hc.quiet hready
  have hlog : Quiet fw ((fw.putChar lf).log (.line line)) := (log_quiet hq.ready fun _ _ _ => rfl).after hq
  have hrep : Represents s ((fw.putChar lf).log (.line line)) := h.quiet hlog fun ch => by cases ch <;> rfl
  have hspi : ((fw.putChar lf).log (.line line)).ee.spi = fw.ee.spi := rfl
  have hport : Serves fw.port [lf] ((fw.putChar lf).log (.line line)).port := hc.port
  have hend := (lookup_replied hlog.ready hrep b line ((fw.putChar lf).log (.line line)).resp).and
    (lookup_ends hlog.ready b line ((fw.putChar lf).log (.line line)).resp)
  unfold handleLine
  generalize (fw.putChar lf).log (.line line) = fw₁ at *
  refine Ends.bind (hend.mono (fun _ h => h) ?_) ?_
  · rintro (fw₂ | -) ⟨hr, -⟩
    · obtain ⟨hrestart, rfl⟩ := hr
      have hf := hrep.printed hlog.ready (putString_printed (Server.answer b (Query.ofLine line) s).2 fw₁)
      exact ⟨hrestart, hf.represents, hf.spi.trans hspi, hport.trans hf.port⟩
    · exact hr
  · rintro ⟨rv, resp, fw₂⟩ ⟨⟨hne, ha⟩, -, he⟩
    have hresp : ({ fw₂ with resp := resp } : Firmware).Ready := he.ready.congr rfl
    have hrep₂ : Represents (Server.answer b (Query.ofLine line) s).1 ({ fw₂ with resp := resp } : Firmware) :=
      ⟨ha.represents.stored, ha.represents.used, ha.represents.sample⟩
    have hf := hrep₂.printed hresp (putString_printed resp.buffer _)
    have hout : Serves fw₁.port (Server.answer b (Query.ofLine line) s).2 (putString resp.buffer { fw₂ with resp := resp }).port := by
      rw [← ha.port, ← ha.reply]
      exact hf.port
    exact ⟨hne, hf.represents, (hf.spi.trans ha.spi).trans hspi, hport.trans hout⟩

end Firmware

end PowerMonitor
