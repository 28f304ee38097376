import PowerMonitor.Theorems.Calibration

/-!
# The printed value of a parameter sent back

A `calib` or an `offset` command without a value prints the one that is stored. Sent back with that text the command stores what
`atol` makes of it: a calibration is printed as an unsigned number and read as a signed one, which stops at the largest `long`,
and all ones are printed as the default they stand for.
-/

namespace PowerMonitor

open CString CmdProcessor Outcome

/-- The name of the command that sets a parameter and prints it. -/
def Param.command : Param → List UInt8
  | .calib => bytes "calib"
  | .offset => bytes "offset"

/-- What the response to the command begins with. -/
def Param.label : Param → List UInt8
  | .calib => bytes "Volt Calib "
  | .offset => bytes "Volt Offset "

/-- A channel as the argument of a command. -/
def Channel.argument : Channel → List UInt8
  | .pri => bytes "pri"
  | .sec => bytes "sec"

namespace Firmware

/-- The line that asks for the value of a parameter. -/
def query (p : Param) (ch : Channel) : List UInt8 := p.command ++ (bytes " " ++ ch.argument)

/-- The decimal text that a value is printed as. -/
def shown : Param → Nat → List UInt8
  | .calib, v => decimal v
  | .offset, v => signedDecimal (int32 v)

/-- The response with a text for the value. -/
def answer (p : Param) (ch : Channel) (t : List UInt8) : CmdResponse :=
  { buffer := p.label ++ ch.name ++ bytes ": " ++ t ++ bytes "\r\n" }

/-- The text that the command prints, sent back with the command, stores what is stored, makes it live and prints the same. -/
def Echoes (b : Build) (fw : Firmware) (p : Param) (ch : Channel) : Prop :=
  ∃ t fw₁ fw₂, lookup (query p ch) (systemCommands b) fw.resp fw = .ok (0, answer p ch t, fw₁) ∧
    lookup (query p ch ++ (bytes " " ++ t)) (systemCommands b) fw₁.resp fw₁ = .ok (0, answer p ch t, fw₂) ∧
    fw₂.setting p ch = fw.setting p ch ∧ fw₂.live p ch = asLive p (fw.setting p ch)

/-! ## The two commands -/

/-- `Cmd_VoltCalib` or `Cmd_VoltOffset`. -/
def paramCmd (b : Build) : Param → List UInt8 → CmdResponse → Firmware → Except Stop (Int × CmdResponse × Firmware)
  | .calib => cmdVoltCalib b
  | .offset => cmdVoltOffset b

theorem paramCmd_eq (b : Build) (p : Param) :
    paramCmd b p = cmdParam p p.label (fun ch v ee => ee.write4 (eeAddress p ch) v) (putLive p) (readParam b p) (shown p) := by
  cases p <;> rfl

/-- A line that begins with the name of a parameter's command is for that command. -/
theorem lookup_param (b : Build) {p : Param} {line : List UInt8} (h : p.command <+: line) (resp : CmdResponse) (fw : Firmware) :
    lookup line (systemCommands b) resp fw = paramCmd b p (skipChars line) { buffer := [] } fw := by
  have hmem : { cmd := p.command, vector := paramCmd b p } ∈ systemCommands b := by
    cases p <;> simp [systemCommands, paramCmd, Param.command]
  exact lookup_of_mem b hmem h resp fw

/-- A command without a value prints the stored one. -/
theorem paramCmd_prints {fw : Firmware} (h : fw.Ready) (b : Build) (p : Param) {argument a : List UInt8} {ch : Channel}
    (hc : channelOf argument = some (ch, a)) (ha : skipSpace (skipChars a) = []) (resp : CmdResponse) :
    ∃ fw', paramCmd b p argument resp fw = .ok (0, answer p ch (shown p (readAs p (fw.setting p ch))), fw') ∧ Quiet fw fw' := by
  obtain ⟨ee, he, haged⟩ := readParam_resident h.ee b p ch
  refine ⟨{ fw with ee := ee }, ?_, read_quiet h haged⟩
  rw [paramCmd_eq, cmdParam, hc]
  simp only [ha, ne_eq, not_true_eq_false, if_false, bind, Except.bind, he, returns]
  rfl

/-- A command with a value stores it and prints what it reads as. -/
theorem paramCmd_sets {fw : Firmware} (h : fw.Ready) (b : Build) (p : Param) {argument a t : List UInt8} {ch : Channel}
    (hc : channelOf argument = some (ch, a)) (ha : skipSpace (skipChars a) = t) (ht : t ≠ []) (resp : CmdResponse) :
    ∃ fw', paramCmd b p argument resp fw = .ok (0, answer p ch (shown p (readAs p (atol32 t))), fw') ∧
      Effect (Request.store p ch (atol32 t)).sets fw fw' := by
  obtain ⟨ee, he, heff⟩ := store_effect h p ch (atol32_lt t)
  obtain ⟨ee', he', haged⟩ := readParam_resident heff.ready.ee b p ch
  refine ⟨_, ?_, heff.before (read_quiet heff.ready haged)⟩
  have hset : EE.word _ (eeAddress p ch) = atol32 t := (heff.setting p ch).trans (by simp [Request.sets])
  rw [hset] at he'
  rw [paramCmd_eq, cmdParam, hc]
  simp only [ha, ht, ne_eq, not_false_eq_true, if_true, bind, Except.bind, he, he', returns]
  rfl

/-! ## Texts -/

theorem numeral_shown (p : Param) (v : Nat) : ∃ n, Numeral (shown p v) n := by
  cases p with
  | calib => exact ⟨v, numeral_decimal v⟩
  | offset => exact ⟨int32 v, numeral_signedDecimal (int32 v)⟩

/-- What the argument of a query is to a command, with more text behind it. -/
theorem channelOf_query (p : Param) (ch : Channel) (r : List UInt8) :
    channelOf (skipChars (query p ch ++ r)) = some (ch, ch.argument ++ r) := by
  cases p <;> cases ch <;> rfl

/-- The value that is read from a printed one. -/
theorem atol32_shown (p : Param) {v : Nat} (hv : v < 2 ^ 32) :
    atol32 (shown p v) = match p with
      | .calib => min v (2 ^ 31 - 1)
      | .offset => v := by
  cases p with
  | calib =>
    have hread := strtol_numeral (w := 32) (numeral_decimal v) (r := []) (by simp)
    rw [List.append_nil] at hread
    rw [shown, atol32, hread]
    dsimp only
    omega
  | offset =>
    have hread := strtol_numeral (w := 32) (numeral_signedDecimal (int32 v)) (r := []) (by simp)
    rw [List.append_nil] at hread
    have hlow : int32 v = v ∨ int32 v = v - 2 ^ 32 := by
      unfold int32
      split <;> omega
    have hbound : -2 ^ 31 ≤ int32 v ∧ int32 v < 2 ^ 31 := by
      unfold int32
      split <;> omega
    rw [shown, atol32, hread]
    dsimp only
    omega

theorem answer_inj {p : Param} {ch : Channel} {t t' : List UInt8} (h : answer p ch t = answer p ch t') : t = t' := by
  have hb : p.label ++ ch.name ++ bytes ": " ++ t ++ bytes "\r\n" = p.label ++ ch.name ++ bytes ": " ++ t' ++ bytes "\r\n" :=
    congrArg CmdResponse.buffer h
  exact List.append_cancel_left (List.append_cancel_right hb)

theorem setting_lt (fw : Firmware) (p : Param) (ch : Channel) : fw.setting p ch < 2 ^ 32 := by
  have hb := fun a => (fw.ee.value a).toNat_lt
  have h0 := hb (eeAddress p ch)
  have h1 := hb (eeAddress p ch + 1)
  have h2 := hb (eeAddress p ch + 2)
  have h3 := hb (eeAddress p ch + 3)
  rw [setting, EE.word]
  omega

/-! ## The echo -/

theorem query_begins (p : Param) (ch : Channel) (r : List UInt8) : p.command <+: query p ch ++ r := by
  rw [query, List.append_assoc]
  exact List.prefix_append _ _

/-- The line that asks for a parameter is answered with the stored value. -/
theorem lookup_query {fw : Firmware} (h : fw.Ready) (b : Build) (p : Param) (ch : Channel) (resp : CmdResponse) :
    ∃ fw', lookup (query p ch) (systemCommands b) resp fw =
        .ok (0, answer p ch (shown p (readAs p (fw.setting p ch))), fw') ∧ Quiet fw fw' := by
  have hskip : skipSpace (skipChars (ch.argument ++ [])) = [] := by cases ch <;> rfl
  obtain ⟨fw', he, hq⟩ := paramCmd_prints h b p (channelOf_query p ch []) hskip { buffer := [] }
  refine ⟨fw', ?_, hq⟩
  rw [← List.append_nil (query p ch), lookup_param b (query_begins p ch []), he]

/-- With a numeral behind it the line sets the parameter, and is answered with what the new value reads as. -/
theorem lookup_set {fw : Firmware} (h : fw.Ready) (b : Build) (p : Param) (ch : Channel) {t : List UInt8} {n : Int}
    (ht : Numeral t n) (resp : CmdResponse) :
    ∃ fw', lookup (query p ch ++ (bytes " " ++ t)) (systemCommands b) resp fw =
        .ok (0, answer p ch (shown p (readAs p (atol32 t))), fw') ∧
      Effect (Request.store p ch (atol32 t)).sets fw fw' := by
  have hne : t ≠ [] := by
    obtain ⟨c, l, rfl, -⟩ := ht.exists_cons
    exact List.cons_ne_nil c l
  have hskip : skipSpace (skipChars (ch.argument ++ (bytes " " ++ t))) = t := by
    have hspace : skipSpace (skipChars (ch.argument ++ (bytes " " ++ t))) = skipSpace t := by cases ch <;> rfl
    have hnum := ht.dropWhile_isspace []
    rw [List.append_nil] at hnum
    rw [hspace, skipSpace, hnum]
  obtain ⟨fw', he, heff⟩ := paramCmd_sets h b p (channelOf_query p ch (bytes " " ++ t)) hskip hne { buffer := [] }
  exact ⟨fw', by rw [lookup_param b (query_begins p ch _), he], heff⟩

/-- The stored value is accepted back exactly when it is what `atol` reads from the printed text. -/
theorem Ready.echoes_iff {fw : Firmware} (h : fw.Ready) (b : Build) (p : Param) (ch : Channel) :
    fw.Echoes b p ch ↔ atol32 (shown p (readAs p (fw.setting p ch))) = fw.setting p ch := by
  obtain ⟨n, hnum⟩ := numeral_shown p (readAs p (fw.setting p ch))
  obtain ⟨fw₁, he₁, hq⟩ := lookup_query h b p ch fw.resp
  obtain ⟨fw₂, he₂, heff⟩ := lookup_set hq.ready b p ch hnum fw₁.resp
  obtain ⟨v, hv⟩ : ∃ v, v = atol32 (shown p (readAs p (fw.setting p ch))) := ⟨_, rfl⟩
  rw [← hv] at he₂ heff ⊢
  have hsets : (Request.store p ch v).sets p ch = some v := if_pos ⟨rfl, rfl⟩
  have hset : fw₂.setting p ch = v := by rw [heff.setting, hsets, Option.getD_some]
  have hlive : fw₂.live p ch = asLive p v := by rw [heff.live, hsets, Option.map_some, Option.getD_some]
  constructor
  · rintro ⟨t, fw₁', fw₂', h₁, h₂, hstored, -⟩
    rw [he₁, Except.ok.injEq, Prod.mk.injEq, Prod.mk.injEq] at h₁
    obtain ⟨-, ha, rfl⟩ := h₁
    obtain rfl := answer_inj ha
    rw [he₂, Except.ok.injEq, Prod.mk.injEq, Prod.mk.injEq] at h₂
    obtain ⟨-, -, rfl⟩ := h₂
    rw [← hset, hstored]
  · intro hback
    rw [hback] at he₂ hset hlive
    exact ⟨_, fw₁, fw₂, he₁, he₂, hset, hlive⟩

/-- Which values `atol` reads from their printed texts. -/
theorem atol32_shown_readAs_iff (p : Param) {v : Nat} (hv : v < 2 ^ 32) :
    atol32 (shown p (readAs p v)) = v ↔ v ≠ 0xFFFFFFFF ∧ (p = .calib → v < 2 ^ 31) := by
  have hlt : readAs p v < 2 ^ 32 := by
    unfold readAs
    split
    · cases p <;> decide
    · exact hv
  rw [atol32_shown p hlt]
  cases p with
  | calib =>
    simp only [readAs, default, true_implies]
    split <;> omega
  | offset =>
    simp only [readAs, default, reduceCtorEq, false_implies, and_true]
    split <;> omega

end Firmware

/-- In a reachable state the printed value of a parameter is accepted back unchanged if and only if the stored word is not all
ones and, for a calibration, is below 2^31. -/
theorem calibration_echo_iff {b : Build} {board : Firmware.Board} {ops : List MainOp} {fw : Firmware}
    (h : Firmware.reach b board ops = .ok fw) (p : Param) (ch : Channel) :
    fw.Echoes b p ch ↔ fw.setting p ch ≠ 0xFFFFFFFF ∧ (p = .calib → fw.setting p ch < 2 ^ 31) :=
  ((Firmware.ready_of_reach h).echoes_iff b p ch).trans (Firmware.atol32_shown_readAs_iff p (fw.setting_lt p ch))

/-- The line "calib pri 1000" stores a calibration that can be sent back. -/
theorem calibration_echo_iff_stored :
    let b : Build := { date := [], time := [], order4 := .leftFirst, order2 := .leftFirst }
    let board : Firmware.Board :=
      { dev := { pages := fun _ _ => 0xFF, buf := fun _ _ => 0, programs := [] }, busy := 0, delays := [], id := 0, adcIn := [],
        usart := [] }
    ∃ fw, Firmware.reach b board ((bytes "calib pri 1000\r").map MainOp.receive) = .ok fw ∧ fw.setting .calib .pri = 1000 ∧
      fw.Echoes b .calib .pri := by
  intro b board
  obtain ⟨fw, hfw, -, hset, -⟩ := Firmware.reach_line b board (l := bytes "calib pri 1000") (by decide) .calib .pri (v := 1000) (by decide)
  refine ⟨fw, hfw, hset, (calibration_echo_iff hfw .calib .pri).mpr ?_⟩
  rw [hset]
  decide

/-- The line "calib pri -5" stores 4294967291. That is printed, and sent back it is read as 2147483647. -/
theorem calibration_not_echoed :
    let b : Build := { date := [], time := [], order4 := .leftFirst, order2 := .leftFirst }
    let board : Firmware.Board :=
      { dev := { pages := fun _ _ => 0xFF, buf := fun _ _ => 0, programs := [] }, busy := 0, delays := [], id := 0, adcIn := [],
        usart := [] }
    ∃ fw, Firmware.reach b board ((bytes "calib pri -5\r").map MainOp.receive) = .ok fw ∧
      fw.setting .calib .pri = 4294967291 ∧ ¬fw.Echoes b .calib .pri := by
  intro b board
  obtain ⟨fw, hfw, hready, hset, -⟩ := Firmware.reach_line b board (l := bytes "calib pri -5") (by decide) .calib .pri
    (v := 4294967291) (by decide)
  refine ⟨fw, hfw, hset, fun h => ?_⟩
  have hback := (hready.echoes_iff b .calib .pri).mp h
  rw [hset, Firmware.readAs, if_neg (by decide), Firmware.atol32_shown .calib (by decide)] at hback
  exact absurd hback (by decide)

end PowerMonitor
