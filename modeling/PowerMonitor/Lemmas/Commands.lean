import PowerMonitor.Lemmas.Parameters
import PowerMonitor.Lemmas.SerialPort
import PowerMonitor.Lib.Outcome

/-!
# The firmware's commands

What a line asks for is its `Request`. What the firmware does with it is an `Effect`: the parameters that are stored, in the
EEPROM and in the channels' structures; every other parameter stays, stored and live, and so does the flash. A command ends in a
state or in `Cmd_Restart`, and never hangs.
-/

namespace PowerMonitor

open CString CmdProcessor Outcome

/-! ## Requests -/

/-- What a line asks for: a restart, a parameter to be stored, or nothing of the kind. -/
inductive Request where
  | restart
  | store (p : Param) (ch : Channel) (v : Nat)
  | other
  deriving DecidableEq, Repr

namespace Request

/-- The request of a `calib` or an `offset` command with an argument. -/
def ofArgument (p : Param) (argument : List UInt8) : Request :=
  match Firmware.channelOf argument with
  | none => .other
  | some (ch, argument) =>
    let argument := skipSpace (skipChars argument)
    if argument = [] then .other else .store p ch (atol32 argument)

/-- The request of a line. -/
def ofLine (l : List UInt8) : Request :=
  if bytes "restart" <+: l then .restart
  else if bytes "calib" <+: l then ofArgument .calib (skipChars l)
  else if bytes "offset" <+: l then ofArgument .offset (skipChars l)
  else .other

theorem ofArgument_ne_restart (p : Param) (argument : List UInt8) : ofArgument p argument ≠ .restart := by
  unfold ofArgument
  split
  · exact nofun
  · dsimp only
    split <;> exact nofun

/-- The value a request stores in a parameter. -/
def sets : Request → Param → Channel → Option Nat
  | .store q c v, p, ch => if q = p ∧ c = ch then some v else none
  | .restart, _, _ => none
  | .other, _, _ => none

end Request

theorem atol32_lt (t : List UInt8) : atol32 t < 2 ^ 32 := by
  unfold atol32
  omega

namespace Firmware

/-! ## What is stored and what is live -/

/-- The word of a parameter, as the page cache shows it. -/
noncomputable def setting (fw : Firmware) (p : Param) (ch : Channel) : Nat := EE.word fw.ee.value (eeAddress p ch)

/-- The word of a parameter in flash. -/
def flashed (fw : Firmware) (p : Param) (ch : Channel) : Nat := EE.word fw.ee.flashByte (eeAddress p ch)

/-- The parameter in the channel's structure. -/
def live (fw : Firmware) : Param → Channel → Int
  | .calib, ch => (fw.chan ch).vCalib
  | .offset, ch => (fw.chan ch).voltOffset

/-- A word as its command puts it into the channel's structure. -/
def asLive : Param → Nat → Int
  | .calib, v => v
  | .offset, v => int32 v

/-- The value a parameter was last set to, if it was set, and whether `EE_Cache_Check` has run since, after one more event. -/
def track (p : Param) (ch : Channel) (r : Option (Nat × Bool)) : FwEvent → Option (Nat × Bool)
  | .stored q c v => if q = p ∧ c = ch then some (v, false) else r
  | .cacheCheck => r.map fun x => (x.1, true)
  | .line _ => r
  | .reading _ _ => r

/-- The value a parameter was last set to, if it was set, and whether `EE_Cache_Check` has run since. -/
def latest (fw : Firmware) (p : Param) (ch : Channel) : Option (Nat × Bool) := fw.events.foldl (track p ch) none

theorem latest_log (fw : Firmware) (e : FwEvent) (p : Param) (ch : Channel) :
    (fw.log e).latest p ch = track p ch (fw.latest p ch) e := by
  simp [latest, log]

/-! ## Effects -/

/-- The invariant of the main loop: page 0 of the token is in slot 0, no converter is selected by the flash's pin, and the line
buffer and the receive ring have their sizes. -/
structure Ready (fw : Firmware) : Prop where
  ee : fw.ee.Resident
  token : fw.ee.token = eeToken
  pri : fw.pri.adc ≠ .PA17
  sec : fw.sec.adc ≠ .PA17
  msgBuf : fw.msgBuf.length = rxSizeMax + 1
  index : fw.uart.Indexed

/-- A change of what the invariant says nothing about. -/
theorem Ready.congr {fw fw' : Firmware} (h : fw.Ready) (he : (fw'.ee, fw'.pri.adc, fw'.sec.adc, fw'.msgBuf.length, fw'.uart) =
    (fw.ee, fw.pri.adc, fw.sec.adc, fw.msgBuf.length, fw.uart)) : fw'.Ready := by
  simp only [Prod.mk.injEq] at he
  obtain ⟨hee, hpri, hsec, hbuf, hu⟩ := he
  exact ⟨hee ▸ h.ee, hee ▸ h.token, hpri ▸ h.pri, hsec ▸ h.sec, hbuf.trans h.msgBuf, hu ▸ h.index⟩

/-- A step that stores the parameters `f` says, in the EEPROM and in the channels, and no others. -/
structure Effect (f : Param → Channel → Option Nat) (fw fw' : Firmware) : Prop where
  ready : fw'.Ready
  dev : fw'.ee.spi.chip.dev = fw.ee.spi.chip.dev
  setting : ∀ p ch, fw'.setting p ch = (f p ch).getD (fw.setting p ch)
  live : ∀ p ch, fw'.live p ch = ((f p ch).map (asLive p)).getD (fw.live p ch)
  latest : ∀ p ch, fw'.latest p ch = ((f p ch).map fun v => (v, false)).or (fw.latest p ch)
  port : ∃ out, Serves fw.port out fw'.port

/-- A step that stores nothing. -/
abbrev Quiet (fw fw' : Firmware) : Prop := Effect (fun _ _ => none) fw fw'

theorem Effect.refl {fw : Firmware} (h : fw.Ready) : Quiet fw fw :=
  ⟨h, rfl, by simp, by simp, by simp, [], .refl _⟩

/-- A step that changes nothing a parameter is read from. -/
theorem Effect.of_eq {fw fw' : Firmware} (h : fw'.Ready) (hv : fw'.ee.value = fw.ee.value)
    (hd : fw'.ee.spi.chip.dev = fw.ee.spi.chip.dev) (hl : fw'.live = fw.live) (he : fw'.latest = fw.latest)
    (hp : ∃ out, Serves fw.port out fw'.port) : Quiet fw fw' :=
  ⟨h, hd, by simp [Firmware.setting, hv], by simp [hl], by simp [he], hp⟩

theorem Effect.trans {f g : Param → Channel → Option Nat} {fw fw' fw'' : Firmware} (h : Effect f fw fw')
    (h' : Effect g fw' fw'') : Effect (fun p ch => (g p ch).or (f p ch)) fw fw'' := by
  obtain ⟨s, hs⟩ := h.port
  obtain ⟨t, ht⟩ := h'.port
  refine ⟨h'.ready, h'.dev.trans h.dev, ?_, ?_, ?_, s ++ t, hs.trans ht⟩
  · intro p ch
    rw [h'.setting, h.setting]
    cases g p ch <;> rfl
  · intro p ch
    rw [h'.live, h.live]
    cases g p ch <;> rfl
  · intro p ch
    rw [h'.latest, h.latest]
    cases g p ch <;> rfl

theorem Effect.got {f : Param → Channel → Option Nat} {fw fw' : Firmware} (h : Effect f fw fw') : fw'.uart.got = fw.uart.got := by
  obtain ⟨out, hp⟩ := h.port
  exact hp.got

/-- A step that stores nothing, before or after another. -/
theorem Effect.after {f : Param → Channel → Option Nat} {fw fw' fw'' : Firmware} (h : Effect f fw' fw'') (h₀ : Quiet fw fw') :
    Effect f fw fw'' := by
  simpa using h₀.trans h

theorem Effect.before {f : Param → Channel → Option Nat} {fw fw' fw'' : Firmware} (h : Effect f fw fw') (h₁ : Quiet fw' fw'') :
    Effect f fw fw'' := by
  simpa using h.trans h₁

theorem Printed.quiet {fw fw' : Firmware} {out : List UInt8} (h : fw.Ready) (hp : Printed fw out fw') : Quiet fw fw' := by
  have hready : fw'.Ready := by
    rw [hp.rest]
    exact ⟨h.ee, h.token, h.pri, h.sec, h.msgBuf, (hp.port.backlog h.index).1⟩
  refine Effect.of_eq hready ?_ ?_ ?_ ?_ ⟨out, hp.port⟩ <;> rw [hp.rest] <;> rfl

/-- A record that says nothing about a stored parameter. -/
theorem log_quiet {fw : Firmware} (h : fw.Ready) {e : FwEvent} (he : ∀ p ch r, track p ch r e = r) : Quiet fw (fw.log e) :=
  Effect.of_eq (h.congr rfl) rfl rfl rfl
    (by funext p ch; rw [latest_log, he]) ⟨[], .refl _⟩

/-- A read of the EEPROM. -/
theorem read_quiet {fw : Firmware} (h : fw.Ready) {ee : EE} (he : EE.Aged fw.ee ee) : Quiet fw { fw with ee := ee } :=
  Effect.of_eq ⟨he.resident, he.token.trans h.token, h.pri, h.sec, h.msgBuf, h.index⟩ he.value
    (congrArg (fun s : Spi => s.chip.dev) he.spi) rfl rfl ⟨[], .refl _⟩

/-! ## Commands -/

/-- A parameter in a channel's structure is set from a word. -/
def putLive : Param → Nat → PowerChanel → PowerChanel
  | .calib, v, c => c.setVoltCalib v
  | .offset, v, c => c.setVoltOffset (int32 v)

theorem eeAddress_lt (p : Param) (ch : Channel) : eeAddress p ch + 3 < 512 := by cases p <;> cases ch <;> decide

/-- The words of two parameters do not overlap. -/
theorem eeAddress_disjoint {p q : Param} {ch c : Channel} (h : ¬(p = q ∧ ch = c)) :
    eeAddress q c + 4 ≤ eeAddress p ch ∨ eeAddress p ch + 4 ≤ eeAddress q c := by
  cases p <;> cases q <;> cases ch <;> cases c <;> revert h <;> decide

/-- A change of the channels' structures leaves everything else. -/
theorem setChan_rest (fw : Firmware) (ch : Channel) (f : PowerChanel → PowerChanel) :
    fw.setChan ch f = { fw with pri := (fw.setChan ch f).pri, sec := (fw.setChan ch f).sec } := by cases ch <;> rfl

theorem setChan_adc (fw : Firmware) (ch : Channel) (p : Param) (v : Nat) :
    (fw.setChan ch (putLive p v)).pri.adc = fw.pri.adc ∧ (fw.setChan ch (putLive p v)).sec.adc = fw.sec.adc := by
  cases ch <;> cases p <;> exact ⟨rfl, rfl⟩

theorem setChan_live (fw : Firmware) (ch : Channel) (p : Param) (v : Nat) (q : Param) (c : Channel) :
    (fw.setChan ch (putLive p v)).live q c = (((Request.store p ch v).sets q c).map (asLive q)).getD (fw.live q c) := by
  cases p <;> cases ch <;> cases q <;> cases c <;> rfl

/-- The store of a parameter: in the EEPROM, in the channel's structure, and in the record. -/
theorem store_effect {fw : Firmware} (h : fw.Ready) (p : Param) (ch : Channel) {v : Nat} (hv : v < 2 ^ 32) :
    ∃ ee, fw.ee.write4 (eeAddress p ch) v = some ee ∧
      Effect (Request.store p ch v).sets fw
        ((({ fw with ee := ee } : Firmware).setChan ch (putLive p v)).log (.stored p ch v)) := by
  obtain ⟨ee, he, hr, ht, hspi, hself, hother⟩ := EE.write4_resident h.ee (eeAddress_lt p ch) v
  refine ⟨ee, he, ?_⟩
  obtain ⟨hpri, hsec⟩ := setChan_adc { fw with ee := ee } ch p v
  have hlive := setChan_live { fw with ee := ee } ch p v
  have hrest := setChan_rest { fw with ee := ee } ch (putLive p v)
  generalize ({ fw with ee := ee } : Firmware).setChan ch (putLive p v) = fw' at *
  refine ⟨⟨?_, ?_, ?_, ?_, ?_, ?_⟩, ?_, ?_, hlive, ?_, [], ?_⟩
  · rw [hrest]
    exact hr
  · rw [hrest]
    exact ht.trans h.token
  · exact fun e => h.pri (hpri.symm.trans e)
  · exact fun e => h.sec (hsec.symm.trans e)
  · rw [hrest]
    exact h.msgBuf
  · rw [hrest]
    exact h.index
  · rw [hrest]
    exact congrArg (fun s : Spi => s.chip.dev) hspi
  · intro q c
    have hee : (fw'.log (.stored p ch v)).setting q c = EE.word ee.value (eeAddress q c) := by
      rw [hrest]
      rfl
    rw [hee, Request.sets]
    by_cases hqc : p = q ∧ ch = c
    · obtain ⟨rfl, rfl⟩ := hqc
      rw [if_pos ⟨rfl, rfl⟩, hself, Nat.mod_eq_of_lt hv, Option.getD_some]
    · rw [if_neg hqc, hother _ (eeAddress_lt q c) (eeAddress_disjoint hqc), Option.getD_none, setting]
  · intro q c
    have hev : fw'.latest q c = fw.latest q c := by
      rw [hrest]
      rfl
    rw [latest_log, hev, track, Request.sets]
    split <;> rfl
  · rw [hrest]
    exact Serves.refl fw.port

/-- A command that sets a parameter has the effect its argument asks for. -/
theorem cmdParam_ends {fw : Firmware} (h : fw.Ready) (p : Param) (label : List UInt8) {write : Channel → Nat → EE → Option EE}
    {setLive : Nat → PowerChanel → PowerChanel} {read : Channel → EE → Option (Nat × EE)} (print : Nat → List UInt8)
    (hw : ∀ ch v ee, write ch v ee = ee.write4 (eeAddress p ch) v) (hl : ∀ v c, setLive v c = putLive p v c)
    (hr : ∀ ch (ee : EE), ee.Resident → ∃ v ee', read ch ee = some (v, ee') ∧ EE.Aged ee ee') (argument : List UInt8)
    (resp : CmdResponse) :
    Ends (fun r => Effect (Request.ofArgument p argument).sets fw r.2.2) (fun _ => False)
      (cmdParam p label write setLive read print argument resp fw) := by
  obtain rfl : setLive = putLive p := by
    funext v c
    exact hl v c
  unfold cmdParam Request.ofArgument
  cases channelOf argument with
  | none => exact Effect.refl h
  | some r =>
    obtain ⟨ch, argument⟩ := r
    dsimp only
    by_cases ha : skipSpace (skipChars argument) = []
    · obtain ⟨v, ee, he, haged⟩ := hr ch fw.ee h.ee
      simp only [ha, ne_eq, not_true_eq_false, if_true, if_false, bind, Except.bind, he, returns]
      exact read_quiet h haged
    · obtain ⟨ee, he, heff⟩ := store_effect h p ch (atol32_lt (skipSpace (skipChars argument)))
      obtain ⟨v, ee', he', haged⟩ := hr ch _ heff.ready.ee
      simp only [ha, ne_eq, not_false_eq_true, if_true, if_false, bind, Except.bind, hw, he, he', returns]
      exact heff.before (read_quiet heff.ready haged)

theorem cmdVoltCalib_ends {fw : Firmware} (h : fw.Ready) (b : Build) (argument : List UInt8) (resp : CmdResponse) :
    Ends (fun r => Effect (Request.ofArgument .calib argument).sets fw r.2.2) (fun _ => False)
      (cmdVoltCalib b argument resp fw) :=
  cmdParam_ends h .calib _ _ (fun _ _ _ => rfl) (fun _ _ => rfl)
    (fun ch _ hee => ⟨_, EE.read4Default_resident hee b.order4 b.order2 (eeAddress_lt .calib ch) 856⟩) argument resp

theorem cmdVoltOffset_ends {fw : Firmware} (h : fw.Ready) (b : Build) (argument : List UInt8) (resp : CmdResponse) :
    Ends (fun r => Effect (Request.ofArgument .offset argument).sets fw r.2.2) (fun _ => False)
      (cmdVoltOffset b argument resp fw) :=
  cmdParam_ends h .offset _ _ (fun _ _ _ => rfl) (fun _ _ => rfl)
    (fun ch _ hee => ⟨_, EE.read4Default_resident hee b.order4 b.order2 (eeAddress_lt .offset ch) 1⟩) argument resp

theorem returns_ends {α : Type} {E : Stop → Prop} (x : Option α) (h : E .hang) : Ends (fun _ => True) E (returns x) := by
  cases x with
  | none => exact h
  | some a => trivial

/-- A command that reports stores nothing. -/
theorem cmdReport_ends {fw : Firmware} (h : fw.Ready) (label : List UInt8) (print : PowerChanel → List UInt8)
    {events : Channel → PowerChanel → List FwEvent} (he : ∀ p q ch c r, (events ch c).foldl (track p q) r = r)
    (argument : List UInt8) (resp : CmdResponse) :
    Ends (fun r => Quiet fw r.2.2) (fun _ => False) (cmdReport label print events argument resp fw) := by
  unfold cmdReport
  split
  · exact Effect.refl h
  · refine Effect.of_eq (h.congr rfl) rfl rfl rfl ?_ ⟨[], .refl _⟩
    funext p q
    rw [latest, List.foldl_append, he, latest]

/-! ## Lines -/

end Firmware

/-- A reason to stop that is a restart, in a state that satisfies `R`. -/
def Stop.Restarted (R : Firmware → Prop) : Stop → Prop
  | .restart fw => R fw
  | .hang => False

/-- A test of the command table. -/
theorem CmdProcessor.scan_cons {ε σ : Type*} {e : List UInt8} (he : (0 : UInt8) ∉ e)
    (f : List UInt8 → CmdResponse → σ → Except ε (Int × CmdResponse × σ)) (line : List UInt8) (resp : CmdResponse) (s : σ)
    (tbl : List (CmdTable ε σ)) :
    CmdProcessor.scan line resp s ({ cmd := e, vector := f } :: tbl) =
      if e <+: line then f (skipChars line) resp s else CmdProcessor.scan line resp s tbl := by
  rw [CmdProcessor.scan]
  exact if_congr (strncmp_eq_zero_iff he line) rfl rfl

/-- The first entry that a search by prefix finds is called. -/
theorem CmdProcessor.scan_eq_find? {ε σ : Type*} {tbl : List (CmdTable ε σ)} (h : ∀ entry ∈ tbl, (0 : UInt8) ∉ entry.cmd)
    (line : List UInt8) (resp : CmdResponse) (s : σ) :
    CmdProcessor.scan line resp s tbl =
      match tbl.find? fun entry => entry.cmd <+: line with
      | some entry => entry.vector (skipChars line) resp s
      | none => .ok (-1, resp, s) := by
  induction tbl with
  | nil => rfl
  | cons entry tbl ih =>
    rw [CmdProcessor.scan_cons (h entry List.mem_cons_self)]
    by_cases hp : entry.cmd <+: line
    · rw [if_pos hp, List.find?_cons_of_pos (by simpa using hp)]
    · rw [if_neg hp, List.find?_cons_of_neg (by simpa using hp)]
      exact ih fun e he => h e (List.mem_cons_of_mem entry he)

/-- Two names of which neither begins with the other do not both begin a line. -/
theorem not_prefix_of_prefix {e e' line : List UInt8} (h : e <+: line) (hne : ¬ e <+: e') (hne' : ¬ e' <+: e) :
    ¬ e' <+: line := fun h' => (List.prefix_or_prefix_of_prefix h h').elim hne hne'

/-- What the commands of a table whose names the line begins with lead to, `CP_Lookup` leads to. -/
theorem CmdProcessor.scan_ends {ε σ : Type*} {P : Int × CmdResponse × σ → Prop} {E : ε → Prop} {line : List UInt8}
    {resp : CmdResponse} {s : σ} {tbl : List (CmdTable ε σ)} (hnul : ∀ n ∈ tbl.map CmdTable.cmd, (0 : UInt8) ∉ n)
    (hnone : (∀ n ∈ tbl.map CmdTable.cmd, ¬n <+: line) → P (-1, resp, s))
    (h : ∀ entry ∈ tbl, entry.cmd <+: line → Ends P E (entry.vector (skipChars line) resp s)) :
    Ends P E (CmdProcessor.scan line resp s tbl) := by
  induction tbl with
  | nil => exact hnone fun n hn => absurd hn List.not_mem_nil
  | cons entry tbl ih =>
    rw [List.map_cons, List.forall_mem_cons] at hnul
    rw [CmdProcessor.scan_cons hnul.1]
    split
    · next hp => exact h entry List.mem_cons_self hp
    · next hp =>
      refine ih hnul.2 (fun hno => hnone ?_) fun e he => h e (List.mem_cons_of_mem entry he)
      rw [List.map_cons, List.forall_mem_cons]
      exact ⟨hp, hno⟩

/-- Among names of which none begins another, the one that the line begins with is called, wherever it stands in the table. -/
theorem CmdProcessor.scan_of_mem {ε σ : Type*} {tbl : List (CmdTable ε σ)} (hnul : ∀ n ∈ tbl.map CmdTable.cmd, (0 : UInt8) ∉ n)
    (hfree : (tbl.map CmdTable.cmd).Pairwise fun n n' => ¬n <+: n' ∧ ¬n' <+: n) {entry : CmdTable ε σ} (he : entry ∈ tbl)
    {line : List UInt8} (hp : entry.cmd <+: line) (resp : CmdResponse) (s : σ) :
    CmdProcessor.scan line resp s tbl = entry.vector (skipChars line) resp s := by
  induction tbl with
  | nil => exact absurd he List.not_mem_nil
  | cons e tbl ih =>
    rw [List.map_cons, List.pairwise_cons] at hfree
    rw [List.map_cons, List.forall_mem_cons] at hnul
    rw [CmdProcessor.scan_cons hnul.1]
    rcases List.mem_cons.mp he with rfl | he
    · rw [if_pos hp]
    · obtain ⟨hne, hne'⟩ := hfree.1 entry.cmd (List.mem_map_of_mem he)
      have hno := not_prefix_of_prefix hp hne' hne
      rw [if_neg hno]
      exact ih hnul.2 hfree.2 he

namespace Firmware

/-- The firmware's commands are strings of which none begins another. -/
theorem systemCommands_names (b : Build) :
    (∀ n ∈ (systemCommands b).map CmdTable.cmd, (0 : UInt8) ∉ n) ∧
      ((systemCommands b).map CmdTable.cmd).Pairwise fun n n' => ¬n <+: n' ∧ ¬n' <+: n := by
  have hnames : (systemCommands b).map CmdTable.cmd = [bytes "restart", bytes "current", bytes "volt", bytes "rawv",
      bytes "rawc", bytes "calib", bytes "offset", bytes "ver"] := rfl
  rw [hnames]
  decide

/-- The command whose name the line begins with. -/
theorem lookup_of_mem (b : Build) {entry : CmdTable Stop Firmware} (he : entry ∈ systemCommands b) {line : List UInt8}
    (hp : entry.cmd <+: line) (resp : CmdResponse) (fw : Firmware) :
    lookup line (systemCommands b) resp fw = entry.vector (skipChars line) { buffer := [] } fw :=
  scan_of_mem (systemCommands_names b).1 (systemCommands_names b).2 he hp { buffer := [] } fw

/-- The request of a line with a name that stores nothing. -/
theorem ofLine_other {e line : List UInt8} (h : e <+: line)
    (hne : ∀ n ∈ [bytes "restart", bytes "calib", bytes "offset"], ¬ e <+: n ∧ ¬ n <+: e) : Request.ofLine line = .other := by
  have hnot : ∀ n ∈ [bytes "restart", bytes "calib", bytes "offset"], ¬ n <+: line := fun n hn =>
    not_prefix_of_prefix h (hne n hn).1 (hne n hn).2
  rw [Request.ofLine, if_neg (hnot _ (by simp)), if_neg (hnot _ (by simp)), if_neg (hnot _ (by simp))]

/-- The command a line looks up does what the line asks for, and only `Cmd_Restart` does not return. -/
theorem lookup_ends {fw : Firmware} (h : fw.Ready) (b : Build) (line : List UInt8) (resp : CmdResponse) :
    Ends (fun r => Request.ofLine line ≠ .restart ∧ Effect (Request.ofLine line).sets fw r.2.2)
      (Stop.Restarted fun fw' => Request.ofLine line = .restart ∧ Quiet fw fw') (lookup line (systemCommands b) resp fw) := by
  have hother : ∀ {x : Except Stop (Int × CmdResponse × Firmware)}, Request.ofLine line = .other →
      Ends (fun r => Quiet fw r.2.2) (fun _ => False) x →
      Ends (fun r => Request.ofLine line ≠ .restart ∧ Effect (Request.ofLine line).sets fw r.2.2)
        (Stop.Restarted fun fw' => Request.ofLine line = .restart ∧ Quiet fw fw') x := by
    intro x ho hx
    rw [ho]
    exact hx.mono (fun r hr => ⟨nofun, hr⟩) fun _ hf => hf.elim
  refine scan_ends (systemCommands_names b).1 (fun hno => ?_) ?_
  · have hreq : Request.ofLine line = .other := by
      rw [Request.ofLine, if_neg (hno _ (by simp [systemCommands])), if_neg (hno _ (by simp [systemCommands])),
        if_neg (hno _ (by simp [systemCommands]))]
    rw [hreq]
    exact ⟨nofun, Effect.refl h⟩
  · simp only [systemCommands, List.forall_mem_cons, List.not_mem_nil, false_implies, implies_true, and_true]
    refine ⟨fun hp => ?_, fun hp => ?_, fun hp => ?_, fun hp => ?_, fun hp => ?_, fun hp => ?_, fun hp => ?_, fun hp => ?_⟩
    · exact ⟨by rw [Request.ofLine, if_pos hp], (putString_printed _ fw).quiet h⟩
    · exact hother (ofLine_other hp (by decide)) (cmdReport_ends h _ _ (fun _ _ _ _ _ => rfl) _ _)
    · exact hother (ofLine_other hp (by decide)) (cmdReport_ends h _ _ (fun _ _ _ _ _ => rfl) _ _)
    · exact hother (ofLine_other hp (by decide)) (cmdReport_ends h _ _ (fun _ _ _ _ _ => rfl) _ _)
    · exact hother (ofLine_other hp (by decide)) (cmdReport_ends h _ _ (fun _ _ _ _ _ => rfl) _ _)
    · have hrestart : ¬bytes "restart" <+: line := not_prefix_of_prefix hp (by decide) (by decide)
      have hreq : Request.ofLine line = Request.ofArgument .calib (skipChars line) := by
        rw [Request.ofLine, if_neg hrestart, if_pos hp]
      rw [hreq]
      exact (cmdVoltCalib_ends h b _ _).mono (fun r hr => ⟨Request.ofArgument_ne_restart _ _, hr⟩) fun _ hf => hf.elim
    · have hrestart : ¬bytes "restart" <+: line := not_prefix_of_prefix hp (by decide) (by decide)
      have hcalib : ¬bytes "calib" <+: line := not_prefix_of_prefix hp (by decide) (by decide)
      have hreq : Request.ofLine line = Request.ofArgument .offset (skipChars line) := by
        rw [Request.ofLine, if_neg hrestart, if_neg hcalib, if_pos hp]
      rw [hreq]
      exact (cmdVoltOffset_ends h b _ _).mono (fun r hr => ⟨Request.ofArgument_ne_restart _ _, hr⟩) fun _ hf => hf.elim
    · exact hother (ofLine_other hp (by decide)) (Effect.refl h)

/-- A complete line has the effect it asks for. -/
theorem handleLine_ends {fw : Firmware} (h : fw.Ready) (b : Build) (line : List UInt8) :
    Ends (fun fw' => Request.ofLine line ≠ .restart ∧ Effect (Request.ofLine line).sets fw fw')
      (Stop.Restarted fun fw' => Request.ofLine line = .restart ∧ Quiet fw fw') (handleLine b line fw) := by
  have hc : Quiet fw (fw.putChar lf) := (putChar_printed fw lf).quiet h
  have hl : Quiet fw ((fw.putChar lf).log (.line line)) := (log_quiet hc.ready fun _ _ _ => rfl).after hc
  refine Ends.bind ((lookup_ends hl.ready b line _).mono (fun _ hr => hr) ?_) ?_
  · rintro (fw' | _) he
    · exact ⟨he.1, he.2.after hl⟩
    · exact he
  · rintro ⟨rv, resp, fw'⟩ ⟨hne, he⟩
    have hresp : Quiet fw' { fw' with resp := resp } :=
      Effect.of_eq (he.ready.congr rfl) rfl rfl rfl rfl
        ⟨[], .refl _⟩
    have hp := (putString_printed resp.buffer _).quiet hresp.ready
    exact ⟨hne, ((he.after hl).before hresp).before hp⟩

/-- What a received byte asks for: a terminator asks for what the line before it asks for. -/
def charRequest (c : UInt8) (fw : Firmware) : Request :=
  if (c = cr ∨ c = lf) ∧ fw.rxSize ≠ 0 then Request.ofLine (text fw.msgBuf) else .other

/-- Stores to `MsgBuf` leave its size. -/
theorem length_stores (ss : List (Nat × UInt8)) (m : List UInt8) : (ss.foldl (fun m s => m.set s.1 s.2) m).length = m.length := by
  induction ss generalizing m with
  | nil => rfl
  | cons s ss ih => rw [List.foldl_cons, ih, List.length_set]

theorem receiveChar_ends {fw : Firmware} (h : fw.Ready) (b : Build) (c : UInt8) :
    Ends (fun fw' => charRequest c fw ≠ .restart ∧ Effect (charRequest c fw).sets fw fw')
      (Stop.Restarted fun fw' => charRequest c fw = .restart ∧ Quiet fw fw') (receiveChar b c fw) := by
  have hbuf : ∀ m n, m.length = fw.msgBuf.length → Quiet fw { fw with msgBuf := m, rxSize := n } := fun m n hm =>
    Effect.of_eq ⟨h.ee, h.token, h.pri, h.sec, hm.trans h.msgBuf, h.index⟩ rfl rfl rfl rfl ⟨[], .refl _⟩
  unfold receiveChar charRequest
  by_cases hc : c = cr ∨ c = lf
  · by_cases hr : fw.rxSize = 0
    · simp only [hc, hr, ne_eq, not_true_eq_false, and_false, if_true, if_false]
      exact ⟨nofun, Effect.refl h⟩
    · simp only [hc, hr, ne_eq, not_false_eq_true, and_self, if_true]
      refine (handleLine_ends h b (text fw.msgBuf)).bind ?_
      rintro fw' ⟨hne, he⟩
      have hsize : Quiet fw' { fw' with rxSize := 0 } :=
        Effect.of_eq (he.ready.congr rfl) rfl rfl rfl rfl
          ⟨[], .refl _⟩
      exact ⟨hne, he.before hsize⟩
  · simp only [hc, false_and, if_false]
    split
    · exact ⟨nofun, hbuf _ _ (length_stores ..)⟩
    · exact ⟨nofun, Effect.refl h⟩

end Firmware

end PowerMonitor
