import PowerMonitor.Lemmas.Bus
import PowerMonitor.Lemmas.Commands
import Mathlib.Logic.Function.Iterate

/-!
# The firmware's main loop

Every function the loop calls ends in a state, or in `Cmd_Restart`. A property that the steps of the loop keep holds in every
state a run ends in (`loop_ends`); the start-up leads to a state in which each parameter is live as it is stored (`start_spec`).
-/

namespace PowerMonitor

open CString CmdProcessor Outcome

namespace Firmware

/-! ## The loops -/

/-- The bytes that may still be read: in the receive ring, or to be reported by the USART. -/
def backlog (fw : Firmware) : Nat := fw.uart.backlog + fw.usart.length

theorem Effect.backlog {f : Param → Channel → Option Nat} {fw fw' : Firmware} (h : Effect f fw fw') (hr : fw.Ready) :
    fw'.backlog ≤ fw.backlog := by
  obtain ⟨out, hp⟩ := h.port
  exact (hp.backlog hr.index).2

/-- The call of `UartBuffer_GetChar` in `Run_Config`. -/
theorem getChar_spec {fw : Firmware} (h : fw.Ready) (hr : fw.uart.rxReady ≠ 0) :
    ({ fw with uart := fw.uart.getChar.2 } : Firmware).Ready ∧ fw.uart.getChar.2.got = fw.uart.got ++ [fw.uart.getChar.1] ∧
      ({ fw with uart := fw.uart.getChar.2 } : Firmware).backlog < fw.backlog := by
  have hne : fw.uart.rxIn ≠ fw.uart.rxOut := (UartBuffer.rxReady_eq_zero_iff _).not.mp hr
  obtain ⟨h1, h2⟩ := h.index
  rw [UartBuffer.getChar_ready hr]
  refine ⟨⟨h.ee, h.token, h.pri, h.sec, h.msgBuf, ⟨h1, ?_⟩⟩, rfl, ?_⟩
  · simp only [bufferSize]
    omega
  · simp only [backlog, UartBuffer.backlog, bufferSize]
    omega

section Loops

variable {b : Build} {I R : Firmware → Prop}

/-- A property of the states in which `Run_Config` looks for the next byte: reading and handling a byte keeps it. -/
structure KeptByChars (b : Build) (I R : Firmware → Prop) : Prop where
  ready : ∀ fw, I fw → fw.Ready
  char : ∀ fw, I fw → fw.uart.rxReady ≠ 0 →
    Ends I (Stop.Restarted R) (({ fw with uart := fw.uart.getChar.2 } : Firmware).receiveChar b fw.uart.getChar.1)

/-- The loop of `Run_Config` ends: every byte it reads leaves fewer to be read. -/
theorem configLoop_ends (hk : KeptByChars b I R) (fuel : Nat) : ∀ {fw : Firmware}, I fw → fw.backlog ≤ fuel →
    Ends (fun fw' => I fw' ∧ fw'.uart.rxReady = 0) (Stop.Restarted R) (configLoop b fuel fw) := by
  induction fuel with
  | zero =>
    intro fw h hf
    have hready := hk.ready fw h
    have h0 : fw.uart.rxReady = 0 := by
      rw [UartBuffer.rxReady_eq_zero_iff]
      obtain ⟨h1, h2⟩ := hready.index
      simp only [backlog, UartBuffer.backlog] at hf
      omega
    rw [configLoop, if_neg (by simp [h0])]
    exact ⟨h, h0⟩
  | succ fuel ih =>
    intro fw h hf
    rw [configLoop]
    by_cases hr : fw.uart.rxReady = 0
    · rw [if_neg (by simp [hr])]
      exact ⟨h, hr⟩
    · rw [if_pos hr]
      obtain ⟨hready, -, hlt⟩ := getChar_spec (hk.ready fw h) hr
      refine Ends.bind (((hk.char fw h hr).and (receiveChar_ends hready b fw.uart.getChar.1)).mono (fun _ h => h) ?_) ?_
      · exact fun e he => he.1
      · rintro fw' ⟨hI, -, he⟩
        have := he.backlog hready
        exact ih hI (by omega)

theorem runConfig_ends (hk : KeptByChars b I R) {fw : Firmware} (h : I fw) :
    Ends (fun fw' => I fw' ∧ fw'.uart.rxReady = 0) (Stop.Restarted R) (runConfig b fw) := by
  refine configLoop_ends hk _ h ?_
  simp only [backlog, UartBuffer.backlog, bufferSize]
  omega

/-- A property of the states between two steps of the main loop. -/
structure KeptByLoop (b : Build) (I R : Firmware → Prop) : Prop extends KeptByChars b I R where
  beat : ∀ fw hb, I fw → I { fw with beat := hb }
  interrupt : ∀ fw, I fw → I fw.interrupt
  check : ∀ fw, I fw → Ends I (fun _ => False) fw.cacheCheck
  channels : ∀ fw, I fw → I fw.runChannels

/-- `EE_Cache_Check` leaves the serial port. -/
theorem cacheCheck_port (fw : Firmware) : Ends (fun fw' => fw'.port = fw.port) (fun _ => True) fw.cacheCheck := by
  unfold cacheCheck
  cases fw.ee.cacheCheck with
  | none => trivial
  | some r => rfl

/-- A pass of the main loop leaves nothing unread. -/
theorem iteration_ends (hk : KeptByLoop b I R) {fw : Firmware} (h : I fw) (env : LoopIn) :
    Ends (fun fw' => I fw' ∧ fw'.uart.rxReady = 0) (Stop.Restarted R) (iteration b env fw) := by
  refine (runConfig_ends hk.toKeptByChars
    (hk.interrupt _ (Function.Iterate.rec I (hk.beat fw _ h) hk.interrupt env.interrupts))).bind ?_
  rintro fw₁ ⟨h₁, hr₁⟩
  have hlast : ∀ fw₂ : Firmware, I fw₂ ∧ fw₂.uart.rxReady = 0 →
      Ends (fun fw' => I fw' ∧ fw'.uart.rxReady = 0) (Stop.Restarted R) (.ok (if fw₂.beat.is1s.1 then
        ({ fw₂ with beat := fw₂.beat.is1s.2 } : Firmware).runChannels else { fw₂ with beat := fw₂.beat.is1s.2 })) := by
    rintro fw₂ ⟨h₂, hr₂⟩
    show I _ ∧ _
    split
    · exact ⟨hk.channels _ (hk.beat _ _ h₂), hr₂⟩
    · exact ⟨hk.beat _ _ h₂, hr₂⟩
  dsimp only
  split
  · have hcheck := (hk.check _ (hk.beat fw₁ fw₁.beat.is10ms.2 h₁)).and (cacheCheck_port _)
    refine (hcheck.mono (fun fw' h' => ⟨h'.1, ?_⟩) fun _ hf => hf.1.elim).bind hlast
    rw [show fw'.uart = fw₁.uart from congrArg Prod.fst h'.2]
    exact hr₁
  · exact hlast _ ⟨hk.beat _ _ h₁, hr₁⟩

/-- A run of the main loop: every pass ends, or `Cmd_Restart` is entered. -/
theorem loop_ends (hk : KeptByLoop b I R) (envs : List LoopIn) : ∀ {fw : Firmware}, I fw →
    Ends I (Stop.Restarted R) (loop b envs fw) := by
  induction envs with
  | nil => exact fun h => h
  | cons env envs ih => exact fun h => (iteration_ends hk h env).bind fun _ h' => ih h'.1

/-- Between two passes of the main loop nothing is unread. -/
theorem loop_settled (hk : KeptByLoop b I R) (envs : List LoopIn) (env : LoopIn) {fw : Firmware} (h : I fw) :
    Ends (fun fw' => I fw' ∧ fw'.uart.rxReady = 0) (Stop.Restarted R) (loop b (envs ++ [env]) fw) := by
  induction envs generalizing fw with
  | nil => exact (iteration_ends hk h env).bind fun _ h' => h'
  | cons env' envs ih => exact (iteration_ends hk h env').bind fun _ h' => ih h'.1

end Loops

end Firmware

namespace EE

/-- Another device on the bus may be used between two accesses. -/
theorem Resident.spi {s : EE} (h : s.Resident) {spi : Spi} (hi : spi.Idle) (hc : spi.chip = s.spi.chip) :
    ({ s with spi := spi } : EE).Resident ∧ ({ s with spi := spi } : EE).value = s.value := by
  have habs : ({ s with spi := spi } : EE).abs = s.abs := by
    simp only [abs, hc]
    rfl
  refine ⟨⟨⟨h.wf.fits, h.wf.pos, hi, habs ▸ h.wf.coherent⟩, h.size, h.page⟩, ?_⟩
  funext a
  rw [value, habs, value]

end EE

namespace Firmware

/-! ## The other steps of the loop -/

/-- Sampling the channels stores nothing. -/
theorem runChannels_quiet {fw : Firmware} (h : fw.Ready) : Quiet fw fw.runChannels := by
  obtain ⟨hi₁, hc₁⟩ := AD7787.run_spec h.pri .AD_CH_2 h.ee.wf.idle
  obtain ⟨hi₂, hc₂⟩ := AD7787.run_spec h.sec .AD_CH_2 hi₁
  obtain ⟨hr, hv⟩ := h.ee.spi hi₂ (hc₂.trans hc₁)
  refine Effect.of_eq ⟨hr, h.token, h.pri, h.sec, h.msgBuf, h.index⟩ hv ?_ ?_ rfl ⟨[], .refl _⟩
  · exact congrArg Chip.dev (hc₂.trans hc₁)
  · funext p ch
    cases p <;> cases ch <;> rfl

/-- `EE_Cache_Check` stores nothing, and puts every parameter into the flash. -/
theorem cacheCheck_spec {fw : Firmware} (h : fw.Ready) :
    ∃ fw', fw.cacheCheck = .ok fw' ∧ fw'.Ready ∧ fw'.setting = fw.setting ∧ fw'.flashed = fw.setting ∧ fw'.live = fw.live ∧
      (∀ p ch, fw'.latest p ch = (fw.latest p ch).map fun x => (x.1, true)) ∧ fw'.uart = fw.uart := by
  obtain ⟨r, ee, he, hr, ht, hv, hf⟩ := EE.cacheCheck_resident h.ee
  refine ⟨({ fw with ee := ee } : Firmware).log .cacheCheck, ?_, ⟨hr, ht.trans h.token, h.pri, h.sec, h.msgBuf, h.index⟩, ?_, ?_,
    rfl, ?_, rfl⟩
  · simp only [cacheCheck, he, returns, bind, Except.bind]
  · funext p ch
    simp only [setting, log, hv]
  · funext p ch
    have hlt := eeAddress_lt p ch
    exact EE.word_congr fun i hi => hf _ (by omega)
  · intro p ch
    rw [latest_log]
    rfl

/-- Every step of the main loop keeps `Ready`. -/
theorem ready_by_loop (b : Build) : KeptByLoop b Ready fun _ => True where
  ready _ h := h
  char fw h hr := by
    refine (receiveChar_ends (getChar_spec h hr).1 b fw.uart.getChar.1).mono (fun _ he => he.2.ready) ?_
    rintro (fw' | _) he
    · trivial
    · exact he
  beat _ _ h := h.congr rfl
  interrupt fw h := ((interrupt_printed fw).quiet h).ready
  check fw h := by
    obtain ⟨fw', he, hr, -⟩ := cacheCheck_spec h
    rw [he]
    exact hr
  channels _ h := (runChannels_quiet h).ready

/-! ## The start-up -/

/-- What an erased parameter reads as. -/
def default : Param → Nat
  | .calib => 856
  | .offset => 1

/-- `Read_PowerCH_VoltCalibration` or `Read_PowerCH_VoltOffset`. -/
def readParam (b : Build) : Param → Channel → EE → Option (Nat × EE)
  | .calib, ch, ee => readVoltCalibration b ch ee
  | .offset, ch, ee => readVoltOffset b ch ee

/-- The value that a stored word reads as. -/
def readAs (p : Param) (v : Nat) : Nat := if v = 0xFFFFFFFF then default p else v

theorem readParam_resident {ee : EE} (h : ee.Resident) (b : Build) (p : Param) (ch : Channel) :
    ∃ ee', readParam b p ch ee = some (readAs p (EE.word ee.value (eeAddress p ch)), ee') ∧ EE.Aged ee ee' := by
  cases p with
  | calib => exact EE.read4Default_resident h b.order4 b.order2 (eeAddress_lt .calib ch) 856
  | offset => exact EE.read4Default_resident h b.order4 b.order2 (eeAddress_lt .offset ch) 1

/-- The set-up leads to a state in which each parameter is live as it is read from the flash. -/
theorem start_spec (b : Build) (board : Board) :
    ∃ fw : Firmware, start b board =
        .ok ((fw.putString (bytes "\r\nSystem Startup\r\n")).putString (bytes ">> Diag,MAIN,Start up\r\n")) ∧
      fw.Ready ∧ fw.ee.spi.chip.dev = board.dev ∧ (∀ p ch, fw.live p ch = asLive p (readAs p (fw.setting p ch))) ∧
      fw.uart = .init ∧ fw.usart = board.usart ∧ fw.rxSize = 0 ∧ fw.events = [] ∧ fw.beat = .reset := by
  have hfits : eeToken.Fits := show eeToken.firstPage + eeToken.size ≤ 8192 by decide
  obtain ⟨hi₀, hc₀⟩ := DataFlashAux.init_spec (DataFlashAux.reset_idle board.dev board.busy board.delays board.id board.adcIn)
  obtain ⟨hi₁, hc₁⟩ := AD7787.init_spec (p := .PA16) (by decide) hi₀
  obtain ⟨hi₂, hc₂⟩ := AD7787.init_spec (p := .PA15) (by decide) hi₁
  obtain ⟨spi, hid, hi₃, hd₃, -⟩ := DataFlash.readChipID_spec hi₂
  obtain ⟨e₁, he₁, hr₁, ht₁, hd₁, -⟩ := EE.read4Default_init hfits (show 0 < eeToken.size by decide) (n := 4) (by decide)
    hi₃ b.order4 b.order2 (eeAddress_lt .calib .pri) 856
  obtain ⟨e₂, he₂, ha₂⟩ := readParam_resident hr₁ b .offset .pri
  obtain ⟨e₃, he₃, ha₃⟩ := readParam_resident ha₂.resident b .calib .sec
  obtain ⟨e₄, he₄, ha₄⟩ := readParam_resident ha₃.resident b .offset .sec
  have haged := (ha₂.trans ha₃).trans ha₄
  have hdev : e₄.spi.chip.dev = board.dev := by
    rw [haged.spi, hd₁, hd₃, hc₂, hc₁, hc₀]
    rfl
  have he₁' : readVoltCalibration b .pri (EE.init eeToken 4 spi) =
      some (readAs .calib (EE.word e₁.value (eeAddress .calib .pri)), e₁) :=
    he₁
  have he₂' : readVoltOffset b .pri e₁ = some (readAs .offset (EE.word e₁.value (eeAddress .offset .pri)), e₂) := he₂
  have he₃' : readVoltCalibration b .sec e₂ = some (readAs .calib (EE.word e₂.value (eeAddress .calib .sec)), e₃) := he₃
  have he₄' : readVoltOffset b .sec e₃ = some (readAs .offset (EE.word e₃.value (eeAddress .offset .sec)), e₄) := he₄
  refine ⟨{
      ee := e₄
      pri := (({ adc := .PA16, volts := 0, vCalib := 1, voltOffset := 0 } : PowerChanel).setVoltCalib
        (readAs .calib (EE.word e₁.value (eeAddress .calib .pri)))).setVoltOffset
          (int32 (readAs .offset (EE.word e₁.value (eeAddress .offset .pri))))
      sec := (({ adc := .PA15, volts := 0, vCalib := 1, voltOffset := 0 } : PowerChanel).setVoltCalib
        (readAs .calib (EE.word e₂.value (eeAddress .calib .sec)))).setVoltOffset
          (int32 (readAs .offset (EE.word e₃.value (eeAddress .offset .sec))))
      uart := .init
      usart := board.usart
      beat := .reset
      msgBuf := List.replicate (rxSizeMax + 1) 0
      rxSize := 0
      resp := { buffer := [] }
      events := [] }, ?_, ⟨haged.resident, haged.token.trans ht₁, nofun, nofun, List.length_replicate, UartBuffer.init_indexed⟩,
        hdev, ?_, rfl, rfl, rfl, rfl, rfl⟩
  · simp only [start, PowerChanel.init, hid, he₁', he₂', he₃', he₄', returns, bind, Except.bind]
  · have hv₂ : e₄.value = e₂.value := (ha₃.trans ha₄).value
    intro p ch
    cases p <;> cases ch
    · rw [setting, haged.value]
      rfl
    · rw [setting, hv₂]
      rfl
    · rw [setting, haged.value]
      rfl
    · rw [setting, ha₄.value]
      rfl

/-- The state at the first pass of the main loop. -/
structure Started (board : Board) (fw : Firmware) : Prop where
  ready : fw.Ready
  dev : fw.ee.spi.chip.dev = board.dev
  live : ∀ p ch, fw.live p ch = asLive p (readAs p (fw.setting p ch))
  latest : ∀ p ch, fw.latest p ch = none
  rxSize : fw.rxSize = 0

/-- What the set-up prints last. -/
theorem startup_printed (fw : Firmware) :
    Printed fw (bytes "\r\nSystem Startup\r\n" ++ bytes ">> Diag,MAIN,Start up\r\n")
      ((fw.putString (bytes "\r\nSystem Startup\r\n")).putString (bytes ">> Diag,MAIN,Start up\r\n")) :=
  (putString_printed _ fw).trans (putString_printed _ _)

/-- The set-up ends. -/
theorem start_started (b : Build) (board : Board) : ∃ fw, start b board = .ok fw ∧ Started board fw := by
  obtain ⟨fw, he, hr, hd, hl, -, -, hx, hev, -⟩ := start_spec b board
  have hp := startup_printed fw
  have hq := hp.quiet hr
  refine ⟨_, he, hq.ready, hq.dev.trans hd, ?_, ?_, ?_⟩
  · intro p ch
    rw [hq.live, hq.setting]
    exact hl p ch
  · intro p ch
    rw [hq.latest, latest, hev]
    rfl
  · rw [hp.rest]
    exact hx

/-- While the firmware starts it reads nothing: bytes that fit the receive ring wait there. -/
theorem start_waiting (b : Build) (board : Board) (h : (board.usart.filterMap UsartIn.rx).length < 256) :
    ∃ fw, start b board = .ok fw ∧ Started board fw ∧ Waiting (board.usart.filterMap UsartIn.rx) fw.port ∧
      fw.usart = board.usart.drop 41 := by
  obtain ⟨fw, he, hs⟩ := start_started b board
  obtain ⟨fw₀, he₀, -, -, -, hu, hus, -⟩ := start_spec b board
  have hfw := Except.ok.inj (he.symm.trans he₀)
  have hp := startup_printed fw₀
  rw [← hfw] at hp
  have hw : Waiting (board.usart.filterMap UsartIn.rx) fw₀.port := by
    refine ⟨[], by rw [port, hu]; exact UartBuffer.init_rxHolds, ?_⟩
    rw [port, hus, List.nil_append]
  have hlen : (bytes "\r\nSystem Startup\r\n").length + (bytes ">> Diag,MAIN,Start up\r\n").length = 41 := by decide
  refine ⟨fw, he, hs, hp.port.waiting h hw, ?_⟩
  rw [hfw, putString_usart, putString_usart, hus, List.drop_drop, hlen]

/-- Every state that a run of `main` ends in is ready. -/
theorem main_ready {b : Build} {board : Board} {envs : List LoopIn} {fw : Firmware} (h : main b board envs = .ok fw) :
    fw.Ready := by
  obtain ⟨fw₀, he, hs⟩ := start_started b board
  have hend := loop_ends (ready_by_loop b) envs hs.ready
  rw [main, he] at h
  rw [show loop b envs fw₀ = .ok fw from h] at hend
  exact hend

end Firmware

end PowerMonitor
