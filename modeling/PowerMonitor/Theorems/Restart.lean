import PowerMonitor.Lemmas.RunConfig

/-!
# A commanded restart

A command stores a parameter in the page cache, and the next call of `EE_Cache_Check` writes the page back. `Cmd_Restart` writes
nothing back: at its entry the flash holds the parameters that were stored before the last call of `EE_Cache_Check`, and may not
hold a later one.
-/

namespace PowerMonitor

open CString Outcome

namespace Firmware

/-- The flash holds every parameter that was followed by a call of `EE_Cache_Check`. -/
def Durable (fw : Firmware) : Prop := ∀ p ch v, fw.latest p ch = some (v, true) → fw.flashed p ch = v

/-- The invariant of the main loop: a parameter that was stored is in the page cache, and in flash if `EE_Cache_Check` has run
since. -/
structure Kept (fw : Firmware) : Prop where
  ready : fw.Ready
  setting : ∀ p ch v c, fw.latest p ch = some (v, c) → fw.setting p ch = v
  durable : fw.Durable

theorem flashed_eq {fw fw' : Firmware} (h : fw.Ready) (h' : fw'.Ready) (hd : fw'.ee.spi.chip.dev = fw.ee.spi.chip.dev) :
    fw'.flashed = fw.flashed := by
  have hf : fw'.ee.flashByte = fw.ee.flashByte := by
    funext a
    simp only [EE.flashByte, hd, h.token, h'.token]
  funext p ch
  rw [flashed, hf, flashed]

/-- A step that leaves the flash alone keeps the invariant: what it stores has not been followed by a check. -/
theorem Kept.effect {f : Param → Channel → Option Nat} {fw fw' : Firmware} (h : fw.Kept) (he : Effect f fw fw') : fw'.Kept := by
  have hf := flashed_eq h.ready he.ready he.dev
  refine ⟨he.ready, ?_, ?_⟩
  · intro p ch v c hl
    rw [he.latest] at hl
    rw [he.setting]
    cases hs : f p ch with
    | none =>
      rw [hs] at hl
      exact h.setting p ch v c hl
    | some w =>
      rw [hs] at hl
      exact congrArg Prod.fst (Option.some.inj hl)
  · intro p ch v hl
    rw [he.latest] at hl
    rw [hf]
    cases hs : f p ch with
    | none =>
      rw [hs] at hl
      exact h.durable p ch v hl
    | some w =>
      rw [hs] at hl
      cases hl

/-- `EE_Cache_Check` makes everything durable. -/
theorem Kept.cacheCheck {fw : Firmware} (h : fw.Kept) : Ends Kept (fun _ => False) fw.cacheCheck := by
  obtain ⟨fw', he, hr, hs, hf, -, hl, -⟩ := cacheCheck_spec h.ready
  have hset : ∀ p ch v c, fw'.latest p ch = some (v, c) → fw'.setting p ch = v := by
    intro p ch v c hlat
    rw [hl, Option.map_eq_some_iff] at hlat
    obtain ⟨⟨w, d⟩, hw, hwv⟩ := hlat
    rw [hs, h.setting p ch w d hw]
    exact congrArg Prod.fst hwv
  rw [he]
  refine ⟨hr, hset, ?_⟩
  intro p ch v hlat
  rw [hf, ← hs]
  exact hset p ch v true hlat

/-- Every step of the main loop keeps the invariant, and `Cmd_Restart` leaves the flash alone. -/
theorem kept_by_loop (b : Build) : KeptByLoop b Kept Durable where
  ready _ h := h.ready
  char fw h hr := by
    obtain ⟨hready, -, -⟩ := getChar_spec h.ready hr
    have hk : Kept { fw with uart := fw.uart.getChar.2 } := ⟨hready, h.setting, h.durable⟩
    refine (receiveChar_ends hready b fw.uart.getChar.1).mono (fun _ he => hk.effect he.2) ?_
    rintro (fw' | _) he
    · exact (hk.effect he.2).durable
    · exact he.elim
  beat _ _ h := ⟨h.ready.congr rfl, h.setting, h.durable⟩
  interrupt fw h := h.effect ((interrupt_printed fw).quiet h.ready)
  check _ h := h.cacheCheck
  channels _ h := h.effect (runChannels_quiet h.ready)

theorem Started.kept {board : Board} {fw : Firmware} (h : Started board fw) : fw.Kept := by
  refine ⟨h.ready, ?_, ?_⟩
  · intro p ch v c hl
    rw [h.latest] at hl
    cases hl
  · intro p ch v hl
    rw [h.latest] at hl
    cases hl

end Firmware

/-- The main loop only ends in `Cmd_Restart`, and at its entry the flash holds, for both channels, the latest calibration and the
latest offset that a command has stored, if `EE_Cache_Check` has run since. -/
theorem restart_keeps_checked_settings (b : Build) (board : Firmware.Board) (envs : List Firmware.LoopIn) :
    Ends (fun _ => True) (Stop.Restarted Firmware.Durable) (Firmware.main b board envs) := by
  obtain ⟨fw, he, hs⟩ := Firmware.start_started b board
  rw [Firmware.main, he]
  exact (Firmware.loop_ends (Firmware.kept_by_loop b) envs hs.kept).mono (fun _ _ => trivial) fun _ h => h

/-! ## A setting that is lost -/

namespace Firmware

/-- "calib pri 5" and "restart", each with its carriage return. -/
def calibThenRestart : List UInt8 := bytes "calib pri 5\rrestart\r"

/-- A board with an erased flash to which the two lines arrive while it starts. -/
def erasedBoard : Board :=
  { dev := { pages := fun _ _ => 0xFF, buf := fun _ _ => 0, programs := [] }, busy := 0, delays := [], id := 0, adcIn := [],
    usart := calibThenRestart.map fun c => { txbufe := true, rx := some c } }

/-- `Run_Config` has read the bytes `done` of the two lines, without a call of `EE_Cache_Check`. -/
structure Reading (fw : Firmware) (done todo : List UInt8) : Prop where
  stream : calibThenRestart = done ++ todo
  more : todo ≠ []
  ready : fw.Ready
  waiting : Waiting todo fw.port
  usart : fw.usart = []
  received : Received done fw
  dev : fw.ee.spi.chip.dev = erasedBoard.dev
  latest : fw.latest .calib .pri = if cr ∈ done then some (5, false) else none

/-- `Cmd_Restart` was entered with the calibration stored and the flash as it was. -/
structure Lost (fw : Firmware) : Prop where
  ready : fw.Ready
  dev : fw.ee.spi.chip.dev = erasedBoard.dev
  latest : fw.latest .calib .pri = some (5, false)

/-- The terminators of the two lines. -/
theorem eol_calibThenRestart {done todo : List UInt8} {c : UInt8} (h : calibThenRestart = done ++ c :: todo)
    (hc : isEol c = true) :
    c = cr ∧ ((done = bytes "calib pri 5" ∧ todo = bytes "restart\r") ∨ (done = bytes "calib pri 5\rrestart" ∧ todo = [])) := by
  have hk : ∀ k, k < 20 → isEol (calibThenRestart.getD k 0) = true → k = 11 ∨ k = 19 := by decide
  have hlen : done.length < 20 := by
    have : calibThenRestart.length = 20 := by decide
    rw [h, List.length_append, List.length_cons] at this
    omega
  have hget : calibThenRestart.getD done.length 0 = c := by simp [h]
  have htake : calibThenRestart.take done.length = done := by simp [h]
  have hdrop : calibThenRestart.drop (done.length + 1) = todo := by simp [h, List.drop_append]
  rw [← hget] at hc
  rcases hk _ hlen hc with hd | hd <;> rw [hd] at hget htake hdrop <;> rw [← hget, ← htake, ← hdrop] <;> decide

/-- The next byte of the lines is taken from the ring. -/
theorem Reading.getChar {fw : Firmware} {done todo : List UInt8} (h : Reading fw done todo) (hr : fw.uart.rxReady ≠ 0) :
    ∃ todo', calibThenRestart = done ++ fw.uart.getChar.1 :: todo' ∧ Waiting todo' (fw.uart.getChar.2, fw.usart) ∧
      ({ fw with uart := fw.uart.getChar.2 } : Firmware).Ready ∧ Received done { fw with uart := fw.uart.getChar.2 } := by
  obtain ⟨hready, -, -⟩ := getChar_spec h.ready hr
  obtain ⟨todo', htodo, hw⟩ := getChar_waiting h.waiting h.usart hr
  exact ⟨todo', by rw [h.stream, htodo], hw, hready, ⟨h.received.rxSize, h.received.msgBuf⟩⟩

section Char

variable {fw : Firmware} {done todo : List UInt8} (h : Reading fw done todo) (hr : fw.uart.rxReady ≠ 0) (b : Build)
include h hr

/-- A byte inside a line is stored. -/
theorem Reading.plain (hc : isEol fw.uart.getChar.1 = false) :
    Ends (fun fw => ∃ done todo, Reading fw done todo) (Stop.Restarted Lost)
      (({ fw with uart := fw.uart.getChar.2 } : Firmware).receiveChar b fw.uart.getChar.1) := by
  obtain ⟨todo', hstream, hw, hready, hrec⟩ := h.getChar hr
  have hne : ¬cr = fw.uart.getChar.1 := by
    intro e
    rw [← e] at hc
    cases hc
  obtain ⟨m, n, he, hm, hrec'⟩ := receiveChar_plain hready.msgBuf hrec hc b
  rw [he]
  refine ⟨_, todo', by rw [hstream, List.append_cons], ?_,
    ⟨hready.ee, hready.token, hready.pri, hready.sec, hm.trans hready.msgBuf, hready.index⟩, hw, h.usart, hrec', h.dev, ?_⟩
  · rintro rfl
    have hlast : calibThenRestart.getLast? = some fw.uart.getChar.1 := by rw [hstream, List.getLast?_concat]
    exact hne (Option.some.inj ((show calibThenRestart.getLast? = some cr by decide).symm.trans hlast))
  · have hmem : cr ∈ done ++ [fw.uart.getChar.1] ↔ cr ∈ done := by simp [hne]
    rw [if_congr hmem rfl rfl]
    exact h.latest

/-- The first carriage return stores the calibration, and the second one restarts. -/
theorem Reading.eol (hc : isEol fw.uart.getChar.1 = true) :
    Ends (fun fw => ∃ done todo, Reading fw done todo) (Stop.Restarted Lost)
      (({ fw with uart := fw.uart.getChar.2 } : Firmware).receiveChar b fw.uart.getChar.1) := by
  obtain ⟨todo', hstream, hw, hready, hrec⟩ := h.getChar hr
  have hend := receiveChar_ends hready b fw.uart.getChar.1
  rw [charRequest_eq hrec] at hend
  obtain ⟨hcr, ⟨rfl, rfl⟩ | ⟨rfl, rfl⟩⟩ := eol_calibThenRestart hstream hc
  · have hreq : (if isEol fw.uart.getChar.1 = true ∧ unfinished (bytes "calib pri 5") ≠ [] then
        Request.ofLine (text (unfinished (bytes "calib pri 5"))) else .other) = .store .calib .pri 5 := by
      rw [hcr]
      decide
    rw [hreq] at hend
    cases hx : receiveChar b fw.uart.getChar.1 { fw with uart := fw.uart.getChar.2 } with
    | error e =>
      rw [hx] at hend
      cases e with
      | restart fw' => exact absurd hend.1 (by decide)
      | hang => exact hend.elim
    | ok fw' =>
      rw [hx] at hend
      obtain ⟨-, heff⟩ := hend
      obtain ⟨out, hp⟩ := heff.port
      exact ⟨_, _, by rw [hstream, List.append_cons], by decide, heff.ready, hp.waiting (by decide) hw, hp.usart_nil h.usart,
        received_of_eol hrec hc hx, heff.dev.trans h.dev, by rw [heff.latest, hcr]; rfl⟩
  · have hreq : (if isEol fw.uart.getChar.1 = true ∧ unfinished (bytes "calib pri 5\rrestart") ≠ [] then
        Request.ofLine (text (unfinished (bytes "calib pri 5\rrestart"))) else .other) = .restart := by
      rw [hcr]
      decide
    rw [hreq] at hend
    refine hend.mono (fun _ he => absurd rfl he.1) ?_
    rintro (fw' | _) he
    · refine ⟨he.2.ready, he.2.dev.trans h.dev, ?_⟩
      rw [he.2.latest, Option.map_none, Option.none_or]
      exact h.latest
    · exact he.elim

end Char

theorem reading_kept (b : Build) : KeptByChars b (fun fw => ∃ done todo, Reading fw done todo) Lost where
  ready _ := fun ⟨_, _, h⟩ => h.ready
  char fw := by
    rintro ⟨done, todo, h⟩ hr
    cases hc : isEol fw.uart.getChar.1 with
    | false => exact h.plain hr b hc
    | true => exact h.eol hr b hc

/-- The two lines have arrived when the main loop begins. -/
theorem start_reading (b : Build) : ∃ fw, start b erasedBoard = .ok fw ∧ Reading fw [] calibThenRestart := by
  have husart : erasedBoard.usart.filterMap UsartIn.rx = calibThenRestart := by decide
  obtain ⟨fw, he, hs, hw, hu⟩ := start_waiting b erasedBoard (by decide)
  rw [husart] at hw
  refine ⟨fw, he, rfl, by decide, hs.ready, hw, ?_, received_nil hs.rxSize, hs.dev, ?_⟩
  · rw [hu]
    decide
  · rw [hs.latest]
    rfl

/-- The first pass of the main loop enters `Cmd_Restart`. -/
theorem main_lost (b : Build) : ∃ fw, main b erasedBoard [{ ticks := 0, interrupts := 0 }] = .error (.restart fw) ∧ Lost fw := by
  obtain ⟨fw, he, hr⟩ := start_reading b
  set fw₁ : Firmware := ({ fw with beat := fw.beat.run.2 } : Firmware).interrupt with hfw₁
  have hready : ({ fw with beat := fw.beat.run.2 } : Firmware).Ready :=
    hr.ready.congr rfl
  have hp := interrupt_printed { fw with beat := fw.beat.run.2 }
  have hq := hp.quiet hready
  have hreading : Reading fw₁ [] calibThenRestart := by
    refine ⟨rfl, hr.more, hq.ready, hp.port.waiting (by decide) hr.waiting, hp.port.usart_nil hr.usart,
      ⟨hr.received.rxSize, hr.received.msgBuf⟩, hr.dev, hr.latest⟩
  have hend := runConfig_ends (reading_kept b) ⟨_, _, hreading⟩
  cases hx : runConfig b fw₁ with
  | ok fw' =>
    rw [hx] at hend
    obtain ⟨⟨done, todo, h⟩, h0⟩ := hend
    exact absurd (waiting_nil h.waiting h.usart h0) h.more
  | error e =>
    rw [hx] at hend
    cases e with
    | hang => exact hend.elim
    | restart fw' =>
      refine ⟨fw', ?_, hend⟩
      have hloop : loop b [{ ticks := 0, interrupts := 0 }] fw = .error (.restart fw') := by
        have hrun : runConfig b ({ fw with beat := fw.beat.run.2 } : Firmware).interrupt = .error (.restart fw') := hx
        simp only [loop, iteration, Function.iterate_zero, id_eq, hrun, bind, Except.bind]
      rw [main, he]
      exact hloop

end Firmware

/-- "calib pri 5" and "restart" read in one pass: `Cmd_Restart` is entered with the calibration 5 stored and echoed, and the flash
erased as before. -/
theorem restart_loses_unchecked_setting :
    let b : Build := { date := [], time := [], order4 := .leftFirst, order2 := .leftFirst }
    (∃ fw, Firmware.main b Firmware.erasedBoard [{ ticks := 0, interrupts := 0 }] = .error (.restart fw) ∧
      fw.latest .calib .pri = some (5, false) ∧ fw.flashed .calib .pri = 0xFFFFFFFF) ∧
    ¬ Ends (fun _ => True) (Stop.Restarted fun fw => ∀ p ch v c, fw.latest p ch = some (v, c) → fw.flashed p ch = v)
      (Firmware.main b Firmware.erasedBoard [{ ticks := 0, interrupts := 0 }]) := by
  intro b
  obtain ⟨fw, he, hl⟩ := Firmware.main_lost b
  have hflash : fw.flashed .calib .pri = 0xFFFFFFFF := by
    have hbyte : ∀ a, fw.ee.flashByte a = 0xFF := by
      intro a
      rw [EE.flashByte, hl.dev]
      rfl
    simp only [Firmware.flashed, EE.word, hbyte]
    decide
  refine ⟨⟨fw, he, hl.latest, hflash⟩, ?_⟩
  rw [he]
  intro h
  have hflash' := h .calib .pri 5 false hl.latest
  rw [hflash] at hflash'
  cases hflash'

end PowerMonitor
