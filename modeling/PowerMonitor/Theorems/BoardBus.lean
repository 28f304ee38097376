import PowerMonitor.Theorems.ServerRefinement
import PowerMonitor.Lib.Monitor

/-!
# The bus in a run of the firmware

A monitor of the wires allows a transfer while one select pin alone is low, lets a pin go low only when all are high, and lets a
busy flash only be asked for its status. It is satisfied by the record of every run of the firmware, through the set-up, the page
cache and the converters, and between two steps of a run all pins are high. The wait for a converter, which no event of the bus
belongs to, comes to its end.
-/

namespace PowerMonitor

open CString Outcome

/-! ## The monitor -/

/-- The pin that is low. -/
def bus : Monitor BusEvent (Option Pin) where
  next low e :=
    match e with
    | .codr p => some p
    | .sodr p => if low = some p then none else low
    | .transfer _ _ _ _ => low
  Allows low e :=
    match e with
    | .codr _ => low = none
    | .sodr _ => True
    | .transfer b lows opcode busy => low ≠ none ∧ lows = low.toList ∧ (opcode = true → busy = true → b = 0xD7)

/-- The record is lawful so far, and the pin `low` is low, if any. -/
structure Spi.Lawful (low : Option Pin) (s : Spi) : Prop where
  safe : bus.Safe none s.trace
  low_eq : bus.run none s.trace = low

namespace Spi

theorem Lawful.codr {s : Spi} (h : s.Lawful none) (p : Pin) : (s.codr p).Lawful (some p) := by
  have ht : (s.codr p).trace = s.trace ++ [.codr p] := rfl
  refine ⟨?_, ?_⟩
  · rw [ht, Monitor.safe_append, h.low_eq]
    exact ⟨h.safe, rfl, trivial⟩
  · rw [ht, Monitor.run_append]
    rfl

theorem Lawful.sodr {low : Option Pin} {p : Pin} {s : Spi} (h : s.Lawful low) (hp : low = none ∨ low = some p) :
    (s.sodr p).Lawful none := by
  have ht : (s.sodr p).trace = s.trace ++ [.sodr p] := rfl
  refine ⟨?_, ?_⟩
  · rw [ht, Monitor.safe_append]
    exact ⟨h.safe, trivial, trivial⟩
  · rw [ht, Monitor.run_append, h.low_eq]
    rcases hp with rfl | rfl
    · rfl
    · exact if_pos rfl

theorem Lawful.transfers {p : Pin} {bs : List UInt8} {s s' : Spi} (h : s.Lawful (some p)) (ht : Transfers p bs s s') :
    s'.Lawful (some p) := by
  induction ht with
  | refl => exact h
  | @transfer bs s s' _ b hl hb ih =>
    have ih := ih h
    have hev := transfer_trace b s'
    refine ⟨?_, ?_⟩
    · rw [hev, Monitor.safe_append, ih.low_eq]
      refine ⟨ih.safe, ⟨nofun, hl, fun hop hbusy => ?_⟩, trivial⟩
      rw [Bool.and_eq_true, beq_iff_eq] at hop
      exact hb hop.1 hop.2 (by simpa using hbusy)
    · rw [hev, Monitor.run_append, ih.low_eq]
      rfl

theorem Lawful.sessions {p : Pin} {css : List (List UInt8)} {s s' : Spi} (h : s.Lawful none) (hs : Sessions p css s s') :
    s'.Lawful none := by
  induction hs with
  | refl => exact h
  | session _ ht ih => exact (((ih h).codr p).transfers ht).sodr (Or.inr rfl)

theorem Lawful.talk {s s' : Spi} (h : s.Lawful none) (ht : FlashTalk s s') : s'.Lawful none := by
  obtain ⟨css, hs⟩ := ht
  exact h.sessions hs.sessions

end Spi

/-! ## The converters -/

namespace AD7787

theorem Clocked.send {p : Pin} (hp : p ≠ .PA17) (cs : List UInt8) : ∀ {bs : List UInt8} {s s' : Spi}, Clocked p bs s s' →
    Clocked p (bs ++ cs) s (s'.send cs) := by
  induction cs with
  | nil =>
    intro bs s s' h
    rw [List.append_nil]
    exact h
  | cons c cs ih =>
    intro bs s s' h
    rw [List.append_cons]
    exact ih (h.transfer hp c)

/-- `AD7787_Init` sets its pin high and has one session. -/
theorem init_lawful {p : Pin} (hp : p ≠ .PA17) {s : Spi} (hi : s.Idle) (h : s.Lawful none) : (init p s).Lawful none := by
  have hsodr : (s.sodr p).Idle := by refine ⟨hi.csPin, ?_, ?_⟩ <;> simp [Spi.sodr, hp, hi.low, hi.pos]
  have ht := ((clocked_codr (p := p) hsodr).send hp (List.replicate 8 0xFF)).transfers
  exact (((h.sodr (Or.inl rfl)).codr p).transfers ht).sodr (Or.inr rfl)

end AD7787

theorem boardInit_lawful (board : Firmware.Board) :
    (Spi.boardInit board.dev board.busy board.delays board.id board.adcIn).Lawful none := by
  obtain ⟨hi₀, -⟩ := DataFlashAux.init_spec (DataFlashAux.reset_idle board.dev board.busy board.delays board.id board.adcIn)
  obtain ⟨hi₁, -⟩ := AD7787.init_spec (p := .PA16) (by decide) hi₀
  have hreset : (Spi.reset board.dev board.busy board.delays board.id board.adcIn).Lawful none := ⟨trivial, rfl⟩
  have h₀ : (DataFlash.init .PA17 (.reset board.dev board.busy board.delays board.id board.adcIn)).Lawful none :=
    (hreset.sodr (p := .PA17) (Or.inl rfl)).sodr (p := .PA17) (Or.inl rfl)
  exact AD7787.init_lawful (by decide) hi₁ (AD7787.init_lawful (by decide) hi₀ h₀)

/-! ## Runs -/

namespace Firmware

variable {b : Build} {board : Board}

/-- The record of the bus is lawful, and all pins are high. -/
structure BusLaw (fw : Firmware) : Prop where
  lawful : fw.ee.spi.Lawful none
  high : fw.ee.spi.low = fun _ => false

theorem BusLaw.congr {fw fw' : Firmware} (h : BusLaw fw) (hs : fw'.ee.spi = fw.ee.spi) : BusLaw fw' :=
  ⟨by rw [hs]; exact h.lawful, by rw [hs]; exact h.high⟩

/-- A byte is read: no command uses the bus. -/
theorem Reaches.char_spi {fw : Firmware} (h : Reaches b board (.ok fw)) (hr : fw.uart.rxReady ≠ 0) :
    Ends (fun fw' => fw'.ee.spi = fw.ee.spi) (Stop.Restarted fun fw' => fw'.ee.spi = fw.ee.spi)
      (receiveChar b fw.uart.getChar.1 { fw with uart := fw.uart.getChar.2 }) := by
  obtain ⟨xs, hs⟩ := h.serving
  obtain ⟨ha, -, -⟩ := h.tracked.getChar hr
  have hf := receiveChar_mirrors ha.ready ⟨hs.represents.stored, hs.represents.used, hs.represents.sample⟩ b fw.uart.getChar.1
  refine hf.mono (fun _ h => h.spi) ?_
  rintro (fw' | -) h
  · exact h.1.spi
  · exact h

end Firmware

/-- In every run of the firmware the record of the bus satisfies the monitor, and all select pins are high between two steps and
when `Cmd_Restart` is entered. -/
theorem firmware_bus_discipline {b : Build} {board : Firmware.Board} {r : Except Stop Firmware} (hr : Firmware.Reaches b board r) :
    Ends Firmware.BusLaw (Stop.Restarted Firmware.BusLaw) r := by
  induction hr with
  | @start r hs =>
    obtain ⟨fw, he, hst, hp⟩ := Firmware.start_poweredUp b board
    have h : fw.BusLaw := ⟨(boardInit_lawful board).talk hp.talk, hp.talk.idle.low⟩
    rw [he] at hs
    cases hs with
    | ok _ hq => exact h.congr rfl
  | beat _ _ ih => exact Firmware.BusLaw.congr ih rfl
  | interrupt _ ih => exact Firmware.BusLaw.congr ih rfl
  | @read fw r hfw hr hs ih =>
    have hc := hfw.char_spi hr
    generalize Firmware.receiveChar b fw.uart.getChar.1 { fw with uart := fw.uart.getChar.2 } = x at hc hs
    cases hs with
    | ok _ hq => exact Firmware.BusLaw.congr ih hc
    | restart _ hq => exact Firmware.BusLaw.congr ih hc
    | hang => exact hc
  | @check fw hfw ih =>
    have hready := hfw.tracked.assembled.ready
    obtain ⟨r, ee, he, -⟩ := EE.cacheCheck_resident hready.ee
    have ht := EE.cacheCheck_talk hready.ee.wf.idle he
    rw [Firmware.cacheCheck, he]
    exact ⟨ih.lawful.talk ht, ht.idle.low⟩
  | @sample fw hfw ih =>
    have hready := hfw.tracked.assembled.ready
    obtain ⟨hi₁, -⟩ := AD7787.run_spec hready.pri .AD_CH_2 hready.ee.wf.idle
    obtain ⟨hi₂, -⟩ := AD7787.run_spec hready.sec .AD_CH_2 hi₁
    obtain ⟨bs₁, hs₁⟩ := AD7787.run_sessions hready.pri .AD_CH_2 hready.ee.wf.idle
    obtain ⟨bs₂, hs₂⟩ := AD7787.run_sessions hready.sec .AD_CH_2 hi₁
    exact ⟨(ih.lawful.sessions hs₁).sessions hs₂, hi₂.low⟩

/-- A command, a write-back and a sample, with a flash that is busy at power-up and after each operation. -/
theorem firmware_bus_discipline_one_second :
    let b : Build := { date := [], time := [], order4 := .rightFirst, order2 := .leftFirst }
    let board : Firmware.Board := { Firmware.Board.receiving (bytes "calib sec 1000\r") with busy := 3, delays := [2, 2] }
    Ends Firmware.BusLaw (Stop.Restarted Firmware.BusLaw) (Firmware.main b board [{ ticks := 1000, interrupts := 0 }]) := by
  intro b board
  have hr := Firmware.main_reaches b board [{ ticks := 1000, interrupts := 0 }]
  generalize Firmware.main b board _ = r at hr ⊢
  exact firmware_bus_discipline hr

end PowerMonitor
