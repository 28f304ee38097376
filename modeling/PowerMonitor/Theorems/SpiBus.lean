import PowerMonitor.Lemmas.Bus
import Mathlib.Data.List.Induction

/-!
# The bus in a run of driver calls

After the three devices are initialised, the drivers are called in any order. Every call leaves all select pins high; during a
call only the pin of its device is low, and a busy flash is only asked for its status. The wait of a converter is no event of the bus, and here
it always comes to its end.
-/

namespace PowerMonitor

/-- A call of a driver function, with its arguments. -/
inductive BusCall where
  | readChipID
  | readPageDirect (tk : DFToken) (page offset size : Nat) (dest : Bytes)
  | readFlashToBuffer (tk : DFToken) (page : Nat) (w : DFBuff)
  | writeBufferToFlash (tk : DFToken) (page : Nat) (w : DFBuff)
  | bufferRead (tk : DFToken) (page offset size : Nat) (w : DFBuff) (dest : Bytes)
  | bufferWrite (tk : DFToken) (page offset size : Nat) (w : DFBuff) (src : Bytes)
  | runPri (ch : AD7787Chanel)
  | runSec (ch : AD7787Chanel)

namespace BusCall

/-- The select pin of the device that a call addresses. -/
def pin : BusCall → Pin
  | .runPri _ => .PA16
  | .runSec _ => .PA15
  | _ => .PA17

/-- The bus after a call, if it returns. -/
def run : BusCall → Spi → Option Spi
  | .readChipID, s => (DataFlash.readChipID s).map Prod.snd
  | .readPageDirect tk page offset size dest, s => (DataFlash.readPageDirect tk page offset size dest s).map Prod.snd
  | .readFlashToBuffer tk page w, s => DataFlash.readFlashToBuffer tk page w s
  | .writeBufferToFlash tk page w, s => DataFlash.writeBufferToFlash tk page w s
  | .bufferRead tk page offset size w dest, s => (DataFlash.bufferRead tk page offset size w dest s).map Prod.snd
  | .bufferWrite tk page offset size w src, s => DataFlash.bufferWrite tk page offset size w src s
  | .runPri ch, s => some (AD7787.run .PA16 ch s).2
  | .runSec ch, s => some (AD7787.run .PA15 ch s).2

end BusCall

namespace Spi

/-- The bus after `DataFlash_Init` and the two calls of `PowerChan_Init`. -/
def boardInit (dev : Device) (busy : Nat) (delays : List Nat) (id : UInt8) (adcIn : List UInt8) : Spi :=
  (PowerChanel.init .PA15 (PowerChanel.init .PA16 (DataFlash.init .PA17 (reset dev busy delays id adcIn))).2).2

/-- The calls of a run, if all of them return. -/
def calls (cs : List BusCall) (s : Spi) : Option Spi := cs.foldlM (fun s c => c.run s) s

/-- The law of a call: every transfer is one with its device, and it ends with all select pins high. -/
structure CallLaw (c : BusCall) (s s' : Spi) : Prop where
  trace : ∃ es, s'.trace = s.trace ++ es ∧ ∀ e ∈ es, e.Lawful c.pin
  high : s'.low = fun _ => false

end Spi

theorem boardInit_idle (dev : Device) (busy : Nat) (delays : List Nat) (id : UInt8) (adcIn : List UInt8) :
    (Spi.boardInit dev busy delays id adcIn).Idle ∧ (Spi.boardInit dev busy delays id adcIn).chip.dev = dev := by
  obtain ⟨hi₀, hc₀⟩ := DataFlashAux.init_spec (DataFlashAux.reset_idle dev busy delays id adcIn)
  obtain ⟨hi₁, hc₁⟩ := AD7787.init_spec (p := .PA16) (by decide) hi₀
  obtain ⟨hi₂, hc₂⟩ := AD7787.init_spec (p := .PA15) (by decide) hi₁
  simp only [Spi.boardInit, PowerChanel.init]
  exact ⟨hi₂, by rw [hc₂, hc₁, hc₀]; rfl⟩

namespace BusCall

open DataFlashAux

variable {s s' : Spi}

theorem sessions_of_commands {tk : DFToken} {page : Nat} {header : List UInt8} (h : s.Idle) (hc : Commands tk page header s s') :
    ∃ css, Sessions .PA17 css s s' ∧ s'.Idle := by
  rcases hc with ⟨-, rfl⟩ | ⟨-, n, rest, hs⟩
  · exact ⟨[], .refl s', h⟩
  · exact ⟨_, hs.sessions, hs.idle⟩

/-- Step lemma: a call is a number of sessions with its device. -/
theorem run_sessions (c : BusCall) (h : s.Idle) (hr : c.run s = some s') : ∃ css, Sessions c.pin css s s' ∧ s'.Idle := by
  cases c with
  | readChipID =>
    obtain ⟨⟨r, s₁⟩, he, rfl⟩ := Option.map_eq_some_iff.mp hr
    obtain ⟨n, hs⟩ := DataFlash.readChipID_spoken h he
    exact ⟨_, hs.sessions, hs.idle⟩
  | readPageDirect tk page offset size dest =>
    obtain ⟨⟨d, s₁⟩, he, rfl⟩ := Option.map_eq_some_iff.mp hr
    exact sessions_of_commands h (DataFlash.readPageDirect_commands h he)
  | readFlashToBuffer tk page w => exact sessions_of_commands h (DataFlash.readFlashToBuffer_commands h hr)
  | writeBufferToFlash tk page w => exact sessions_of_commands h (DataFlash.writeBufferToFlash_commands h hr)
  | bufferRead tk page offset size w dest =>
    obtain ⟨⟨d, s₁⟩, he, rfl⟩ := Option.map_eq_some_iff.mp hr
    exact sessions_of_commands h (DataFlash.bufferRead_commands h he)
  | bufferWrite tk page offset size w src => exact sessions_of_commands h (DataFlash.bufferWrite_commands h hr)
  | runPri ch =>
    obtain rfl : (AD7787.run .PA16 ch s).2 = s' := Option.some.inj hr
    obtain ⟨bs, hs⟩ := AD7787.run_sessions (p := .PA16) (by decide) ch h
    exact ⟨_, hs, (AD7787.run_spec (by decide) ch h).1⟩
  | runSec ch =>
    obtain rfl : (AD7787.run .PA15 ch s).2 = s' := Option.some.inj hr
    obtain ⟨bs, hs⟩ := AD7787.run_sessions (p := .PA15) (by decide) ch h
    exact ⟨_, hs, (AD7787.run_spec (by decide) ch h).1⟩

end BusCall

/-- Run lemma: between two calls the bus is idle. -/
theorem calls_idle (cs : List BusCall) : ∀ {s s' : Spi}, s.Idle → Spi.calls cs s = some s' → s'.Idle := by
  induction cs with
  | nil =>
    intro s s' h he
    cases he
    exact h
  | cons c cs ih =>
    intro s s' h he
    obtain ⟨s₁, h₁, he⟩ := Option.bind_eq_some_iff.mp he
    obtain ⟨css, -, hi⟩ := c.run_sessions h h₁
    exact ih hi he

/-- In a run of driver calls after the devices are initialised, every call that returns leaves all select pins high, and in each
of its transfers the pin of its device alone is low, and no opcode but the status read is sent to a busy flash. -/
theorem bus_discipline (dev : Device) (busy : Nat) (delays : List Nat) (id : UInt8) (adcIn : List UInt8) (cs : List BusCall)
    (c : BusCall) {s s' : Spi} (hcs : Spi.calls cs (Spi.boardInit dev busy delays id adcIn) = some s) (hc : c.run s = some s') :
    Spi.CallLaw c s s' := by
  have hi := calls_idle cs (boardInit_idle dev busy delays id adcIn).1 hcs
  obtain ⟨css, hs, hi'⟩ := c.run_sessions hi hc
  obtain ⟨es, he, hlaw, -, -⟩ := hs.trace
  exact ⟨⟨es, he, hlaw⟩, hi'.low⟩

/-- A page is programmed, and the primary converter is run while the chip is busy. -/
theorem bus_discipline_sample_while_busy :
    let dev : Device := { pages := fun _ _ => 0xFF, buf := fun _ _ => 0, programs := [] }
    let program := BusCall.writeBufferToFlash { firstPage := 0, size := 4 } 1 .buffer2
    ∃ s s', Spi.calls [program] (Spi.boardInit dev 1 [3] 0 []) = some s ∧ s.chip.busy = 3 ∧
      BusCall.run (.runPri .AD_CH_2) s = some s' ∧ Spi.CallLaw (.runPri .AD_CH_2) s s' := by
  intro dev program
  have hrun : ((Spi.calls [program] (Spi.boardInit dev 1 [3] 0 [])).map fun s => s.chip.busy) = some 3 := by decide
  obtain ⟨s, hs, hb⟩ := Option.map_eq_some_iff.mp hrun
  exact ⟨s, _, hs, hb, rfl, bus_discipline dev 1 [3] 0 [] [program] (.runPri .AD_CH_2) hs rfl⟩

end PowerMonitor
