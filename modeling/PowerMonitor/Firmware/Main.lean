import PowerMonitor.Firmware.CmdProcessor
import PowerMonitor.Firmware.Eeprom
import PowerMonitor.Firmware.Heartbeat
import PowerMonitor.Firmware.PowerChanel
import PowerMonitor.Firmware.UartBuffer

/-!
# The firmware's commands and main loop (main.c)

The state is all the statics the main loop works on, with the inputs the USART will still report, one for each call of
`UartBuffer_Interrupt`, and a record of what happened. A command that does not return (`Cmd_Restart`, or an EEPROM function) stops
the loop.

`MsgBuf` has a cell more than its `RX_SIZE`: the terminator of a line of `RX_SIZE` bytes is stored there. In the source that byte
is outside `MsgBuf`, so the runs here are those of the source as long as no line has more than 255 bytes, or the byte behind
`MsgBuf` is not used.
-/

namespace PowerMonitor

open CString CmdProcessor

/-- The two supplies: `ch` is 1 and `Pri_CH`, or 2 and `Sec_CH`. -/
inductive Channel where
  | pri
  | sec
  deriving DecidableEq, Repr

/-- `(ch == 2)?"Sec":"Pri"`. -/
def Channel.name : Channel → List UInt8
  | .pri => bytes "Pri"
  | .sec => bytes "Sec"

/-- The two parameters of a channel that are kept in the EEPROM. -/
inductive Param where
  | calib
  | offset
  deriving DecidableEq, Repr

/-- What happened: a line was looked up, `Cmd_Voltage` printed a reading, a parameter was stored, `EE_Cache_Check` ran. -/
inductive FwEvent where
  | line (l : List UInt8)
  | reading (ch : Channel) (v : Nat)
  | stored (p : Param) (ch : Channel) (v : Nat)
  | cacheCheck
  deriving DecidableEq, Repr

/-- What the compiler puts in: `__DATE__`, `__TIME__`, and the order of the operands in `EE_Read4` and in `EE_Read2`. -/
structure Build where
  date : List UInt8
  time : List UInt8
  order4 : EvalOrder
  order2 : EvalOrder

/-- The statics of the firmware. -/
structure Firmware where
  ee : EE
  pri : PowerChanel
  sec : PowerChanel
  uart : UartBuffer
  usart : List UsartIn
  beat : Heartbeat
  msgBuf : List UInt8
  rxSize : Nat
  resp : CmdResponse
  events : List FwEvent

/-- Why the main loop has stopped: in the endless loop of `Cmd_Restart`, or in a call that does not return. -/
inductive Stop where
  | restart (fw : Firmware)
  | hang

/-- `RX_SIZE`. -/
def rxSizeMax : Nat := 256

/-- `EE_Token`. -/
def eeToken : DFToken := { firstPage := 0, size := 4 }

/-- The cast of a `uint32_t` to `int32_t`. -/
def int32 (v : Nat) : Int := if v % 2 ^ 32 < 2 ^ 31 then (v % 2 ^ 32 : Nat) else (v % 2 ^ 32 : Nat) - 2 ^ 32

/-- `atol`, stored in a variable of 32 bits. -/
def atol32 (t : List UInt8) : Nat := (strtol 32 t % 2 ^ 32).toNat

namespace Firmware

/-- A call that may not return. -/
def returns {α : Type} : Option α → Except Stop α
  | some a => .ok a
  | none => .error .hang

/-- The call leaves a record. -/
def log (e : FwEvent) (fw : Firmware) : Firmware := { fw with events := fw.events ++ [e] }

/-- `(ch==2)?Sec_CH:Pri_CH`. -/
def chan (fw : Firmware) : Channel → PowerChanel
  | .pri => fw.pri
  | .sec => fw.sec

/-- A channel's structure is changed. -/
def setChan (ch : Channel) (f : PowerChanel → PowerChanel) (fw : Firmware) : Firmware :=
  match ch with
  | .pri => { fw with pri := f fw.pri }
  | .sec => { fw with sec := f fw.sec }

/-! ## The serial port -/

/-- `UartBuffer_Interrupt`, from the main loop or from `USART0_Handler`. -/
def interrupt (fw : Firmware) : Firmware :=
  { fw with uart := fw.uart.interrupt (fw.usart.headD .quiet), usart := fw.usart.tail }

/-- `UartBuffer_PutChar`. -/
def putChar (c : UInt8) (fw : Firmware) : Firmware :=
  { fw with uart := fw.uart.putChar (fw.usart.headD .quiet) c, usart := fw.usart.tail }

/-- `UartBuffer_PutString`. -/
def putString (s : List UInt8) (fw : Firmware) : Firmware := s.foldl (fun fw c => fw.putChar c) fw

/-! ## The stored parameters -/

/-- `EE_CH_1_VOLT`, `EE_CH_2_VOLT`, `EE_CH_1_VOLT_OFFSET` and `EE_CH_2_VOLT_OFFSET`. -/
def eeAddress : Param → Channel → Nat
  | .calib, .pri => 0x0002
  | .calib, .sec => 0x0006
  | .offset, .pri => 0x000A
  | .offset, .sec => 0x000E

/-- `Read_PowerCH_VoltCalibration`. -/
def readVoltCalibration (b : Build) (ch : Channel) (ee : EE) : Option (Nat × EE) :=
  ee.read4Default b.order4 b.order2 (eeAddress .calib ch) 856

/-- `Write_PowerCH_VoltCalibration`. -/
def writeVoltCalibration (ch : Channel) (v : Nat) (ee : EE) : Option EE := ee.write4 (eeAddress .calib ch) v

/-- `Read_PowerCH_VoltOffset`, before the cast to `int32_t`. -/
def readVoltOffset (b : Build) (ch : Channel) (ee : EE) : Option (Nat × EE) :=
  ee.read4Default b.order4 b.order2 (eeAddress .offset ch) 1

/-- `Write_PowerCH_VoltOffset`. -/
def writeVoltOffset (ch : Channel) (v : Nat) (ee : EE) : Option EE := ee.write4 (eeAddress .offset ch) v

/-! ## Commands -/

/-- The channel an argument names, and the argument behind its leading spaces. -/
def channelOf (argument : List UInt8) : Option (Channel × List UInt8) :=
  let argument := skipSpace argument
  if strncmp (bytes "sec") argument 3 = 0 then some (.sec, argument)
  else if strncmp (bytes "pri") argument 3 = 0 then some (.pri, argument)
  else none

/-- A command that reports about a channel: `print` is what follows the channel's name. -/
def cmdReport (label : List UInt8) (print : PowerChanel → List UInt8) (events : Channel → PowerChanel → List FwEvent)
    (argument : List UInt8) (resp : CmdResponse) (fw : Firmware) : Except Stop (Int × CmdResponse × Firmware) :=
  match channelOf argument with
  | none => .ok (-1, resp, fw)
  | some (ch, _) =>
    .ok (0, { buffer := label ++ ch.name ++ bytes " " ++ print (fw.chan ch) },
      { fw with events := fw.events ++ events ch (fw.chan ch) })

/-- `Cmd_Version`. -/
def cmdVersion (b : Build) (_ : List UInt8) (_ : CmdResponse) (fw : Firmware) : Except Stop (Int × CmdResponse × Firmware) :=
  .ok (0, { buffer := bytes "Ver: Power Monitor Rev0, V0.1, " ++ b.date ++ bytes " " ++ b.time ++ bytes "\r\n" }, fw)

/-- `Cmd_Current`. -/
def cmdCurrent : List UInt8 → CmdResponse → Firmware → Except Stop (Int × CmdResponse × Firmware) :=
  cmdReport (bytes "Current: ") (fun c => signedDecimal c.getCurrent ++ bytes " mA\r\n") fun _ _ => []

/-- `Cmd_Voltage`. -/
def cmdVoltage : List UInt8 → CmdResponse → Firmware → Except Stop (Int × CmdResponse × Firmware) :=
  cmdReport (bytes "Voltage: ") (fun c => decimal c.getVolts ++ bytes " mV\r\n") fun ch c => [.reading ch c.getVolts]

/-- `Cmd_VoltageRaw`. -/
def cmdVoltageRaw : List UInt8 → CmdResponse → Firmware → Except Stop (Int × CmdResponse × Firmware) :=
  cmdReport (bytes "RawV: ")
    (fun c => hex8 c.getVoltsRaw ++ bytes ", " ++ signedDecimal (int32 c.getVoltsRaw) ++ bytes "\r\n") fun _ _ => []

/-- `Cmd_CurrentRaw`. -/
def cmdCurrentRaw : List UInt8 → CmdResponse → Firmware → Except Stop (Int × CmdResponse × Firmware) :=
  cmdReport (bytes "RawC: ") (fun c => hex8 (c.getCurrent % 2 ^ 32).toNat ++ bytes "\r\n") fun _ _ => []

/-- `Cmd_Restart`. -/
def cmdRestart (_ : List UInt8) (_ : CmdResponse) (fw : Firmware) : Except Stop (Int × CmdResponse × Firmware) :=
  .error (.restart (fw.putString (bytes "System Restarting\r\n")))

/-- A command that sets a stored parameter, if a value follows the channel, and prints it: it is written to the EEPROM and to the
channel's structure, and read back from the EEPROM. -/
def cmdParam (p : Param) (label : List UInt8) (write : Channel → Nat → EE → Option EE)
    (setLive : Nat → PowerChanel → PowerChanel) (read : Channel → EE → Option (Nat × EE)) (print : Nat → List UInt8)
    (argument : List UInt8) (resp : CmdResponse) (fw : Firmware) : Except Stop (Int × CmdResponse × Firmware) :=
  match channelOf argument with
  | none => .ok (-1, resp, fw)
  | some (ch, argument) => do
    let argument := skipSpace (skipChars argument)
    let fw ←
      if argument ≠ [] then do
        let v := atol32 argument
        let ee ← returns (write ch v fw.ee)
        .ok ((({ fw with ee := ee } : Firmware).setChan ch (setLive v)).log (.stored p ch v))
      else .ok fw
    let (v, ee) ← returns (read ch fw.ee)
    .ok (0, { buffer := label ++ ch.name ++ bytes ": " ++ print v ++ bytes "\r\n" }, { fw with ee := ee })

/-- `Cmd_VoltCalib`. -/
def cmdVoltCalib (b : Build) : List UInt8 → CmdResponse → Firmware → Except Stop (Int × CmdResponse × Firmware) :=
  cmdParam .calib (bytes "Volt Calib ") writeVoltCalibration PowerChanel.setVoltCalib (readVoltCalibration b) decimal

/-- `Cmd_VoltOffset`. -/
def cmdVoltOffset (b : Build) : List UInt8 → CmdResponse → Firmware → Except Stop (Int × CmdResponse × Firmware) :=
  cmdParam .offset (bytes "Volt Offset ") writeVoltOffset (fun v => PowerChanel.setVoltOffset (int32 v)) (readVoltOffset b)
    fun v => signedDecimal (int32 v)

/-- `SystemCommands`. -/
def systemCommands (b : Build) : List (CmdTable Stop Firmware) :=
  [{ cmd := bytes "restart", vector := cmdRestart },
   { cmd := bytes "current", vector := cmdCurrent },
   { cmd := bytes "volt", vector := cmdVoltage },
   { cmd := bytes "rawv", vector := cmdVoltageRaw },
   { cmd := bytes "rawc", vector := cmdCurrentRaw },
   { cmd := bytes "calib", vector := cmdVoltCalib b },
   { cmd := bytes "offset", vector := cmdVoltOffset b },
   { cmd := bytes "ver", vector := cmdVersion b }]

/-! ## Lines -/

/-- What `Run_Config` does with a complete line. -/
def handleLine (b : Build) (line : List UInt8) (fw : Firmware) : Except Stop Firmware := do
  let fw := (fw.putChar lf).log (.line line)
  let (_, resp, fw) ← lookup line (systemCommands b) fw.resp fw
  .ok (({ fw with resp := resp } : Firmware).putString resp.buffer)

/-- The cells of `MsgBuf` that a received byte is stored to, and what is stored there. -/
def stores (c : UInt8) (fw : Firmware) : List (Nat × UInt8) :=
  if c = cr ∨ c = lf then [] else if fw.rxSize < rxSizeMax then [(fw.rxSize, c), (fw.rxSize + 1, 0)] else []

/-- What `Run_Config` does with a received byte. -/
def receiveChar (b : Build) (c : UInt8) (fw : Firmware) : Except Stop Firmware :=
  if c = cr ∨ c = lf then
    if fw.rxSize ≠ 0 then do
      let fw ← fw.handleLine b (text fw.msgBuf)
      .ok { fw with rxSize := 0 }
    else .ok fw
  else if fw.rxSize < rxSizeMax then
    .ok { fw with msgBuf := (fw.stores c).foldl (fun m s => m.set s.1 s.2) fw.msgBuf, rxSize := fw.rxSize + 1 }
  else .ok fw

/-- The loop of `Run_Config`, for at most `fuel` bytes. -/
def configLoop (b : Build) : (fuel : Nat) → Firmware → Except Stop Firmware
  | 0, fw => if fw.uart.rxReady ≠ 0 then .error .hang else .ok fw
  | fuel + 1, fw =>
    if fw.uart.rxReady ≠ 0 then do
      let r := fw.uart.getChar
      let fw ← ({ fw with uart := r.2 } : Firmware).receiveChar b r.1
      configLoop b fuel fw
    else .ok fw

/-- `Run_Config`. Every byte it reads is in the ring or will still be reported by the USART. -/
def runConfig (b : Build) (fw : Firmware) : Except Stop Firmware := configLoop b (bufferSize + fw.usart.length) fw

/-! ## The main loop -/

/-- `EE_Cache_Check`, as the main loop calls it. -/
def cacheCheck (fw : Firmware) : Except Stop Firmware := do
  let (_, ee) ← returns fw.ee.cacheCheck
  .ok (({ fw with ee := ee } : Firmware).log .cacheCheck)

/-- The two `PowerChan_Run` calls. -/
def runChannels (fw : Firmware) : Firmware :=
  let r₁ := fw.pri.run fw.ee.spi
  let r₂ := fw.sec.run r₁.2
  { fw with pri := r₁.1, sec := r₂.1, ee := { fw.ee with spi := r₂.2 } }

/-- What comes between two passes of the main loop: SysTick interrupts and USART interrupts. -/
structure LoopIn where
  ticks : Nat
  interrupts : Nat
  deriving DecidableEq, Repr

/-- A pass of the main loop. -/
def iteration (b : Build) (env : LoopIn) (fw : Firmware) : Except Stop Firmware := do
  let fw := { fw with beat := (Nat.iterate Heartbeat.tick env.ticks fw.beat).run.2 }
  let fw := (Nat.iterate interrupt env.interrupts fw).interrupt
  let fw ← fw.runConfig b
  let r := fw.beat.is10ms
  let fw ← if r.1 then ({ fw with beat := r.2 } : Firmware).cacheCheck else .ok { fw with beat := r.2 }
  let r := fw.beat.is1s
  .ok (if r.1 then ({ fw with beat := r.2 } : Firmware).runChannels else { fw with beat := r.2 })

/-- Passes of the main loop. -/
def loop (b : Build) : List LoopIn → Firmware → Except Stop Firmware
  | [], fw => .ok fw
  | env :: envs, fw => do
    let fw ← fw.iteration b env
    loop b envs fw

/-- The board at power-up: the flash, what the converters will shift out, and what the USART will report. -/
structure Board where
  dev : Device
  busy : Nat
  delays : List Nat
  id : UInt8
  adcIn : List UInt8
  usart : List UsartIn

/-- `main` up to its loop. -/
def start (b : Build) (board : Board) : Except Stop Firmware := do
  let spi := DataFlash.init .PA17 (Spi.reset board.dev board.busy board.delays board.id board.adcIn)
  let (pri, spi) := PowerChanel.init .PA16 spi
  let (sec, spi) := PowerChanel.init .PA15 spi
  let (_, spi) ← returns (DataFlash.readChipID spi)
  let ee := EE.init eeToken 4 spi
  let (v₁, ee) ← returns (readVoltCalibration b .pri ee)
  let (o₁, ee) ← returns (readVoltOffset b .pri ee)
  let (v₂, ee) ← returns (readVoltCalibration b .sec ee)
  let (o₂, ee) ← returns (readVoltOffset b .sec ee)
  let fw : Firmware :=
    { ee := ee
      pri := (pri.setVoltCalib v₁).setVoltOffset (int32 o₁)
      sec := (sec.setVoltCalib v₂).setVoltOffset (int32 o₂)
      uart := .init
      usart := board.usart
      beat := .reset
      msgBuf := List.replicate (rxSizeMax + 1) 0
      rxSize := 0
      resp := { buffer := [] }
      events := [] }
  .ok ((fw.putString (bytes "\r\nSystem Startup\r\n")).putString (bytes ">> Diag,MAIN,Start up\r\n"))

/-- `main`: the set-up and the passes of its loop. -/
def main (b : Build) (board : Board) (envs : List LoopIn) : Except Stop Firmware := do
  let fw ← start b board
  loop b envs fw

end Firmware

end PowerMonitor
