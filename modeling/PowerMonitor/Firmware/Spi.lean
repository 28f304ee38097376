import Mathlib.Logic.Function.Basic
import Mathlib.Algebra.Group.Nat.Defs

/-!
# The SPI bus and the data flash chip

The board hangs three devices on one SPI bus: the AT45DB data flash (select pin PA17) and the two AD7787 converters (PA16 for the
primary supply, PA15 for the secondary). A device takes part in a transfer while its select pin is low. `Spi` is the bus as the
drivers see it: the level of the pins, the flash chip, and what the converters will shift out.

The chip is modelled by its documented opcodes. A command is the bytes clocked in between two edges of the select pin: an opcode,
three address bytes, then don't-care and data bytes. Reads answer and buffer writes land byte by byte; a page program and a page
to buffer transfer start at the rising edge and keep the chip busy for a number of status polls that nobody controls (`delays`).
A busy chip answers the status read and ignores every other command.
-/

namespace PowerMonitor

/-- Bytes by offset: a page of the flash, one of its SRAM buffers, or a buffer in RAM. -/
abbrev Bytes := Nat → UInt8

/-- The chip-select pins `PIO_PA17`, `PIO_PA16` and `PIO_PA15`. -/
inductive Pin where
  | PA17
  | PA16
  | PA15
  deriving DecidableEq, Repr

/-- `DF_Buff`: the two SRAM buffers of the flash. -/
inductive DFBuff where
  | buffer1
  | buffer2
  deriving DecidableEq, Repr

/-! ## The flash chip -/

/-- What an opcode asks the chip to do. -/
inductive Opcode where
  | status
  | deviceId
  | pageRead
  | bufferRead (w : DFBuff)
  | bufferWrite (w : DFBuff)
  | pageToBuffer (w : DFBuff)
  | program (w : DFBuff)
  | other
  deriving DecidableEq, Repr

/-- The documented meaning of the opcode byte, for the opcodes the driver uses. -/
def Opcode.ofByte (b : UInt8) : Opcode :=
  if b = 0xD7 then .status
  else if b = 0x9F then .deviceId
  else if b = 0xD2 then .pageRead
  else if b = 0xD4 then .bufferRead .buffer1
  else if b = 0xD6 then .bufferRead .buffer2
  else if b = 0x84 then .bufferWrite .buffer1
  else if b = 0x87 then .bufferWrite .buffer2
  else if b = 0x53 then .pageToBuffer .buffer1
  else if b = 0x55 then .pageToBuffer .buffer2
  else if b = 0x83 then .program .buffer1
  else if b = 0x86 then .program .buffer2
  else .other

/-- What the chip keeps from one command to the next: its main memory, its SRAM buffers, and the page programs it has executed,
oldest first, each with the page and the bytes written to it. -/
structure Device where
  pages : Nat → Bytes
  buf : DFBuff → Bytes
  programs : List (Nat × Bytes)

namespace Device

/-- A byte is written to an SRAM buffer. -/
def store (d : Device) (w : DFBuff) (i : Nat) (b : UInt8) : Device :=
  { d with buf := Function.update d.buf w (Function.update (d.buf w) i b) }

/-- A page is copied into an SRAM buffer. -/
def fetch (d : Device) (w : DFBuff) (p : Nat) : Device :=
  { d with buf := Function.update d.buf w (d.pages p) }

/-- A page is erased and programmed from an SRAM buffer. -/
def program (d : Device) (w : DFBuff) (p : Nat) : Device :=
  { d with pages := Function.update d.pages p (d.buf w), programs := d.programs ++ [(p, d.buf w)] }

end Device

/-- The data flash: the device, how many status polls it will still answer with busy, how many each later internal operation
will take, its identification, and the command being clocked in (`pos` bytes so far, of which the first four are latched). -/
structure Chip where
  dev : Device
  busy : Nat
  delays : List Nat
  id : UInt8
  pos : Nat
  op : UInt8
  a1 : UInt8
  a2 : UInt8
  a3 : UInt8

namespace Chip

/-- The 24 address bits latched: one don't-care bit, 13 bits of page, 10 bits of byte. -/
def address (c : Chip) : Nat := c.a1.toNat * 65536 + c.a2.toNat * 256 + c.a3.toNat

/-- The page the latched address names. -/
def page (c : Chip) : Nat := c.address / 1024 % 8192

/-- The byte offset the latched address names. -/
def byte (c : Chip) : Nat := c.address % 1024

/-- The command after one more byte. -/
def latch (c : Chip) (b : UInt8) : Chip :=
  match c.pos with
  | 0 => { c with op := b, pos := 1 }
  | 1 => { c with a1 := b, pos := 2 }
  | 2 => { c with a2 := b, pos := 3 }
  | 3 => { c with a3 := b, pos := 4 }
  | n + 4 => { c with pos := n + 5 }

/-- One byte is clocked in; the result is the byte the chip shifts out meanwhile. A read or a write that passes the last of the
528 bytes continues at the first. -/
def clock (c : Chip) (b : UInt8) : UInt8 × Chip :=
  if c.pos = 0 then (0xFF, c.latch b)
  else match Opcode.ofByte c.op with
    | .status => (if c.busy = 0 then 0x80 else 0, { c.latch b with busy := c.busy - 1 })
    | .deviceId => (if c.pos = 1 then 0x1F else c.id, c.latch b)
    | .pageRead =>
      (if c.busy = 0 ∧ 8 ≤ c.pos then c.dev.pages c.page ((c.byte + (c.pos - 8)) % 528) else 0xFF, c.latch b)
    | .bufferRead w =>
      (if c.busy = 0 ∧ 5 ≤ c.pos then c.dev.buf w ((c.byte + (c.pos - 5)) % 528) else 0xFF, c.latch b)
    | .bufferWrite w =>
      (0xFF, if c.busy = 0 ∧ 4 ≤ c.pos then
          { c.latch b with dev := c.dev.store w ((c.byte + (c.pos - 4)) % 528) b }
        else c.latch b)
    | .pageToBuffer _ | .program _ | .other => (0xFF, c.latch b)

/-- The chip turns to an internal operation that leaves its memories as `d`. -/
def start (c : Chip) (d : Device) : Chip :=
  { c with dev := d, busy := c.delays.headD 0, delays := c.delays.tail, pos := 0 }

/-- The rising edge of the select pin ends the command; a complete program or page to buffer command starts here. -/
def deselect (c : Chip) : Chip :=
  if c.busy = 0 ∧ 4 ≤ c.pos then
    match Opcode.ofByte c.op with
    | .pageToBuffer w => c.start (c.dev.fetch w c.page)
    | .program w => c.start (c.dev.program w c.page)
    | _ => { c with pos := 0 }
  else { c with pos := 0 }

end Chip

/-! ## The bus -/

/-- What happens on the wires. A transfer records the byte sent, the pins that were low, whether the byte was the opcode of a
flash command, and whether the flash was busy. -/
inductive BusEvent where
  | codr (p : Pin)
  | sodr (p : Pin)
  | transfer (out : UInt8) (lows : List Pin) (opcode busy : Bool)
  deriving DecidableEq, Repr

/-- The SPI bus: the select pins that are low, the pin `CS_Pin` that DataFlash.c was given, the flash, the bytes the converters
will shift out, and the events so far, oldest first. -/
structure Spi where
  low : Pin → Bool
  csPin : Pin
  chip : Chip
  adcIn : List UInt8
  trace : List BusEvent

namespace Spi

/-- The board out of reset: every select pin high, the flash between two commands. -/
def reset (dev : Device) (busy : Nat) (delays : List Nat) (id : UInt8) (adcIn : List UInt8) : Spi where
  low := fun _ => false
  csPin := .PA17
  chip := { dev := dev, busy := busy, delays := delays, id := id, pos := 0, op := 0, a1 := 0, a2 := 0, a3 := 0 }
  adcIn := adcIn
  trace := []

/-- The pins that are low. -/
def lows (s : Spi) : List Pin := [.PA17, .PA16, .PA15].filter s.low

/-- `PIOA->PIO_CODR = p`: the pin goes low. -/
def codr (p : Pin) (s : Spi) : Spi :=
  { s with low := Function.update s.low p true, trace := s.trace ++ [.codr p] }

/-- `PIOA->PIO_SODR = p`: the pin goes high, which ends the flash's command when it is the flash's pin. -/
def sodr (p : Pin) (s : Spi) : Spi :=
  { s with
    low := Function.update s.low p false
    chip := if p = .PA17 ∧ s.low p = true then s.chip.deselect else s.chip
    trace := s.trace ++ [.sodr p] }

/-- `spi_transfer`: one byte out, one byte in. The flash takes part while its pin is low; otherwise a converter answers. -/
def transfer (b : UInt8) (s : Spi) : UInt8 × Spi :=
  let e := BusEvent.transfer b s.lows (s.low .PA17 && s.chip.pos == 0) (s.chip.busy != 0)
  if s.low .PA17 then
    ((s.chip.clock b).1, { s with chip := (s.chip.clock b).2, trace := s.trace ++ [e] })
  else
    (s.adcIn.headD 0xFF, { s with adcIn := s.adcIn.tail, trace := s.trace ++ [e] })

/-- Transfers whose answers nobody looks at. -/
def send (bs : List UInt8) (s : Spi) : Spi := bs.foldl (fun s b => (s.transfer b).2) s

end Spi
end PowerMonitor
