import PowerMonitor.Firmware.Spi
import Mathlib.Algebra.Group.Int.Defs

/-!
# The converters and the supply channels (AD7787_Driver.c, PowerChanel.c)

A channel keeps the last 16-bit sample of its converter and the two calibration parameters. Volts are computed in `uint32_t`
arithmetic, the signed offset included.
-/

namespace PowerMonitor

/-- `AD7787_Chanel`. -/
inductive AD7787Chanel where
  | AD_CH_1
  | AD_CH_2
  deriving DecidableEq, Repr

namespace AD7787

/-- `AD7787_Init`; `csPin` is the select pin of the converter. -/
def init (csPin : Pin) (s : Spi) : Spi :=
  let s := s.sodr csPin
  ((s.codr csPin).send (List.replicate 8 0xFF)).sodr csPin

/-- `AD7787_Run`: starts a conversion and reads its 24 bits. `spi_wait_miso_low` between the two, which only looks at a pin, is left
out: the converter always gets ready. -/
def run (csPin : Pin) (ch : AD7787Chanel) (s : Spi) : Nat × Spi :=
  let s := (s.codr csPin).send [if ch = .AD_CH_1 then 0x10 else 0x11, 0x82]
  let s := s.send [if ch = .AD_CH_1 then 0x38 else 0x39]
  let r₁ := s.transfer 0
  let r₂ := r₁.2.transfer 0
  let r₃ := r₂.2.transfer 0
  (r₃.1.toNat + (r₂.1.toNat + r₁.1.toNat * 256) * 256, r₃.2.sodr csPin)

end AD7787

/-- `struct PowerChanel`: the select pin of its converter, and `volts`, `v_calib` and `volt_offset`, of which the last is
signed. -/
structure PowerChanel where
  adc : Pin
  volts : Nat
  vCalib : Nat
  voltOffset : Int
  deriving DecidableEq, Repr

namespace PowerChanel

/-- `PowerChan_Init`, with the memory it asks for. -/
def init (csPin : Pin) (s : Spi) : PowerChanel × Spi :=
  ({ adc := csPin, volts := 0, vCalib := 1, voltOffset := 0 }, AD7787.init csPin s)

/-- `PowerChan_SetVoltCalib`. -/
def setVoltCalib (factor : Nat) (c : PowerChanel) : PowerChanel := { c with vCalib := factor }

/-- `PowerChan_SetVoltOffset`. -/
def setVoltOffset (offset : Int) (c : PowerChanel) : PowerChanel := { c with voltOffset := offset }

/-- `PowerChan_Run`. -/
def run (c : PowerChanel) (s : Spi) : PowerChanel × Spi :=
  let r := AD7787.run c.adc .AD_CH_2 s
  ({ c with volts := r.1 / 256 }, r.2)

/-- `PowerChan_GetVolts`. -/
def getVolts (c : PowerChanel) : Nat :=
  if c.volts < 0x9000 then 0
  else (((c.volts * c.vCalib % 2 ^ 32 / 4096 : Nat) - c.voltOffset : Int) % 2 ^ 32).toNat

/-- `PowerChan_GetVoltsRaw`. -/
def getVoltsRaw (c : PowerChanel) : Nat := c.volts

/-- `PowerChan_GetCurrent`. -/
def getCurrent (_ : PowerChanel) : Int := 0

end PowerChanel

end PowerMonitor
