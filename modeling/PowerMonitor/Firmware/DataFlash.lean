import PowerMonitor.Firmware.Spi

/-!
# The data flash driver (DataFlash.c)

Every function selects the chip, sends an opcode, the address and don't-care bytes, moves the data and deselects the chip. The
counter of a data loop is a `uint16_t` while its bound `offset + size` is an `int`, so a loop whose bound is 65536 or more never
ends; a function that does not return is `none`.
-/

namespace PowerMonitor

/-- `DF_Token`: a run of pages of the flash. -/
structure DFToken where
  firstPage : Nat
  size : Nat
  deriving DecidableEq, Repr

namespace DataFlash

/-- `CS_On`. -/
def csOn (s : Spi) : Spi := s.codr s.csPin

/-- `CS_Off`. -/
def csOff (s : Spi) : Spi := s.sodr s.csPin

/-- `DataFlash_Init`. -/
def init (csPin : Pin) (s : Spi) : Spi :=
  let s := { s with csPin := csPin }
  csOff (s.sodr csPin)

/-- `IsFlashReady`: reads the status register and tests its READY bit. -/
def isFlashReady (s : Spi) : Bool × Spi :=
  let s := csOn s
  let s := (s.transfer 0xD7).2
  let r := s.transfer 0xFF
  (r.1 &&& 0x80 != 0, csOff r.2)

/-- `while ( !IsFlashReady() ) ;` with at most `fuel` polls. -/
def pollReady : Nat → Spi → Option Spi
  | 0, _ => none
  | fuel + 1, s =>
    let r := isFlashReady s
    if r.1 then some r.2 else pollReady fuel r.2

/-- `while ( !IsFlashReady() ) ;`. The chip answers `busy` polls with busy, so the loop has ended after one more, or never
ends. -/
def waitReady (s : Spi) : Option Spi := pollReady (s.chip.busy + 1) s

/-- `DFS_ReadChipID`. -/
def readChipID (s : Spi) : Option (UInt8 × Spi) := do
  let s ← waitReady s
  let s := (csOn s).send [0x9F, 0]
  let r := s.transfer 0
  some (r.1, csOff r.2)

/-- `TokenCheck`. -/
def tokenCheck (tk : DFToken) (page : Nat) : Int := if page ≥ tk.size then -1 else 0

/-- `for ( i=offset; i<bound; i++ ) *dest++ = spi_transfer(DF_Spi,0);` with `k` the bytes stored so far. -/
def readLoop : (fuel i bound k : Nat) → Bytes → Spi → Option (Bytes × Spi)
  | 0, _, _, _, _, _ => none
  | fuel + 1, i, bound, k, dest, s =>
    if i < bound then
      let r := s.transfer 0
      readLoop fuel ((i + 1) % 65536) bound (k + 1) (Function.update dest k r.1) r.2
    else some (dest, s)

/-- `for ( i=offset; i<bound; i++ ) spi_transfer(DF_Spi,*src++);` with `k` the bytes sent so far. -/
def writeLoop : (fuel i bound k : Nat) → Bytes → Spi → Option Spi
  | 0, _, _, _, _, _ => none
  | fuel + 1, i, bound, k, src, s =>
    if i < bound then writeLoop fuel ((i + 1) % 65536) bound (k + 1) src (s.transfer (src k)).2
    else some s

/-- The exit test of a data loop depends on its 16-bit counter alone: a loop that has not left after it has seen every value of
the counter never leaves. -/
def loopFuel : Nat := 65537

/-- `DFS_ReadPageDirect`: main memory page read, which uses neither buffer. `dest` is the caller's memory from `dest` on. -/
def readPageDirect (tk : DFToken) (page offset size : Nat) (dest : Bytes) (s : Spi) : Option (Bytes × Spi) :=
  if tokenCheck tk page < 0 then some (dest, s)
  else do
    let s ← waitReady s
    let page := (page + tk.firstPage) % 65536
    let s := (csOn s).send [0xD2, .ofNat (page >>> 6), .ofNat ((page <<< 2) ||| (offset >>> 8)), .ofNat offset, 0, 0, 0, 0]
    let (dest, s) ← readLoop loopFuel offset (offset + size) 0 dest s
    some (dest, csOff s)

/-- `DFS_ReadFlashToBuffer`. -/
def readFlashToBuffer (tk : DFToken) (page : Nat) (whichbuf : DFBuff) (s : Spi) : Option Spi :=
  if tokenCheck tk page < 0 then some s
  else do
    let s ← waitReady s
    let page := (page + tk.firstPage) % 65536
    let op := if whichbuf = .buffer1 then 0x53 else 0x55
    some (csOff ((csOn s).send [op, .ofNat (page >>> 6), .ofNat ((page <<< 2) + 0), 0]))

/-- `DFS_WriteBufferToFlash`: buffer to main memory page program with built-in erase. -/
def writeBufferToFlash (tk : DFToken) (page : Nat) (whichbuf : DFBuff) (s : Spi) : Option Spi :=
  if tokenCheck tk page < 0 then some s
  else do
    let s ← waitReady s
    let page := (page + tk.firstPage) % 65536
    let op := if whichbuf = .buffer1 then 0x83 else 0x86
    some (csOff ((csOn s).send [op, .ofNat (page >>> 6), .ofNat ((page <<< 2) + 0), 0]))

/-- `DFS_BufferRead`. -/
def bufferRead (tk : DFToken) (page offset size : Nat) (whichbuf : DFBuff) (dest : Bytes) (s : Spi) :
    Option (Bytes × Spi) :=
  if tokenCheck tk page < 0 then some (dest, s)
  else do
    let s ← waitReady s
    let op := if whichbuf = .buffer1 then 0xD4 else 0xD6
    let s := (csOn s).send [op, 0, .ofNat (offset >>> 8), .ofNat offset, 0]
    let (dest, s) ← readLoop loopFuel offset (offset + size) 0 dest s
    some (dest, csOff s)

/-- `DFS_BufferWrite`. -/
def bufferWrite (tk : DFToken) (page offset size : Nat) (whichbuf : DFBuff) (src : Bytes) (s : Spi) : Option Spi :=
  if tokenCheck tk page < 0 then some s
  else do
    let s ← waitReady s
    let op := if whichbuf = .buffer1 then 0x84 else 0x87
    let s := (csOn s).send [op, 0, .ofNat (offset >>> 8), .ofNat offset]
    let s ← writeLoop loopFuel offset (offset + size) 0 src s
    some (csOff s)

end DataFlash
end PowerMonitor
