import PowerMonitor.Firmware.DataFlash

/-!
# The EEPROM page cache (eeprom.c)

The pages of a token are read and written a byte at a time through a few page slots in RAM. `fill` is the replacement path: it
ages every slot, looks the page up, and on a miss replaces the oldest slot, writing its page back first when it is dirty. A slot
that `memset` left at 0xFF holds page 0xFFFF, is dirty and has the largest age.

A page number is the address shifted by 9 and cut to 16 bits. A function that does not return is `none`.

A buffer that a call reads is the list of its bytes, and one that a call fills is the list of the stores through the pointer. A
`char` is unsigned, as on the board's processor.
-/

namespace PowerMonitor

/-- `EE_PAGE_SIZE`. -/
def eePageSize : Nat := 512

/-- `PAGE_COUNT_MAX`. -/
def pageCountMax : Nat := 32767

/-- `EE_CachePage`: a 16-bit page number, the dirty bit, a 15-bit age and the page's bytes. -/
structure EECachePage where
  page : Nat
  dirty : Bool
  count : Nat
  buf : Bytes

/-- The slot `memset` fills with 0xFF. -/
def EECachePage.blank : EECachePage := { page := 0xFFFF, dirty := true, count := pageCountMax, buf := fun _ => 0xFF }

/-- The statics of eeprom.c, with the bus the driver works on. `NumPages` is the length of `ExtCache`. -/
structure EE where
  token : DFToken
  extCache : List EECachePage
  flushDelay : Nat
  spi : Spi

/-- The order in which the compiler evaluates the two operands of an operator. -/
inductive EvalOrder where
  | leftFirst
  | rightFirst
  deriving DecidableEq, Repr

/-- A pointer into a caller's buffer: NULL, or an index. -/
abbrev Ptr := Option Nat

/-- What `EE_ReadString` returns, and its stores through `dest`, oldest first. -/
structure StringRead where
  len : Nat
  stores : List (Ptr × UInt8)
  deriving DecidableEq, Repr

namespace EE

/-- `NumPages`. -/
def numPages (s : EE) : Nat := s.extCache.length

/-- `ExtCache[i]`. -/
def slot (s : EE) (i : Nat) : EECachePage := s.extCache.getD i .blank

/-- Stores to `ExtCache[i]`. -/
def setSlot (s : EE) (i : Nat) (c : EECachePage) : EE := { s with extCache := s.extCache.set i c }

/-- `EE_Init`. -/
def init (tk : DFToken) (cachePages : Nat) (spi : Spi) : EE where
  token := tk
  extCache := List.replicate cachePages .blank
  flushDelay := 0
  spi := spi

/-- One slot grows older; the age stops at its largest value. -/
def age (c : EECachePage) : EECachePage := if c.count < pageCountMax then { c with count := c.count + 1 } else c

/-- `Age_Cache`. -/
def ageCache (s : EE) : EE := { s with extCache := s.extCache.map age }

/-- The search of `ExtCache_Fill` from slot `i` on: the slot that holds the page, or else the oldest slot, where `oldest` (of age
`count`) is the oldest before slot `i`. -/
def scan (page : Nat) : List EECachePage → (i oldest count : Nat) → Nat ⊕ Nat
  | [], _, oldest, _ => .inr oldest
  | ptr :: rest, i, oldest, count =>
    if ptr.page = page then .inl i
    else if ptr.count > count then scan page rest (i + 1) i ptr.count
    else scan page rest (i + 1) oldest count

/-- `ExtCache_Fill`: the index of the slot that holds the page afterwards. -/
def fill (page : Nat) (s : EE) : Option (Nat × EE) :=
  let s := s.ageCache
  match scan page s.extCache 0 0 (s.slot 0).count with
  | .inl i => some (i, s.setSlot i { s.slot i with count := 0 })
  | .inr k =>
    let oldest := s.slot k
    if oldest.dirty = false then do
      let (buf, spi) ← DataFlash.readPageDirect s.token page 0 eePageSize oldest.buf s.spi
      some (k, { s.setSlot k { page := page, dirty := false, count := 0, buf := buf } with spi := spi })
    else do
      -- the new page is read between the two halves of the write-back, so that the chip's programming time is not waited for
      let spi ← DataFlash.bufferWrite s.token oldest.page 0 eePageSize .buffer2 oldest.buf s.spi
      let (buf, spi) ← DataFlash.readPageDirect s.token page 0 eePageSize oldest.buf spi
      let spi ← DataFlash.writeBufferToFlash s.token oldest.page .buffer2 spi
      some (k, { s.setSlot k { page := page, dirty := false, count := 0, buf := buf } with spi := spi, flushDelay := 50 })

/-- `EE_Cache_Check`: writes the first dirty slot back; the result says whether there was one. -/
def cacheCheck (s : EE) : Option (Nat × EE) :=
  match s.extCache.findIdx? (·.dirty) with
  | none => some (0, s)
  | some i => do
    let ptr := s.slot i
    let spi ← DataFlash.bufferWrite s.token ptr.page 0 eePageSize .buffer2 ptr.buf s.spi
    let spi ← DataFlash.writeBufferToFlash s.token ptr.page .buffer2 spi
    some (1, { s.setSlot i { ptr with dirty := false } with spi := spi })

/-- `while ( EE_Cache_Check() != 0 ) ;` with at most `fuel` calls. -/
def flushLoop : Nat → EE → Option EE
  | 0, _ => none
  | fuel + 1, s => do
    let (r, s) ← s.cacheCheck
    if r ≠ 0 then flushLoop fuel s else some s

/-- `EE_Cache_Flush`. -/
def cacheFlush (s : EE) : Option EE := flushLoop (s.numPages + 1) s

/-- The page number `EE_Read1` and `EE_Write1` pass to `ExtCache_Fill`. -/
def pageOf (addr : Nat) : Nat := (addr >>> 9) % 65536

/-- The offset `addr & (EE_PAGE_SIZE-1)`. -/
def offsetOf (addr : Nat) : Nat := addr % eePageSize

/-- `EE_Read1`. -/
def read1 (addr : Nat) (s : EE) : Option (UInt8 × EE) := do
  let (i, s) ← s.fill (pageOf addr)
  some ((s.slot i).buf (offsetOf addr), s)

/-- `EE_Write1`. -/
def write1 (addr : Nat) (data : UInt8) (s : EE) : Option EE := do
  let (i, s) ← s.fill (pageOf addr)
  let ptr := s.slot i
  if ptr.buf (offsetOf addr) ≠ data then
    some (s.setSlot i { ptr with dirty := true, buf := Function.update ptr.buf (offsetOf addr) data })
  else some s

/-- Two calls whose results are the operands of one operator. -/
def operands {α β : Type} (o : EvalOrder) (f : EE → Option (α × EE)) (g : EE → Option (β × EE)) (s : EE) :
    Option ((α × β) × EE) :=
  match o with
  | .leftFirst => do
    let (a, s) ← f s
    let (b, s) ← g s
    some ((a, b), s)
  | .rightFirst => do
    let (b, s) ← g s
    let (a, s) ← f s
    some ((a, b), s)

/-- `EE_Read2`. -/
def read2 (o : EvalOrder) (addr : Nat) (s : EE) : Option (Nat × EE) := do
  let ((a, b), s) ← operands o (read1 addr) (read1 ((addr + 1) % 2 ^ 32)) s
  some ((a.toNat ||| b.toNat * 256) % 65536, s)

/-- `EE_Read4`; `o₂` is the order inside `EE_Read2`. -/
def read4 (o o₂ : EvalOrder) (addr : Nat) (s : EE) : Option (Nat × EE) := do
  let ((a, b), s) ← operands o (read2 o₂ addr) (read2 o₂ ((addr + 2) % 2 ^ 32)) s
  some ((a ||| b * 0x10000) % 2 ^ 32, s)

/-- `EE_Read`: the bytes it stores in the buffer. -/
def read : (size addr : Nat) → EE → Option (List UInt8 × EE)
  | 0, _, s => some ([], s)
  | size + 1, addr, s => do
    let (c, s) ← s.read1 addr
    let (buf, s) ← read size ((addr + 1) % 2 ^ 32) s
    some (c :: buf, s)

/-- `EE_Read4_Default`. -/
def read4Default (o o₂ : EvalOrder) (addr dflt : Nat) (s : EE) : Option (Nat × EE) := do
  let (d, s) ← s.read4 o o₂ addr
  some (if d = 0xFFFFFFFF then dflt else d, s)

/-- The loop of `EE_ReadString`, with at most `n` characters to come. -/
def readStringLoop : (n len addr : Nat) → Ptr → EE → Option (StringRead × Ptr × EE)
  | 0, len, _, dest, s => some ({ len := len, stores := [] }, dest, s)
  | n + 1, len, addr, dest, s => do
    let (c, s) ← s.read1 addr
    let c := if c = 0xFF then 0 else c
    let stores := if dest ≠ none then [(dest, c)] else []
    let dest := dest.map (· + 1)
    if c = 0 then some ({ len := len, stores := stores }, dest, s)
    else do
      let (r, dest, s) ← readStringLoop n (len + 1) ((addr + 1) % 2 ^ 32) dest s
      some ({ r with stores := stores ++ r.stores }, dest, s)

/-- `EE_ReadString`. A `size` of 0 makes the bound `size-1` of its loop negative. -/
def readString (addr : Nat) (dest : Ptr) (size : Nat) (s : EE) : Option (StringRead × EE) := do
  let (r, dest, s) ← readStringLoop (size - 1) 0 addr dest s
  some ({ r with stores := r.stores ++ [(dest, 0)] }, s)

/-- `EE_Write2`. -/
def write2 (addr data : Nat) (s : EE) : Option EE := do
  let s ← s.write1 addr (.ofNat data)
  s.write1 ((addr + 1) % 2 ^ 32) (.ofNat (data / 256))

/-- `EE_Write4`. -/
def write4 (addr data : Nat) (s : EE) : Option EE := do
  let s ← s.write2 addr (data % 65536)
  s.write2 ((addr + 2) % 2 ^ 32) (data / 65536 % 65536)

/-- `EE_Write` of the `size` bytes at `buf`. -/
def write : (addr : Nat) → (buf : List UInt8) → EE → Option EE
  | _, [], s => some s
  | addr, c :: buf, s => do
    let s ← s.write1 addr c
    write ((addr + 1) % 2 ^ 32) buf s

/-- `EE_WriteString` of the string `buf`, which a NUL follows. -/
def writeString (addr : Nat) (buf : List UInt8) (size : Nat) (s : EE) : Option EE :=
  let size := if buf.length + 1 < size then buf.length + 1 else size
  s.write addr ((buf ++ [0]).take size)

end EE
end PowerMonitor
