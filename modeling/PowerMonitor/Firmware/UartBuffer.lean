import Mathlib.Logic.Function.Basic

/-!
# The serial buffers (UartBuffer.c)

Two rings of 256 bytes with 8-bit indices that wrap. `UartBuffer_Interrupt` moves at most one byte each way: it hands the next
byte of `TxBuffer` to the USART when the status says TXBUFE, and takes a received byte into `RxBuffer`. C compares the indices
as `int`, so `TxOut + 1` is 256 when `TxOut` is 255.

What the USART reports is an input of each call. The lists at the end of the state record what went through the rings; no
function reads them.
-/

namespace PowerMonitor

/-- `BUFFER_SIZE`. -/
def bufferSize : Nat := 256

/-- What the USART reports to one call of `UartBuffer_Interrupt`: whether the status has TXBUFE set, and the received byte when
`usart_is_rx_ready`. -/
structure UsartIn where
  txbufe : Bool
  rx : Option UInt8
  deriving DecidableEq, Repr

/-- A USART that reports nothing. -/
def UsartIn.quiet : UsartIn := { txbufe := false, rx := none }

/-- The statics of UartBuffer.c, and a record of the bytes passed to `UartBuffer_PutChar`, of those it stored, of those handed to
`usart_putchar`, of those taken into `RxBuffer`, and of those `UartBuffer_GetChar` returned. -/
structure UartBuffer where
  txBuffer : Nat → UInt8
  rxBuffer : Nat → UInt8
  txIn : Nat
  txOut : Nat
  rxIn : Nat
  rxOut : Nat
  put : List UInt8
  accepted : List UInt8
  sent : List UInt8
  taken : List UInt8
  got : List UInt8

namespace UartBuffer

/-- `UartBuffer_Init`. -/
def init : UartBuffer where
  txBuffer := fun _ => 0
  rxBuffer := fun _ => 0
  txIn := 0
  txOut := 0
  rxIn := 0
  rxOut := 0
  put := []
  accepted := []
  sent := []
  taken := []
  got := []

/-- The first half of `UartBuffer_Interrupt`. -/
def transmit (txbufe : Bool) (u : UartBuffer) : UartBuffer :=
  if txbufe = true ∧ u.txOut ≠ u.txIn then
    { u with sent := u.sent ++ [u.txBuffer u.txOut], txOut := (u.txOut + 1) % bufferSize }
  else u

/-- The second half of `UartBuffer_Interrupt`. -/
def receive (rx : Option UInt8) (u : UartBuffer) : UartBuffer :=
  match rx with
  | some c =>
    { u with rxBuffer := Function.update u.rxBuffer u.rxIn c, rxIn := (u.rxIn + 1) % bufferSize, taken := u.taken ++ [c] }
  | none => u

/-- `UartBuffer_Interrupt`. -/
def interrupt (usart : UsartIn) (u : UartBuffer) : UartBuffer := (u.transmit usart.txbufe).receive usart.rx

/-- `UartBuffer_TxFull`. -/
def txFull (u : UartBuffer) : UInt8 := if u.txIn + 1 = u.txOut then 1 else 0

/-- The store of `UartBuffer_PutChar`: refused when `out_next`, which is computed from `TxOut`, is `TxIn`. -/
def store (c : UInt8) (u : UartBuffer) : UartBuffer :=
  let outNext := u.txOut + 1
  if outNext ≠ u.txIn then
    { u with txBuffer := Function.update u.txBuffer u.txIn c, txIn := (u.txIn + 1) % bufferSize, put := u.put ++ [c],
             accepted := u.accepted ++ [c] }
  else { u with put := u.put ++ [c] }

/-- `UartBuffer_PutChar`. -/
def putChar (usart : UsartIn) (c : UInt8) (u : UartBuffer) : UartBuffer := (u.store c).interrupt usart

/-- `UartBuffer_RxReady`. -/
def rxReady (u : UartBuffer) : UInt8 := if u.rxIn ≠ u.rxOut then 1 else 0

/-- `UartBuffer_GetChar`. -/
def getChar (u : UartBuffer) : UInt8 × UartBuffer :=
  if u.rxReady ≠ 0 then
    let c := u.rxBuffer u.rxOut
    (c, { u with rxOut := (u.rxOut + 1) % bufferSize, got := u.got ++ [c] })
  else (0, u)

end UartBuffer

end PowerMonitor
