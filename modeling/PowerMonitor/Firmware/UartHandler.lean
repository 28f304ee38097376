import PowerMonitor.Firmware.UartBuffer

/-!
# The serial interrupt inside the direct call (UartBuffer.c, main.c)

`main` calls `UartBuffer_Interrupt` with interrupts enabled, and `USART0_Handler` calls it too. The direct call is taken here
statement by statement, and the handler, which runs to its end, may come between any two of them. `UartBuffer_PutChar` and
`UartBuffer_GetChar` disable interrupts, so each is one step. `ul_status` is static: both callers use the same word.
-/

namespace PowerMonitor

/-- Which statement of the direct call is next. -/
inductive Statement where
  /-- `ul_status = usart_get_status(USART0)`; the call has not begun. -/
  | getStatus
  /-- `if ( ul_status & US_CSR_TXBUFE )` -/
  | testTxbufe
  /-- `if ( TxOut != TxIn )` -/
  | testPending
  /-- `usart_putchar(USART0, TxBuffer[TxOut])` -/
  | usartPutchar
  /-- `TxOut++` -/
  | nextOut
  /-- `if ( usart_is_rx_ready(USART0))` -/
  | testRxReady
  /-- `usart_getchar(USART0, &c)` -/
  | usartGetchar
  /-- `RxBuffer[RxIn] = c` -/
  | keep (c : UInt8)
  /-- `RxIn++` -/
  | nextIn
  deriving DecidableEq, Repr

/-- The rings, the TXBUFE bit of `ul_status`, the byte in US_RHR, the direct call, and a record of the bytes read from US_RHR. -/
structure Preempted where
  uart : UartBuffer
  ulStatus : Bool
  rhr : Option UInt8
  next : Statement
  received : List UInt8

/-- A step of the firmware or of the USART. What `usart_get_status` says of TXBUFE is part of the step that reads it. -/
inductive UartStep where
  /-- A byte comes in; it replaces one that is still in US_RHR. -/
  | arrive (c : UInt8)
  /-- `USART0_Handler`. -/
  | handler (txbufe : Bool)
  /-- The next statement of the direct call. -/
  | direct (txbufe : Bool)
  /-- `UartBuffer_PutChar` in the main loop. -/
  | putChar (txbufe : Bool) (c : UInt8)
  /-- `UartBuffer_GetChar` in the main loop. -/
  | getChar
  deriving DecidableEq, Repr

namespace Preempted

/-- The state after `UartBuffer_Init`. -/
def init : Preempted := { uart := .init, ulStatus := false, rhr := none, next := .getStatus, received := [] }

/-- What `UartBuffer_Interrupt` is told when it runs to its end. -/
def usart (s : Preempted) (txbufe : Bool) : UsartIn := { txbufe, rx := s.rhr }

/-- A call that runs `UartBuffer_Interrupt` to its end and leaves the rings at `u`: a byte in US_RHR is read. -/
def whole (s : Preempted) (txbufe : Bool) (u : UartBuffer) : Preempted :=
  { s with uart := u, ulStatus := txbufe, rhr := none, received := s.received ++ s.rhr.toList }

/-- One statement of the direct call. `usart_getchar` waits while US_RHR is empty. -/
def direct (txbufe : Bool) (s : Preempted) : Preempted :=
  match s.next with
  | .getStatus => { s with ulStatus := txbufe, next := .testTxbufe }
  | .testTxbufe => { s with next := if s.ulStatus then .testPending else .testRxReady }
  | .testPending => { s with next := if s.uart.txOut ≠ s.uart.txIn then .usartPutchar else .testRxReady }
  | .usartPutchar => { s with uart := { s.uart with sent := s.uart.sent ++ [s.uart.txBuffer s.uart.txOut] }, next := .nextOut }
  | .nextOut => { s with uart := { s.uart with txOut := (s.uart.txOut + 1) % bufferSize }, next := .testRxReady }
  | .testRxReady => { s with next := if s.rhr.isSome then .usartGetchar else .getStatus }
  | .usartGetchar =>
    match s.rhr with
    | some c => { s with rhr := none, received := s.received ++ [c], next := .keep c }
    | none => s
  | .keep c =>
    { s with
      uart := { s.uart with rxBuffer := Function.update s.uart.rxBuffer s.uart.rxIn c, taken := s.uart.taken ++ [c] }
      next := .nextIn }
  | .nextIn => { s with uart := { s.uart with rxIn := (s.uart.rxIn + 1) % bufferSize }, next := .getStatus }

/-- One step. The main loop calls `UartBuffer_PutChar` and `UartBuffer_GetChar` outside the direct call. -/
def step (s : Preempted) : UartStep → Preempted
  | .arrive c => { s with rhr := some c }
  | .handler txbufe => s.whole txbufe (s.uart.interrupt (s.usart txbufe))
  | .direct txbufe => s.direct txbufe
  | .putChar txbufe c =>
    if s.next = .getStatus then s.whole txbufe (s.uart.putChar (s.usart txbufe) c) else s
  | .getChar => if s.next = .getStatus then { s with uart := s.uart.getChar.2 } else s

/-- The state after a run. -/
def runAll (steps : List UartStep) : Preempted := steps.foldl step .init

end Preempted

end PowerMonitor
