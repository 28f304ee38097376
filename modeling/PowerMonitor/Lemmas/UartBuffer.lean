import PowerMonitor.Firmware.UartBuffer
import PowerMonitor.Lib.Ring

/-!
# The serial buffers, step by step

`TxHolds` and `RxHolds` say which queue a ring holds between two calls, and how the record of the bytes that went through it
splits at that queue. Each half of `UartBuffer_Interrupt`, the store of `UartBuffer_PutChar` and `UartBuffer_GetChar` has one
lemma about the ring it works on; it leaves the other ring as it is.
-/

namespace PowerMonitor

namespace UartBuffer

/-- `UartBuffer_PutChar` would not store its byte, whatever the byte and whatever the USART reports. -/
def Refuses (u : UartBuffer) : Prop := ∀ usart c, (u.putChar usart c).accepted = u.accepted

/-- The transmit ring holds `q`: the bytes stored are those handed over, then those of `q`; no byte was refused. -/
structure TxHolds (u : UartBuffer) (q : List UInt8) : Prop where
  ring : Ring.Holds bufferSize u.txBuffer u.txIn u.txOut q
  out_eq : u.txOut = u.sent.length % bufferSize
  accepted_eq : u.accepted = u.sent ++ q
  put_eq : u.put = u.accepted

/-- The receive ring holds `q`: the bytes taken in are those returned, then those of `q`. -/
structure RxHolds (u : UartBuffer) (q : List UInt8) : Prop where
  ring : Ring.Holds bufferSize u.rxBuffer u.rxIn u.rxOut q
  taken_eq : u.taken = u.got ++ q

theorem init_txHolds : TxHolds init [] := ⟨Ring.Holds.empty (by decide), rfl, rfl, rfl⟩

theorem init_rxHolds : RxHolds init [] := ⟨Ring.Holds.empty (by decide), rfl⟩

/-! ## What a call leaves as it is -/

/-- The halves that work on the receive ring leave the transmit ring as it is. -/
theorem TxHolds.congr {u v : UartBuffer} {q : List UInt8} (h : u.TxHolds q)
    (he : (v.txBuffer, v.txIn, v.txOut) = (u.txBuffer, u.txIn, u.txOut))
    (hl : (v.put, v.accepted, v.sent) = (u.put, u.accepted, u.sent)) : v.TxHolds q := by
  simp only [Prod.mk.injEq] at he hl
  obtain ⟨hb, hi, ho⟩ := he
  obtain ⟨hp, ha, hs⟩ := hl
  exact ⟨by rw [hb, hi, ho]; exact h.ring, by rw [ho, hs, h.out_eq], by rw [ha, hs, h.accepted_eq],
    by rw [hp, ha, h.put_eq]⟩

/-- The halves that work on the transmit ring leave the receive ring as it is. -/
theorem RxHolds.congr {u v : UartBuffer} {q : List UInt8} (h : u.RxHolds q)
    (he : (v.rxBuffer, v.rxIn, v.rxOut) = (u.rxBuffer, u.rxIn, u.rxOut))
    (hl : (v.taken, v.got) = (u.taken, u.got)) : v.RxHolds q := by
  simp only [Prod.mk.injEq] at he hl
  obtain ⟨hb, hi, ho⟩ := he
  obtain ⟨ht, hg⟩ := hl
  exact ⟨by rw [hb, hi, ho]; exact h.ring, by rw [ht, hg, h.taken_eq]⟩

theorem receive_txHolds {u : UartBuffer} {q : List UInt8} (h : u.TxHolds q) (rx : Option UInt8) :
    (u.receive rx).TxHolds q := by
  cases rx with
  | none => exact h
  | some c => exact h.congr rfl rfl

theorem getChar_txHolds {u : UartBuffer} {q : List UInt8} (h : u.TxHolds q) : u.getChar.2.TxHolds q := by
  unfold getChar
  split
  · exact h.congr rfl rfl
  · exact h

theorem transmit_rxHolds {u : UartBuffer} {q : List UInt8} (h : u.RxHolds q) (txbufe : Bool) :
    (u.transmit txbufe).RxHolds q := by
  unfold transmit
  split
  · exact h.congr rfl rfl
  · exact h

theorem store_rxHolds {u : UartBuffer} {q : List UInt8} (h : u.RxHolds q) (c : UInt8) : (u.store c).RxHolds q := by
  by_cases hr : u.txOut + 1 = u.txIn
  · exact h.congr (by simp [store, hr]) (by simp [store, hr])
  · exact h.congr (by simp [store, hr]) (by simp [store, hr])

@[simp] theorem transmit_accepted (txbufe : Bool) (u : UartBuffer) : (u.transmit txbufe).accepted = u.accepted := by
  unfold transmit
  split <;> rfl

@[simp] theorem receive_accepted (rx : Option UInt8) (u : UartBuffer) : (u.receive rx).accepted = u.accepted := by
  cases rx <;> rfl

@[simp] theorem receive_sent (rx : Option UInt8) (u : UartBuffer) : (u.receive rx).sent = u.sent := by cases rx <;> rfl

@[simp] theorem receive_txIn (rx : Option UInt8) (u : UartBuffer) : (u.receive rx).txIn = u.txIn := by cases rx <;> rfl

@[simp] theorem receive_txOut (rx : Option UInt8) (u : UartBuffer) : (u.receive rx).txOut = u.txOut := by cases rx <;> rfl

@[simp] theorem getChar_taken (u : UartBuffer) : u.getChar.2.taken = u.taken := by
  unfold getChar
  split <;> rfl

@[simp] theorem getChar_put (u : UartBuffer) : u.getChar.2.put = u.put := by
  unfold getChar
  split <;> rfl

@[simp] theorem getChar_sent (u : UartBuffer) : u.getChar.2.sent = u.sent := by
  unfold getChar
  split <;> rfl

@[simp] theorem putChar_accepted (usart : UsartIn) (c : UInt8) (u : UartBuffer) :
    (u.putChar usart c).accepted = (u.store c).accepted := by
  simp [putChar, interrupt]

/-! ## The fullness tests -/

theorem store_accepted (u : UartBuffer) (c : UInt8) :
    (u.store c).accepted = if u.txOut + 1 = u.txIn then u.accepted else u.accepted ++ [c] := by
  by_cases h : u.txOut + 1 = u.txIn <;> simp [store, h]

/-- `UartBuffer_PutChar` refuses on the comparison of `out_next`, which is `TxOut + 1`, with `TxIn`. -/
theorem refuses_iff (u : UartBuffer) : u.Refuses ↔ u.txOut + 1 = u.txIn := by
  constructor
  · intro h
    by_contra hne
    have hc := h .quiet 0
    rw [putChar_accepted, store_accepted, if_neg hne] at hc
    simp at hc
  · intro h usart c
    rw [putChar_accepted, store_accepted, if_pos h]

theorem txFull_eq_one_iff (u : UartBuffer) : u.txFull = 1 ↔ u.txIn + 1 = u.txOut := by
  by_cases h : u.txIn + 1 = u.txOut <;> simp [txFull, h]

theorem rxReady_eq_zero_iff (u : UartBuffer) : u.rxReady = 0 ↔ u.rxIn = u.rxOut := by
  by_cases h : u.rxIn = u.rxOut <;> simp [rxReady, h]

/-- With a queue in the ring, a byte is refused exactly when one byte is pending and `TxOut` is not 255. -/
theorem TxHolds.refuses_iff {u : UartBuffer} {q : List UInt8} (h : u.TxHolds q) :
    u.Refuses ↔ q.length = 1 ∧ u.txOut ≠ 255 := by
  have hlt : u.txOut < 256 := h.ring.out_lt
  rw [UartBuffer.refuses_iff, Ring.Holds.succ_eq_iff h.ring.in_lt, h.ring.next_out_iff (by decide)]
  simp only [bufferSize]
  refine and_congr_right fun _ => ?_
  omega

/-- With a queue in the ring, `UartBuffer_TxFull` returns 1 exactly when 255 bytes are pending and `TxOut` is not 0. -/
theorem TxHolds.txFull_iff {u : UartBuffer} {q : List UInt8} (h : u.TxHolds q) :
    u.txFull = 1 ↔ q.length = 255 ∧ u.txOut ≠ 0 := by
  have hlt : u.txOut < 256 := h.ring.out_lt
  have hin : u.txIn = (u.txOut + q.length) % 256 := h.ring.in_eq
  rw [txFull_eq_one_iff, Ring.Holds.succ_eq_iff h.ring.out_lt, h.ring.next_in_iff]
  simp only [bufferSize]
  constructor
  · rintro ⟨hq, hi⟩
    exact ⟨by omega, by omega⟩
  · rintro ⟨hq, ho⟩
    exact ⟨by omega, by omega⟩

/-! ## The transmit ring -/

/-- A byte that is stored with room to spare joins the queue. -/
theorem store_txHolds {u : UartBuffer} {q : List UInt8} (h : u.TxHolds q) (hr : u.txOut + 1 ≠ u.txIn)
    (hroom : q.length < 255) (c : UInt8) : (u.store c).TxHolds (q ++ [c]) := by
  have hs : u.store c =
      { u with txBuffer := Function.update u.txBuffer u.txIn c, txIn := (u.txIn + 1) % bufferSize, put := u.put ++ [c],
               accepted := u.accepted ++ [c] } := by simp [store, hr]
  rw [hs]
  refine ⟨h.ring.push (by simp only [bufferSize]; omega) c, h.out_eq, ?_, ?_⟩
  · simp only [h.accepted_eq, List.append_assoc]
  · simp only [h.put_eq]

/-- A byte stored behind 255 pending ones makes the ring look empty. -/
theorem store_overflow {u : UartBuffer} {q : List UInt8} (h : u.TxHolds q) (hr : u.txOut + 1 ≠ u.txIn)
    (hfull : q.length = 255) (c : UInt8) :
    (u.store c).txIn = (u.store c).txOut ∧ (u.store c).accepted.length = (u.store c).sent.length + 256 := by
  have hnext : (u.txIn + 1) % bufferSize = u.txOut := h.ring.next_in_iff.mpr (by rw [hfull]; rfl)
  simp [store, hr, hnext, h.accepted_eq, hfull]

/-- A USART that takes no byte gets none. -/
@[simp] theorem transmit_false (u : UartBuffer) : u.transmit false = u := by simp [transmit]

/-- With nothing pending the USART gets nothing. -/
theorem transmit_nil {u : UartBuffer} (h : Ring.Holds bufferSize u.txBuffer u.txIn u.txOut []) (txbufe : Bool) :
    u.transmit txbufe = u := by
  have he : u.txOut = u.txIn := (h.in_eq_out_iff.mpr rfl).symm
  simp [transmit, he]

/-- The byte that is handed over is the oldest pending one. -/
theorem transmit_cons {u : UartBuffer} {a : UInt8} {q : List UInt8}
    (h : Ring.Holds bufferSize u.txBuffer u.txIn u.txOut (a :: q)) :
    u.transmit true = { u with sent := u.sent ++ [a], txOut := (u.txOut + 1) % bufferSize } := by
  have hne : u.txOut ≠ u.txIn := fun he => absurd (h.in_eq_out_iff.mp he.symm) (by simp)
  simp [transmit, hne, h.head]

/-- A USART that takes a byte gets the oldest pending one. -/
theorem transmit_txHolds {u : UartBuffer} {q : List UInt8} (h : u.TxHolds q) :
    (u.transmit true).TxHolds q.tail ∧ (u.transmit true).sent = u.sent ++ q.take 1 := by
  cases q with
  | nil =>
    rw [transmit_nil h.ring]
    exact ⟨h, by simp⟩
  | cons a q =>
    rw [transmit_cons h.ring]
    refine ⟨⟨h.ring.pop, ?_, ?_, h.put_eq⟩, by simp⟩
    · simp [h.out_eq, bufferSize]
    · simpa using h.accepted_eq

/-! ## The receive ring -/

/-- A byte received with room to spare joins the queue. -/
theorem receive_rxHolds {u : UartBuffer} {q : List UInt8} (h : u.RxHolds q) (hroom : q.length < 255) (c : UInt8) :
    (u.receive (some c)).RxHolds (q ++ [c]) :=
  ⟨h.ring.push (by simp only [bufferSize]; omega) c, by simp [receive, h.taken_eq]⟩

/-- A byte received behind 255 unread ones makes the ring look empty. -/
theorem receive_overflow {u : UartBuffer} {q : List UInt8} (h : u.RxHolds q) (hfull : q.length = 255) (c : UInt8) :
    (u.receive (some c)).rxReady = 0 ∧ (u.receive (some c)).got ≠ (u.receive (some c)).taken := by
  have hnext : (u.rxIn + 1) % bufferSize = u.rxOut := h.ring.next_in_iff.mpr (by rw [hfull]; rfl)
  refine ⟨(rxReady_eq_zero_iff _).mpr hnext, ?_⟩
  intro he
  have := congrArg List.length he
  simp [receive, h.taken_eq] at this

theorem getChar_empty {u : UartBuffer} (h : u.rxReady = 0) : u.getChar = (0, u) := by simp [getChar, h]

theorem getChar_ready {u : UartBuffer} (h : u.rxReady ≠ 0) :
    u.getChar = (u.rxBuffer u.rxOut,
      { u with rxOut := (u.rxOut + 1) % bufferSize, got := u.got ++ [u.rxBuffer u.rxOut] }) := by
  simp [getChar, h]

/-- `UartBuffer_GetChar` returns the oldest unread byte. -/
theorem getChar_rxHolds {u : UartBuffer} {q : List UInt8} (h : u.RxHolds q) :
    u.getChar.1 = q.headD 0 ∧ u.getChar.2.RxHolds q.tail := by
  cases q with
  | nil =>
    have he : u.rxIn = u.rxOut := h.ring.in_eq_out_iff.mpr rfl
    rw [getChar_empty ((rxReady_eq_zero_iff u).mpr he)]
    exact ⟨rfl, h⟩
  | cons a q =>
    have hne : u.rxIn ≠ u.rxOut := fun he => absurd (h.ring.in_eq_out_iff.mp he) (by simp)
    rw [getChar_ready ((rxReady_eq_zero_iff u).not.mpr hne), h.ring.head]
    exact ⟨rfl, h.ring.pop, by simp [h.taken_eq]⟩

/-! ## Counting the received bytes -/

/-- More received bytes are unread than the receive ring can hold. -/
def Overflowed (u : UartBuffer) : Prop := u.got.length + 255 < u.taken.length

/-- The indices of the receive ring count the bytes taken in and returned, and it holds the unread ones unless it has
overflowed. -/
structure Receives (u : UartBuffer) : Prop where
  rxIn : u.rxIn = u.taken.length % bufferSize
  rxOut : u.rxOut = u.got.length % bufferSize
  held : u.Overflowed ∨ ∃ q, u.RxHolds q

theorem init_receives : init.Receives := ⟨rfl, rfl, Or.inr ⟨[], init_rxHolds⟩⟩

/-- The halves that work on the transmit ring leave the receive ring as it is. -/
theorem Receives.congr {u v : UartBuffer} (h : u.Receives) (he : (v.rxBuffer, v.rxIn, v.rxOut) = (u.rxBuffer, u.rxIn, u.rxOut))
    (hl : (v.taken, v.got) = (u.taken, u.got)) : v.Receives := by
  have hring : ∀ q, u.RxHolds q → v.RxHolds q := fun q hq => hq.congr he hl
  simp only [Prod.mk.injEq] at he hl
  obtain ⟨-, hi, ho⟩ := he
  obtain ⟨ht, hg⟩ := hl
  refine ⟨by rw [hi, ht, h.rxIn], by rw [ho, hg, h.rxOut], ?_⟩
  rw [Overflowed, ht, hg]
  exact h.held.imp_right fun ⟨q, hq⟩ => ⟨q, hring q hq⟩

theorem Receives.transmit {u : UartBuffer} (h : u.Receives) (txbufe : Bool) : (u.transmit txbufe).Receives := by
  unfold UartBuffer.transmit
  split
  · exact h.congr rfl rfl
  · exact h

theorem Receives.store {u : UartBuffer} (h : u.Receives) (c : UInt8) : (u.store c).Receives := by
  unfold UartBuffer.store
  dsimp only
  split
  · exact h.congr rfl rfl
  · exact h.congr rfl rfl

/-- A byte received behind 255 unread ones is the overflow, and there is no way back from it. -/
theorem Receives.receive {u : UartBuffer} (h : u.Receives) (rx : Option UInt8) : (u.receive rx).Receives := by
  cases rx with
  | none => exact h
  | some c =>
    refine ⟨?_, h.rxOut, ?_⟩
    · simp [UartBuffer.receive, h.rxIn, bufferSize]
    · rcases h.held with ho | ⟨q, hq⟩
      · refine Or.inl ?_
        simp only [Overflowed, UartBuffer.receive, List.length_append, List.length_singleton] at ho ⊢
        omega
      · have hroom : q.length < 256 := hq.ring.room
        rcases Nat.lt_or_ge q.length 255 with hlt | hge
        · exact Or.inr ⟨q ++ [c], receive_rxHolds hq hlt c⟩
        · refine Or.inl ?_
          simp only [Overflowed, UartBuffer.receive, hq.taken_eq, List.length_append, List.length_singleton]
          omega

/-- Behind an overflow, bytes are only read until the unread ones fill the ring exactly. -/
theorem Receives.getChar {u : UartBuffer} (h : u.Receives) : u.getChar.2.Receives := by
  by_cases hr : u.rxReady = 0
  · rw [getChar_empty hr]
    exact h
  · have hring : ∀ q, u.RxHolds q → u.getChar.2.RxHolds q.tail := fun q hq => (getChar_rxHolds hq).2
    have hne := (rxReady_eq_zero_iff u).not.mp hr
    have hin := h.rxIn
    have hout := h.rxOut
    rw [getChar_ready hr] at hring ⊢
    refine ⟨h.rxIn, by simp [hout, bufferSize], ?_⟩
    rcases h.held with ho | ⟨q, hq⟩
    · refine Or.inl ?_
      simp only [Overflowed, List.length_append, List.length_singleton, bufferSize] at ho hin hout ⊢
      omega
    · exact Or.inr ⟨q.tail, hring q hq⟩

end UartBuffer

end PowerMonitor
