import PowerMonitor.Firmware.UartHandler
import PowerMonitor.Lemmas.UartBuffer
import PowerMonitor.Lib.Monitor

/-!
# The direct call and its interrupt

Run without the handler in between, the direct call does what the handler does. With the handler in between, both rings keep their
order as long as the handler stays out of two windows: between the test of `TxOut` and `TxOut++` it hands over no byte that the
direct call is about to hand over or has handed over, and between the test of US_RHR and `RxIn++` it takes no byte.
-/

namespace PowerMonitor

/-- Each byte taken in has its own cell of `RxBuffer`, in order: the last 256 are there. -/
def UartBuffer.OwnCells (u : UartBuffer) : Prop :=
  ∀ k, k < u.taken.length → u.taken.length ≤ k + bufferSize → u.taken[k]? = some (u.rxBuffer (k % bufferSize))

namespace Preempted

open UartBuffer

/-- The byte that the direct call has read from US_RHR and not stored yet. -/
def holding (s : Preempted) : List UInt8 :=
  match s.next with
  | .keep c => [c]
  | _ => []

/-- What both callers rely on. Bytes are handed over once and in order, and all of them before the ring is empty; `TxOut++` does
not pass `TxIn`; the bytes read from US_RHR are stored once and in order, each in the next cell; the direct call does not wait
in `usart_getchar` for a byte that is gone. -/
structure Law (s : Preempted) : Prop where
  inOrder : s.uart.sent <+: s.uart.accepted
  noLoss : s.uart.txIn = s.uart.txOut → s.uart.sent = s.uart.accepted
  notPassed : s.next = .nextOut → s.uart.txOut ≠ s.uart.txIn
  stored : s.received = s.uart.taken ++ s.holding
  ownCells : s.uart.OwnCells
  nextCell : s.next ≠ .nextIn → s.uart.rxIn = s.uart.taken.length % bufferSize
  noWait : s.next = .usartGetchar → s.rhr.isSome

/-- The step stays out of the windows: the handler does not hand over the only byte that the direct call has found pending, nor
any byte before `TxOut++`; it takes no byte between the test of US_RHR and `RxIn++`; and `UartBuffer_PutChar` finds fewer than
255 bytes pending. -/
def Clear (s : Preempted) : UartStep → Prop
  | .handler txbufe =>
    (s.next = .usartPutchar → txbufe = true → (s.uart.txOut + 1) % bufferSize ≠ s.uart.txIn) ∧
      (s.next = .nextOut → txbufe = false) ∧
      (s.next = .usartGetchar ∨ s.next = .nextIn ∨ s.holding ≠ [] → s.rhr = none)
  | .putChar _ _ => s.next = .getStatus → (s.uart.txIn + 1) % bufferSize ≠ s.uart.txOut
  | _ => True

instance (s : Preempted) : ∀ e, Decidable (s.Clear e)
  | .handler txbufe => inferInstanceAs (Decidable ((s.next = .usartPutchar → txbufe = true →
      (s.uart.txOut + 1) % bufferSize ≠ s.uart.txIn) ∧ (s.next = .nextOut → txbufe = false) ∧
      (s.next = .usartGetchar ∨ s.next = .nextIn ∨ s.holding ≠ [] → s.rhr = none)))
  | .putChar _ _ => inferInstanceAs (Decidable (s.next = .getStatus → (s.uart.txIn + 1) % bufferSize ≠ s.uart.txOut))
  | .arrive _ => inferInstanceAs (Decidable True)
  | .direct _ => inferInstanceAs (Decidable True)
  | .getChar => inferInstanceAs (Decidable True)

/-- The runs whose steps stay out of the windows. -/
def windows : Monitor UartStep Preempted := { next := step, Allows := Clear }

instance (s : Preempted) (e : UartStep) : Decidable (windows.Allows s e) := inferInstanceAs (Decidable (s.Clear e))

/-- The transmit ring holds `q`; between `usart_putchar` and `TxOut++` the oldest byte of it has been handed over. -/
structure TxKept (s : Preempted) (q : List UInt8) : Prop where
  ring : Ring.Holds bufferSize s.uart.txBuffer s.uart.txIn s.uart.txOut q
  accepted_eq : s.uart.accepted = s.uart.sent ++ if s.next = .nextOut then q.tail else q
  pending : s.next = .usartPutchar ∨ s.next = .nextOut → q ≠ []

/-- The bytes read are in their cells; between the store and `RxIn++` the index is one behind. -/
structure RxKept (s : Preempted) : Prop where
  stored : s.received = s.uart.taken ++ s.holding
  ownCells : s.uart.OwnCells
  behind : if s.next = .nextIn then s.uart.taken ≠ [] ∧ s.uart.rxIn = (s.uart.taken.length - 1) % bufferSize
    else s.uart.rxIn = s.uart.taken.length % bufferSize
  noWait : s.next = .usartGetchar → s.rhr.isSome

/-- What every step outside the windows keeps. -/
def Kept (s : Preempted) : Prop := (∃ q, s.TxKept q) ∧ s.RxKept

/-! ## The direct call alone -/

/-- The statements that transmit, up to the test of US_RHR. -/
theorem direct_transmits (s : Preempted) (txbufe : Bool) (h : s.next = .getStatus) :
    ∃ n, (List.replicate n (UartStep.direct txbufe)).foldl step s =
      { s with uart := s.uart.transmit txbufe, ulStatus := txbufe, next := .testRxReady } := by
  cases txbufe with
  | false => exact ⟨2, by simp [step, direct, h, List.replicate]⟩
  | true =>
    by_cases hp : s.uart.txOut = s.uart.txIn
    · exact ⟨3, by simp [step, direct, h, hp, UartBuffer.transmit, List.replicate]⟩
    · exact ⟨5, by simp [step, direct, h, hp, UartBuffer.transmit, List.replicate]⟩

/-- The statements that receive. -/
theorem direct_receives (s : Preempted) (txbufe : Bool) (h : s.next = .testRxReady) :
    ∃ n, (List.replicate n (UartStep.direct txbufe)).foldl step s =
      { s with uart := s.uart.receive s.rhr, rhr := none, next := .getStatus, received := s.received ++ s.rhr.toList } := by
  cases hr : s.rhr with
  | none => exact ⟨1, by simp [step, direct, h, hr, UartBuffer.receive, List.replicate]⟩
  | some c => exact ⟨4, by simp [step, direct, h, hr, UartBuffer.receive, List.replicate]⟩

/-- With no handler between its statements the direct call does what the handler does. -/
theorem direct_uninterrupted (s : Preempted) (txbufe : Bool) (h : s.next = .getStatus) :
    ∃ n, (List.replicate n (UartStep.direct txbufe)).foldl step s = s.step (.handler txbufe) := by
  obtain ⟨n, hn⟩ := direct_transmits s txbufe h
  obtain ⟨m, hm⟩ := direct_receives { s with uart := s.uart.transmit txbufe, ulStatus := txbufe, next := .testRxReady } txbufe rfl
  refine ⟨n + m, ?_⟩
  rw [List.replicate_add, List.foldl_append, hn, hm]
  simp [step, whole, UartBuffer.interrupt, usart, h]

/-! ## The transmit ring -/

/-- The receiving half leaves the transmit ring as it is. -/
theorem TxKept.receive {s t : Preempted} {q : List UInt8} (h : s.TxKept q) (rx : Option UInt8) (hn : t.next = s.next)
    (hu : t.uart = s.uart.receive rx) : t.TxKept q := by
  obtain ⟨hring, hacc, hpend⟩ := h
  refine ⟨?_, ?_, by rw [hn]; exact hpend⟩
  · rw [hu]
    cases rx <;> exact hring
  · rw [hn, hu, receive_accepted, receive_sent, hacc]

/-- Statements outside the transmitting part leave the transmit ring as it is. -/
theorem TxKept.congr {s t : Preempted} {q : List UInt8} (h : s.TxKept q)
    (he : (t.uart.txBuffer, t.uart.txIn, t.uart.txOut) = (s.uart.txBuffer, s.uart.txIn, s.uart.txOut))
    (hl : (t.uart.accepted, t.uart.sent) = (s.uart.accepted, s.uart.sent)) (hs : s.next ≠ .nextOut)
    (ht : t.next ≠ .nextOut ∧ t.next ≠ .usartPutchar) : t.TxKept q := by
  simp only [Prod.mk.injEq] at he hl
  obtain ⟨hb, hi, ho⟩ := he
  obtain ⟨hring, hacc, -⟩ := h
  rw [if_neg hs] at hacc
  refine ⟨by rw [hb, hi, ho]; exact hring, by rw [if_neg ht.1, hl.1, hl.2, hacc], ?_⟩
  rintro (hp | hp)
  · exact absurd hp ht.2
  · exact absurd hp ht.1

/-- A call of `UartBuffer_Interrupt` that runs to its end takes the oldest byte of the ring, or none. -/
theorem TxKept.whole {s : Preempted} {q : List UInt8} (h : s.TxKept q) (txbufe : Bool)
    (hone : s.next = .usartPutchar → txbufe = true → (s.uart.txOut + 1) % bufferSize ≠ s.uart.txIn)
    (hout : s.next = .nextOut → txbufe = false) :
    ∃ q', (s.whole txbufe (s.uart.interrupt (s.usart txbufe))).TxKept q' := by
  have key : ∃ q', ({ s with uart := s.uart.transmit txbufe } : Preempted).TxKept q' := by
    cases txbufe with
    | false => exact ⟨q, by rw [transmit_false]; exact h⟩
    | true =>
      have hno : s.next ≠ .nextOut := fun hn => absurd (hout hn) (by decide)
      obtain ⟨hring, hacc, hpend⟩ := h
      rw [if_neg hno] at hacc
      cases q with
      | nil =>
        rw [transmit_nil hring]
        exact ⟨[], hring, by rw [if_neg hno, hacc], fun hp => absurd rfl (hpend hp)⟩
      | cons a q =>
        rw [transmit_cons hring]
        refine ⟨q, hring.pop, by simp [hno, hacc], ?_⟩
        rintro (hp | hp)
        · have h1 := mt (hring.next_out_iff (by decide)).mpr (hone hp rfl)
          rintro rfl
          exact h1 rfl
        · exact absurd hp hno
  obtain ⟨q', hq'⟩ := key
  exact ⟨q', hq'.receive s.rhr rfl rfl⟩

/-- A byte that is refused changes nothing; one that is stored with room to spare joins the queue. -/
theorem TxKept.store {s : Preempted} {q : List UInt8} (h : s.TxKept q) (hidle : s.next = .getStatus)
    (hroom : (s.uart.txIn + 1) % bufferSize ≠ s.uart.txOut) (c : UInt8) :
    ∃ q', ({ s with uart := s.uart.store c } : Preempted).TxKept q' := by
  obtain ⟨hring, hacc, -⟩ := h
  simp only [hidle, reduceCtorEq, if_false] at hacc
  have hlen : q.length + 1 < bufferSize := by
    have hlt := hring.room
    have hne := mt hring.next_in_iff.mpr hroom
    omega
  by_cases hr : s.uart.txOut + 1 = s.uart.txIn
  · refine ⟨q, ?_, ?_, by simp [hidle]⟩
    · simpa [UartBuffer.store, hr] using hring
    · simpa [UartBuffer.store, hr, hidle] using hacc
  · refine ⟨q ++ [c], ?_, ?_, by simp [hidle]⟩
    · simpa [UartBuffer.store, hr] using hring.push hlen c
    · simp [UartBuffer.store, hr, hidle, hacc]

/-- Step lemma for the direct call: what it has found pending it hands over, and what it has handed over it takes from the
ring. -/
theorem TxKept.direct {s : Preempted} {q : List UInt8} (h : s.TxKept q) (txbufe : Bool) :
    ∃ q', (s.direct txbufe).TxKept q' := by
  cases hn : s.next with
  | testPending =>
    obtain ⟨hring, hacc, -⟩ := h
    by_cases hp : s.uart.txOut = s.uart.txIn
    · exact ⟨q, by simpa [Preempted.direct, hn] using hring, by simpa [Preempted.direct, hn, hp] using hacc,
        by simp [Preempted.direct, hn, hp]⟩
    · exact ⟨q, by simpa [Preempted.direct, hn] using hring, by simpa [Preempted.direct, hn, hp] using hacc,
        fun _ => mt hring.in_eq_out_iff.mpr (Ne.symm hp)⟩
  | usartPutchar =>
    obtain ⟨hring, hacc, hpend⟩ := h
    obtain ⟨a, q, rfl⟩ := List.exists_cons_of_ne_nil (hpend (Or.inl hn))
    refine ⟨a :: q, by simpa [Preempted.direct, hn] using hring, ?_, by simp⟩
    simp [Preempted.direct, hn, hacc, hring.head]
  | nextOut =>
    obtain ⟨hring, hacc, hpend⟩ := h
    obtain ⟨a, q, rfl⟩ := List.exists_cons_of_ne_nil (hpend (Or.inr hn))
    refine ⟨q, by simpa [Preempted.direct, hn] using hring.pop, ?_, by simp [Preempted.direct, hn]⟩
    simp [Preempted.direct, hn, hacc]
  | getStatus => exact ⟨q, h.congr (by simp [Preempted.direct, hn]) (by simp [Preempted.direct, hn]) (by simp [hn])
    (by simp [Preempted.direct, hn])⟩
  | testTxbufe =>
    refine ⟨q, h.congr (by simp [Preempted.direct, hn]) (by simp [Preempted.direct, hn]) (by simp [hn]) ?_⟩
    cases hst : s.ulStatus <;> simp [Preempted.direct, hn, hst]
  | testRxReady =>
    refine ⟨q, h.congr (by simp [Preempted.direct, hn]) (by simp [Preempted.direct, hn]) (by simp [hn]) ?_⟩
    cases hr : s.rhr <;> simp [Preempted.direct, hn, hr]
  | usartGetchar =>
    cases hr : s.rhr with
    | none => exact ⟨q, by simpa [Preempted.direct, hn, hr] using h⟩
    | some c =>
      exact ⟨q, h.congr (by simp [Preempted.direct, hn, hr]) (by simp [Preempted.direct, hn, hr]) (by simp [hn])
        (by simp [Preempted.direct, hn, hr])⟩
  | keep c => exact ⟨q, h.congr (by simp [Preempted.direct, hn]) (by simp [Preempted.direct, hn]) (by simp [hn])
    (by simp [Preempted.direct, hn])⟩
  | nextIn => exact ⟨q, h.congr (by simp [Preempted.direct, hn]) (by simp [Preempted.direct, hn]) (by simp [hn])
    (by simp [Preempted.direct, hn])⟩

/-! ## The receive ring -/

/-- The cells of the receive ring, the index of the next one and the bytes stored are those of `u`. -/
def SameCells (u v : UartBuffer) : Prop := v.rxBuffer = u.rxBuffer ∧ v.rxIn = u.rxIn ∧ v.taken = u.taken

theorem transmit_sameCells (u : UartBuffer) (txbufe : Bool) : SameCells u (u.transmit txbufe) := by
  unfold UartBuffer.transmit
  split <;> exact ⟨rfl, rfl, rfl⟩

theorem store_sameCells (u : UartBuffer) (c : UInt8) : SameCells u (u.store c) := by
  unfold UartBuffer.store
  dsimp only
  split <;> exact ⟨rfl, rfl, rfl⟩

theorem getChar_sameCells (u : UartBuffer) : SameCells u u.getChar.2 := by
  unfold UartBuffer.getChar
  split <;> exact ⟨rfl, rfl, rfl⟩

theorem ownCells_congr {u v : UartBuffer} (h : u.OwnCells) (hb : v.rxBuffer = u.rxBuffer) (ht : v.taken = u.taken) :
    v.OwnCells := by
  intro k
  rw [ht, hb]
  exact h k

/-- A byte stored in the next cell leaves the others. -/
theorem ownCells_store {u : UartBuffer} (h : u.OwnCells) {i : Nat} (hi : i = u.taken.length % bufferSize)
    (c : UInt8) (rxIn : Nat) :
    ({ u with rxBuffer := Function.update u.rxBuffer i c, rxIn, taken := u.taken ++ [c] } : UartBuffer).OwnCells := by
  intro k hk hlast
  simp only [List.length_append, List.length_singleton] at hk hlast ⊢
  rcases Nat.lt_or_ge k u.taken.length with hlt | hge
  · have hne : k % bufferSize ≠ i := by
      simp only [bufferSize] at hi hlast ⊢
      omega
    rw [List.getElem?_append_left hlt, Function.update_of_ne hne]
    exact h k hlt (by omega)
  · obtain rfl : k = u.taken.length := by omega
    rw [hi, Function.update_self, List.getElem?_concat_length]

/-- Statements outside the receiving part leave the receive ring as it is. -/
theorem RxKept.congr {s t : Preempted} (h : s.RxKept) (hu : SameCells s.uart t.uart) (hr : t.received = s.received)
    (hh : t.holding = s.holding) (hn : t.next = .nextIn ↔ s.next = .nextIn) (hw : t.next = .usartGetchar → t.rhr.isSome) :
    t.RxKept := by
  obtain ⟨hb, hi, ht⟩ := hu
  obtain ⟨hst, hown, hbe, -⟩ := h
  refine ⟨by rw [hr, ht, hh, hst], ownCells_congr hown hb ht, ?_, hw⟩
  simp only [hn, ht, hi]
  exact hbe

/-- A call of `UartBuffer_Interrupt` that runs to its end takes the byte in US_RHR. -/
theorem RxKept.whole {s : Preempted} (h : s.RxKept) (txbufe : Bool) {u : UartBuffer} (hu : SameCells s.uart u)
    (hclear : s.next = .usartGetchar ∨ s.next = .nextIn ∨ s.holding ≠ [] → s.rhr = none) :
    (s.whole txbufe (u.receive s.rhr)).RxKept := by
  cases hr : s.rhr with
  | none =>
    refine h.congr hu (by simp [Preempted.whole, hr]) rfl Iff.rfl fun hn => ?_
    exact absurd (h.noWait hn) (by simp [hr])
  | some c =>
    have hout : ¬ (s.next = .usartGetchar ∨ s.next = .nextIn ∨ s.holding ≠ []) := fun ho => by simp [hclear ho] at hr
    rw [not_or, not_or, not_not] at hout
    obtain ⟨hg, hi, hh⟩ := hout
    obtain ⟨hb, hin, ht⟩ := hu
    obtain ⟨hst, hown, hbe, -⟩ := h
    rw [if_neg hi] at hbe
    refine ⟨?_, ownCells_store (ownCells_congr hown hb ht) (by rw [hin, ht, hbe]) c _, ?_, fun hn => absurd hn hg⟩
    · have hh' : (s.whole txbufe (u.receive (some c))).holding = [] := hh
      rw [hh', List.append_nil]
      simp [Preempted.whole, UartBuffer.receive, hr, hst, hh, ht]
    · have hi' : (s.whole txbufe (u.receive (some c))).next ≠ .nextIn := hi
      rw [if_neg hi']
      simp [Preempted.whole, UartBuffer.receive, hin, ht, hbe, bufferSize]

/-- The direct call reads the byte it has found. -/
theorem RxKept.takes {s : Preempted} (h : s.RxKept) (hn : s.next = .usartGetchar) (txbufe : Bool) : (s.direct txbufe).RxKept := by
  obtain ⟨c, hc⟩ := Option.isSome_iff_exists.mp (h.noWait hn)
  obtain ⟨hst, hown, hbe, -⟩ := h
  have hd : s.direct txbufe = { s with rhr := none, received := s.received ++ [c], next := .keep c } := by
    simp [Preempted.direct, hn, hc]
  rw [hd]
  refine ⟨?_, hown, ?_, by simp⟩
  · simpa [holding, hn] using hst
  · simpa [hn] using hbe

/-- It stores the byte in the next cell. -/
theorem RxKept.stores {s : Preempted} (h : s.RxKept) {c : UInt8} (hn : s.next = .keep c) (txbufe : Bool) :
    (s.direct txbufe).RxKept := by
  obtain ⟨hst, hown, hbe, -⟩ := h
  simp only [hn, reduceCtorEq, if_false] at hbe
  have hd : s.direct txbufe = { s with
      uart := { s.uart with rxBuffer := Function.update s.uart.rxBuffer s.uart.rxIn c, taken := s.uart.taken ++ [c] }
      next := .nextIn } := by simp [Preempted.direct, hn]
  rw [hd]
  refine ⟨?_, ownCells_store hown hbe c s.uart.rxIn, ?_, by simp⟩
  · simpa [holding, hn] using hst
  · simpa using hbe

/-- It counts the byte. -/
theorem RxKept.advances {s : Preempted} (h : s.RxKept) (hn : s.next = .nextIn) (txbufe : Bool) : (s.direct txbufe).RxKept := by
  obtain ⟨hst, hown, hbe, -⟩ := h
  simp only [hn, if_true] at hbe
  obtain ⟨hne, hbe⟩ := hbe
  have hpos := List.length_pos_iff.mpr hne
  have hd : s.direct txbufe = { s with
      uart := { s.uart with rxIn := (s.uart.rxIn + 1) % bufferSize }, next := .getStatus } := by simp [Preempted.direct, hn]
  rw [hd]
  refine ⟨?_, ownCells_congr hown rfl rfl, ?_, by simp⟩
  · simpa [holding, hn] using hst
  · simp only [reduceCtorEq, if_false, hbe, bufferSize]
    omega

/-- Step lemma for the direct call: the byte it has found it reads, stores in the next cell, and counts. -/
theorem RxKept.direct {s : Preempted} (h : s.RxKept) (txbufe : Bool) : (s.direct txbufe).RxKept := by
  cases hn : s.next with
  | getStatus =>
    have hd : s.direct txbufe = { s with ulStatus := txbufe, next := .testTxbufe } := by simp [Preempted.direct, hn]
    rw [hd]
    exact h.congr ⟨rfl, rfl, rfl⟩ rfl (by simp [holding, hn]) (by simp [hn]) (by simp)
  | testTxbufe =>
    have hd : s.direct txbufe = { s with next := if s.ulStatus then .testPending else .testRxReady } := by
      simp [Preempted.direct, hn]
    rw [hd]
    cases hst : s.ulStatus <;> exact h.congr ⟨rfl, rfl, rfl⟩ rfl (by simp [holding, hn]) (by simp [hn]) (by simp)
  | testPending =>
    by_cases hp : s.uart.txOut = s.uart.txIn
    · have hd : s.direct txbufe = { s with next := .testRxReady } := by simp [Preempted.direct, hn, hp]
      rw [hd]
      exact h.congr ⟨rfl, rfl, rfl⟩ rfl (by simp [holding, hn]) (by simp [hn]) (by simp)
    · have hd : s.direct txbufe = { s with next := .usartPutchar } := by simp [Preempted.direct, hn, hp]
      rw [hd]
      exact h.congr ⟨rfl, rfl, rfl⟩ rfl (by simp [holding, hn]) (by simp [hn]) (by simp)
  | usartPutchar =>
    refine h.congr ?_ ?_ ?_ ?_ ?_ <;> simp [Preempted.direct, holding, hn, SameCells]
  | nextOut =>
    refine h.congr ?_ ?_ ?_ ?_ ?_ <;> simp [Preempted.direct, holding, hn, SameCells]
  | testRxReady =>
    cases hr : s.rhr with
    | none =>
      have hd : s.direct txbufe = { s with next := .getStatus } := by simp [Preempted.direct, hn, hr]
      rw [hd]
      exact h.congr ⟨rfl, rfl, rfl⟩ rfl (by simp [holding, hn]) (by simp [hn]) (by simp)
    | some c =>
      have hd : s.direct txbufe = { s with next := .usartGetchar } := by simp [Preempted.direct, hn, hr]
      rw [hd]
      exact h.congr ⟨rfl, rfl, rfl⟩ rfl (by simp [holding, hn]) (by simp [hn]) fun _ => by simp [hr]
  | usartGetchar => exact h.takes hn txbufe
  | keep c => exact h.stores hn txbufe
  | nextIn => exact h.advances hn txbufe

/-! ## Runs -/

theorem init_kept : init.Kept :=
  ⟨⟨[], Ring.Holds.empty (by decide), rfl, by simp [init]⟩, rfl, fun k hk => absurd hk (Nat.not_lt_zero k), rfl, by simp [init]⟩

/-- Step lemma. -/
theorem Kept.step {s : Preempted} (h : s.Kept) {e : UartStep} (hc : s.Clear e) : (s.step e).Kept := by
  obtain ⟨⟨q, htx⟩, hrx⟩ := h
  cases e with
  | arrive c => exact ⟨⟨q, htx.receive none rfl rfl⟩, hrx.congr ⟨rfl, rfl, rfl⟩ rfl rfl Iff.rfl fun _ => rfl⟩
  | handler txbufe =>
    obtain ⟨hone, hout, hwin⟩ := hc
    exact ⟨htx.whole txbufe hone hout, hrx.whole txbufe (transmit_sameCells _ _) hwin⟩
  | direct txbufe => exact ⟨htx.direct txbufe, hrx.direct txbufe⟩
  | putChar txbufe c =>
    by_cases hidle : s.next = .getStatus
    · obtain ⟨q', hq'⟩ := htx.store hidle (hc hidle) c
      have hs : s.step (.putChar txbufe c) = s.whole txbufe (s.uart.putChar (s.usart txbufe) c) := if_pos hidle
      have hsame : SameCells s.uart ((s.uart.store c).transmit txbufe) := by
        obtain ⟨hb, hi, ht⟩ := transmit_sameCells (s.uart.store c) txbufe
        obtain ⟨hb', hi', ht'⟩ := store_sameCells s.uart c
        exact ⟨hb.trans hb', hi.trans hi', ht.trans ht'⟩
      rw [hs]
      refine ⟨hq'.whole txbufe (fun hn => ?_) (fun hn => ?_), hrx.whole txbufe hsame (fun hn => ?_)⟩
      · simp [hidle] at hn
      · simp [hidle] at hn
      · simp [hidle, holding] at hn
    · rw [show s.step (.putChar txbufe c) = s from if_neg hidle]
      exact ⟨⟨q, htx⟩, hrx⟩
  | getChar =>
    by_cases hidle : s.next = .getStatus
    · rw [show s.step .getChar = { s with uart := s.uart.getChar.2 } from if_pos hidle]
      refine ⟨⟨q, htx.congr ?_ ?_ (by simp [hidle]) (by simp [hidle])⟩,
        hrx.congr (getChar_sameCells _) rfl rfl Iff.rfl (by simp [hidle])⟩
      · unfold UartBuffer.getChar
        split <;> rfl
      · unfold UartBuffer.getChar
        split <;> rfl
    · rw [show s.step .getChar = s from if_neg hidle]
      exact ⟨⟨q, htx⟩, hrx⟩

/-- What is kept is the law. -/
theorem Kept.law {s : Preempted} (h : s.Kept) : s.Law := by
  obtain ⟨⟨q, hring, hacc, hpend⟩, hst, hown, hbe, hw⟩ := h
  refine ⟨⟨_, hacc.symm⟩, ?_, ?_, hst, hown, fun hn => ?_, hw⟩
  · intro he
    obtain rfl := hring.in_eq_out_iff.mp he
    simpa using hacc.symm
  · intro hn he
    exact hpend (Or.inr hn) (hring.in_eq_out_iff.mp he.symm)
  · rwa [if_neg hn] at hbe

end Preempted

open Preempted

/-- In every run whose steps stay out of the windows, whatever else the handler does between the statements of the direct call,
every state keeps the order of both rings. -/
theorem preempted_law (steps : List UartStep) (h : windows.Safe .init steps) : ∀ pre, pre <+: steps → (runAll pre).Law :=
  fun _ hp => ((h.of_prefix windows hp).keeps windows (fun _ _ hk hc => hk.step hc) init_kept).law

/-- The handler hands over the second of two bytes and takes a received one while the direct call is under way. -/
theorem preempted_law_two_bytes : (runAll [.putChar true 0x41, .putChar false 0x42, .direct true, .arrive 0x78,
    .handler true, .direct true, .direct true, .direct true]).Law :=
  preempted_law _ (by decide +kernel) _ (List.prefix_refl _)

/-- The handler comes between `usart_putchar` and `TxOut++`: the only pending byte is handed over twice and `TxOut` passes
`TxIn`. It comes between the test of US_RHR and `usart_getchar`: the direct call waits for a byte that is gone. -/
theorem preempted_twice :
    let s := runAll [.putChar false 0x41, .direct true, .direct true, .direct true, .direct true, .handler true]
    let t := runAll [.direct false, .direct false, .arrive 0x78, .direct false, .handler false]
    (s.uart.accepted = [0x41] ∧ s.uart.sent = [0x41, 0x41] ∧ s.next = .nextOut ∧ s.uart.txOut = s.uart.txIn ∧ ¬ s.Law) ∧
      (t.next = .usartGetchar ∧ t.rhr = none ∧ t.uart.taken = [0x78] ∧ t.step (.direct false) = t ∧ ¬ t.Law) := by
  refine ⟨⟨by decide, by decide, by decide, by decide, fun law => ?_⟩, by decide, by decide, by decide, rfl, fun law => ?_⟩
  · exact absurd (law.notPassed (by decide)) (by decide)
  · exact absurd (law.noWait (by decide)) (by decide)

end PowerMonitor
