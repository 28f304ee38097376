import PowerMonitor.Lemmas.UartBuffer
import PowerMonitor.Lib.Monitor

/-!
# The serial rings as queues

A run is any sequence of `UartBuffer_PutChar`, `UartBuffer_Interrupt` and `UartBuffer_GetChar` calls; what the USART reports to
each call is part of the run. `UartBuffer_PutChar` takes its next index from `TxOut`, so it refuses a byte with one byte pending
and stores one with 255 pending; `UartBuffer_Interrupt` has no fullness test. Each ring is a queue in exactly the runs that stay
clear of this, and which these are is told by counting.
-/

namespace PowerMonitor

/-- A call of the serial interface. -/
inductive UartOp where
  | putChar (usart : UsartIn) (c : UInt8)
  | interrupt (usart : UsartIn)
  | getChar
  deriving DecidableEq, Repr

/-- What a queue without a bound would have handed over and would still have pending. -/
structure TxCount where
  sent : Nat
  pending : Nat
  deriving DecidableEq, Repr

namespace TxCount

/-- The USART takes a byte of the queue. -/
def transmit (txbufe : Bool) (n : TxCount) : TxCount :=
  if txbufe = true ∧ 0 < n.pending then { sent := n.sent + 1, pending := n.pending - 1 } else n

/-- At most 255 bytes are pending, one byte only where `TxOut` is 255, and 255 bytes only where `TxOut` is 0. -/
def Safe (n : TxCount) : Prop :=
  n.pending ≤ 255 ∧ (n.pending = 1 → n.sent % bufferSize = 255) ∧ (n.pending = 255 → n.sent % bufferSize = 0)

end TxCount

namespace UartOp

/-- The call on a state; the byte of `UartBuffer_GetChar` is dropped. -/
def run : UartOp → UartBuffer → UartBuffer
  | .putChar usart c, u => u.putChar usart c
  | .interrupt usart, u => u.interrupt usart
  | .getChar, u => u.getChar.2

/-- The state after a run. -/
def runAll (ops : List UartOp) : UartBuffer := ops.foldl (fun u op => op.run u) .init

/-- The call on the counts of the transmit queue. -/
def countTx : UartOp → TxCount → TxCount
  | .putChar usart _, n => ({ n with pending := n.pending + 1 } : TxCount).transmit usart.txbufe
  | .interrupt usart, n => n.transmit usart.txbufe
  | .getChar, n => n

/-- The counts of the transmit queue after a run. -/
def txCount (ops : List UartOp) : TxCount := ops.foldl (fun n op => op.countTx n) { sent := 0, pending := 0 }

/-- The call takes in a received byte. -/
def receives : UartOp → Bool
  | .putChar usart _ => usart.rx.isSome
  | .interrupt usart => usart.rx.isSome
  | .getChar => false

/-- The call on the number of unread bytes. -/
def countRx : UartOp → Nat → Nat
  | .getChar, n => n - 1
  | op, n => if op.receives then n + 1 else n

/-- The number of received bytes a run leaves unread. -/
def unread (ops : List UartOp) : Nat := ops.foldl (fun n op => op.countRx n) 0

theorem runAll_snoc (ops : List UartOp) (op : UartOp) : runAll (ops ++ [op]) = op.run (runAll ops) := by
  simp [runAll]

theorem txCount_snoc (ops : List UartOp) (op : UartOp) : txCount (ops ++ [op]) = op.countTx (txCount ops) := by
  simp [txCount]

theorem unread_snoc (ops : List UartOp) (op : UartOp) : unread (ops ++ [op]) = op.countRx (unread ops) := by
  simp [unread]

end UartOp

/-- What a sender relies on. The bytes handed to the USART are a prefix of the bytes stored, and all of them once the ring is
empty; a byte is refused only with 255 pending; `UartBuffer_TxFull` tells when. -/
structure UartBuffer.TxLaw (u : UartBuffer) : Prop where
  inOrder : u.sent <+: u.accepted
  noLoss : u.txIn = u.txOut → u.sent = u.accepted
  refusal : u.Refuses → u.accepted.length = u.sent.length + 255
  full : u.txFull = 1 ↔ u.Refuses

/-- What a reader relies on. The bytes returned are received bytes, in order and without repetition; when
`UartBuffer_RxReady` returns 0 they are all of them. -/
structure UartBuffer.RxLaw (u : UartBuffer) : Prop where
  inOrder : u.got.Sublist u.taken
  complete : u.rxReady = 0 → u.got = u.taken

/-! ## Sending -/

namespace UartBuffer

/-- The transmit ring holds a queue with the given counts. -/
def TxTracks (u : UartBuffer) (n : TxCount) : Prop :=
  ∃ q, u.TxHolds q ∧ u.sent.length = n.sent ∧ q.length = n.pending

theorem TxTracks.out_eq {u : UartBuffer} {n : TxCount} (h : u.TxTracks n) : u.txOut = n.sent % bufferSize := by
  obtain ⟨q, hq, hs, -⟩ := h
  rw [hq.out_eq, hs]

/-- A store is refused where exactly one byte is pending, unless it is at the end of the ring. -/
theorem TxTracks.refuses_iff {u : UartBuffer} {n : TxCount} (h : u.TxTracks n) :
    u.Refuses ↔ n.pending = 1 ∧ n.sent % bufferSize ≠ 255 := by
  rw [← h.out_eq]
  obtain ⟨q, hq, -, hl⟩ := h
  rw [hq.refuses_iff, hl]

theorem TxTracks.txFull_iff {u : UartBuffer} {n : TxCount} (h : u.TxTracks n) :
    u.txFull = 1 ↔ n.pending = 255 ∧ n.sent % bufferSize ≠ 0 := by
  rw [← h.out_eq]
  obtain ⟨q, hq, -, hl⟩ := h
  rw [hq.txFull_iff, hl]

/-- Where the ring holds a queue, the sender's law is a matter of the counts. -/
theorem TxTracks.law_iff {u : UartBuffer} {n : TxCount} (h : u.TxTracks n) : u.TxLaw ↔ n.Safe := by
  have href := h.refuses_iff
  have hfull := h.txFull_iff
  obtain ⟨q, hq, hs, hl⟩ := h
  have hlen : u.accepted.length = u.sent.length + n.pending := by rw [hq.accepted_eq, List.length_append, hl]
  have hroom : n.pending < 256 := by
    have := hq.ring.room
    rwa [hl] at this
  constructor
  · intro law
    refine ⟨by omega, ?_, ?_⟩
    · intro h1
      by_contra hne
      have := law.refusal (href.mpr ⟨h1, hne⟩)
      omega
    · intro h255
      by_contra hne
      have := href.mp (law.full.mp (hfull.mpr ⟨h255, hne⟩))
      omega
  · rintro ⟨-, h1, h255⟩
    have hno : ¬ u.Refuses := fun hr => (href.mp hr).2 (h1 (href.mp hr).1)
    have hnf : ¬ u.txFull = 1 := fun hf => (hfull.mp hf).2 (h255 (hfull.mp hf).1)
    refine ⟨⟨q, hq.accepted_eq.symm⟩, ?_, fun hr => absurd hr hno, ⟨fun hf => absurd hf hnf, fun hr => absurd hr hno⟩⟩
    intro he
    rw [hq.accepted_eq, hq.ring.in_eq_out_iff.mp he, List.append_nil]

theorem init_txTracks : init.TxTracks { sent := 0, pending := 0 } := ⟨[], init_txHolds, rfl, rfl⟩

/-- A store with room to spare adds one pending byte. -/
theorem TxTracks.store {u : UartBuffer} {n : TxCount} (h : u.TxTracks n) (hs : n.Safe) (hlt : n.pending < 255)
    (c : UInt8) : (u.store c).TxTracks { n with pending := n.pending + 1 } := by
  have hne : u.txOut + 1 ≠ u.txIn := by
    rw [Ne, ← UartBuffer.refuses_iff, h.refuses_iff]
    rintro ⟨h1, hn⟩
    exact hn (hs.2.1 h1)
  obtain ⟨q, hq, hsent, hl⟩ := h
  refine ⟨q ++ [c], store_txHolds hq hne (by omega) c, ?_, by simp [hl]⟩
  simp [UartBuffer.store, hne, hsent]

theorem TxTracks.interrupt {u : UartBuffer} {n : TxCount} (h : u.TxTracks n) (usart : UsartIn) :
    (u.interrupt usart).TxTracks (n.transmit usart.txbufe) := by
  obtain ⟨q, hq, hsent, hl⟩ := h
  unfold UartBuffer.interrupt
  rcases Bool.eq_false_or_eq_true usart.txbufe with he | he
  · obtain ⟨ht, hts⟩ := transmit_txHolds hq
    rw [he]
    refine ⟨q.tail, receive_txHolds ht _, ?_, ?_⟩
    · rw [receive_sent, hts, List.length_append, List.length_take, hsent, hl]
      by_cases hp : 0 < n.pending
      · simp [TxCount.transmit, hp]
        omega
      · simp [TxCount.transmit, hp]
        omega
    · rw [List.length_tail, hl]
      by_cases hp : 0 < n.pending <;> simp [TxCount.transmit, hp]
      omega
  · rw [he, transmit_false]
    refine ⟨q, receive_txHolds hq _, ?_, ?_⟩
    · simpa [TxCount.transmit] using hsent
    · simpa [TxCount.transmit] using hl

/-- A byte stored behind 255 pending ones breaks the law: 256 bytes are then gone. -/
theorem TxTracks.overflow {u : UartBuffer} {n : TxCount} (h : u.TxTracks n) (hfull : n.pending = 255) (usart : UsartIn)
    (c : UInt8) : ¬ (u.putChar usart c).TxLaw := by
  have hnr : u.txOut + 1 ≠ u.txIn := by
    rw [Ne, ← UartBuffer.refuses_iff, h.refuses_iff]
    omega
  obtain ⟨q, hq, -, hl⟩ := h
  obtain ⟨he, hlen⟩ := store_overflow hq hnr (hl.trans hfull) c
  have ht : (u.store c).transmit usart.txbufe = u.store c := by simp [UartBuffer.transmit, he]
  intro law
  rw [UartBuffer.putChar, UartBuffer.interrupt, ht] at law
  have hloss := law.noLoss (by simpa using he)
  rw [receive_sent, receive_accepted] at hloss
  rw [← hloss] at hlen
  omega

end UartBuffer

namespace TxCount

theorem safe_overflow {n : TxCount} (hs : n.Safe) (hfull : n.pending = 255) (txbufe : Bool) :
    ¬ (({ n with pending := n.pending + 1 } : TxCount).transmit txbufe).Safe := by
  have h0 := hs.2.2 hfull
  simp only [bufferSize] at h0
  rintro ⟨hle, -, h255⟩
  cases txbufe with
  | false => simp [transmit, hfull] at hle
  | true =>
    have h1 := h255 (by simp [transmit, hfull])
    simp only [transmit, hfull, bufferSize, true_and, Nat.zero_lt_succ, if_true] at h1
    omega

end TxCount

namespace UartOp

/-- Step lemma: from a state where the ring holds a queue and the law holds, a call either keeps the queue, or overflows the
ring and breaks the law. -/
theorem run_tracks {u : UartBuffer} {n : TxCount} (h : u.TxTracks n) (hs : n.Safe) (op : UartOp) :
    (op.run u).TxTracks (op.countTx n) ∨ (¬ (op.run u).TxLaw ∧ ¬ (op.countTx n).Safe) := by
  cases op with
  | putChar usart c =>
    rcases Nat.lt_or_ge n.pending 255 with hlt | hge
    · exact Or.inl ((h.store hs hlt c).interrupt usart)
    · have hfull : n.pending = 255 := by have := hs.1; omega
      exact Or.inr ⟨h.overflow hfull usart c, TxCount.safe_overflow hs hfull _⟩
  | interrupt usart => exact Or.inl (h.interrupt usart)
  | getChar =>
    obtain ⟨q, hq, hsent, hl⟩ := h
    refine Or.inl ⟨q, UartBuffer.getChar_txHolds hq, ?_, hl⟩
    rw [← UartBuffer.getChar_sent] at hsent
    exact hsent

/-- Run lemma: while the counts stay safe the ring holds a queue with these counts. -/
theorem runAll_tracks (ops : List UartOp) :
    ((∀ pre, pre <+: ops → (runAll pre).TxLaw) ↔ ∀ pre, pre <+: ops → (txCount pre).Safe) ∧
      ((∀ pre, pre <+: ops → (txCount pre).Safe) → (runAll ops).TxTracks (txCount ops)) := by
  induction ops using List.reverseRecOn with
  | nil =>
    have ht : (runAll []).TxTracks (txCount []) := UartBuffer.init_txTracks
    refine ⟨?_, fun _ => ht⟩
    simp only [List.prefix_nil, forall_eq]
    exact ht.law_iff
  | append_singleton ops op ih =>
    obtain ⟨hiff, htracks⟩ := ih
    rw [forall_prefix_snoc, forall_prefix_snoc, hiff, runAll_snoc, txCount_snoc]
    by_cases hsafe : ∀ pre, pre <+: ops → (txCount pre).Safe
    · rcases run_tracks (htracks hsafe) (hsafe ops (List.prefix_refl ops)) op with ht | ⟨hlaw, hbad⟩
      · exact ⟨and_congr_right fun _ => ht.law_iff, fun _ => ht⟩
      · exact ⟨by simp [hlaw, hbad], fun h => absurd h.2 hbad⟩
    · exact ⟨by simp only [hsafe, false_and], fun h => absurd h.1 hsafe⟩

end UartOp

/-- The transmit ring is a loss-free queue with a truthful fullness test at every point of a run exactly when the counts of the
run stay safe: never more than 255 bytes pending, one byte only when the number of bytes handed over is 255 modulo 256, and 255
bytes only when it is 0 modulo 256. -/
theorem uart_transmit_queue_iff (ops : List UartOp) :
    (∀ pre, pre <+: ops → (UartOp.runAll pre).TxLaw) ↔ ∀ pre, pre <+: ops → (UartOp.txCount pre).Safe :=
  (UartOp.runAll_tracks ops).1

/-- While the USART takes no byte, the second of two bytes is refused with one byte pending, and `UartBuffer_TxFull` returns 0
before it. -/
theorem uart_transmit_refuses_second_byte :
    let u := UartOp.runAll [.putChar .quiet 0x41]
    let v := UartOp.runAll [.putChar .quiet 0x41, .putChar .quiet 0x42]
    u.txFull = 0 ∧ v.put = [0x41, 0x42] ∧ v.accepted = [0x41] ∧ v.sent = [] ∧ ¬ u.TxLaw := by
  refine ⟨by decide, by decide, by decide, by decide, ?_⟩
  intro law
  have hr : (UartOp.runAll [.putChar .quiet 0x41]).Refuses := (UartBuffer.refuses_iff _).mpr (by decide)
  exact absurd (law.refusal hr) (by decide)

/-! ## Receiving -/

namespace UartOp

/-- Step lemma: a call keeps the queue of the receive ring, and the count of the unread bytes with it, unless it takes in a byte
behind 255 unread ones. -/
theorem run_rxHolds {u : UartBuffer} {q : List UInt8} (h : u.RxHolds q) (op : UartOp)
    (hroom : op.receives = true → q.length < 255) : ∃ q', (op.run u).RxHolds q' ∧ q'.length = op.countRx q.length := by
  have key : ∀ (v : UartBuffer) (rx : Option UInt8), v.RxHolds q → (rx.isSome = true → q.length < 255) →
      ∃ q', (v.receive rx).RxHolds q' ∧ q'.length = if rx.isSome then q.length + 1 else q.length := by
    intro v rx hv hr
    cases rx with
    | none => exact ⟨q, hv, rfl⟩
    | some c => exact ⟨q ++ [c], UartBuffer.receive_rxHolds hv (hr rfl) c, by simp⟩
  cases op with
  | putChar usart c => exact key _ _ (UartBuffer.transmit_rxHolds (UartBuffer.store_rxHolds h c) _) hroom
  | interrupt usart => exact key _ _ (UartBuffer.transmit_rxHolds h _) hroom
  | getChar => exact ⟨q.tail, (UartBuffer.getChar_rxHolds h).2, by simp [countRx]⟩

/-- A call that takes in a byte behind 255 unread ones breaks the law. -/
theorem run_rxOverflow {u : UartBuffer} {q : List UInt8} (h : u.RxHolds q) (op : UartOp) (hr : op.receives = true)
    (hfull : q.length = 255) : ¬ (op.run u).RxLaw := by
  have key : ∀ (v : UartBuffer) (rx : Option UInt8), v.RxHolds q → rx.isSome = true → ¬ (v.receive rx).RxLaw := by
    intro v rx hv hrx law
    obtain ⟨c, rfl⟩ := Option.isSome_iff_exists.mp hrx
    obtain ⟨hready, hne⟩ := UartBuffer.receive_overflow hv hfull c
    exact hne (law.complete hready)
  cases op with
  | putChar usart c => exact key _ _ (UartBuffer.transmit_rxHolds (UartBuffer.store_rxHolds h c) _) hr
  | interrupt usart => exact key _ _ (UartBuffer.transmit_rxHolds h _) hr
  | getChar => exact absurd hr (by simp [receives])

/-- Where the receive ring holds a queue the reader's law holds. -/
theorem rxLaw_of_holds {u : UartBuffer} {q : List UInt8} (h : u.RxHolds q) : u.RxLaw := by
  refine ⟨by rw [h.taken_eq]; exact List.sublist_append_left _ _, ?_⟩
  intro hr
  rw [h.taken_eq, h.ring.in_eq_out_iff.mp ((UartBuffer.rxReady_eq_zero_iff u).mp hr), List.append_nil]

/-- In a run that takes in bytes only with fewer than 255 unread ones the receive ring holds a queue of the unread bytes. -/
theorem runAll_rxHolds (ops : List UartOp)
    (h : ∀ pre op, pre ++ [op] <+: ops → op.receives = true → unread pre < 255) :
    ∃ q, (runAll ops).RxHolds q ∧ q.length = unread ops := by
  induction ops using List.reverseRecOn with
  | nil => exact ⟨[], UartBuffer.init_rxHolds, rfl⟩
  | append_singleton ops op ih =>
    obtain ⟨q, hq, hl⟩ := ih fun pre o hp => h pre o (hp.trans (List.prefix_append ops [op]))
    rw [runAll_snoc, unread_snoc, ← hl]
    exact run_rxHolds hq op fun hr => hl ▸ h ops op (List.prefix_refl _) hr

end UartOp

/-- Along a whole run the reader gets every received byte, in order, before `UartBuffer_RxReady` returns 0, exactly when no byte
is received while 255 received bytes are unread. -/
theorem uart_receive_queue_iff (ops : List UartOp) :
    (∀ pre, pre <+: ops → (UartOp.runAll pre).RxLaw) ↔
      ∀ pre op, pre ++ [op] <+: ops → op.receives = true → UartOp.unread pre < 255 := by
  constructor
  · induction ops using List.reverseRecOn with
    | nil =>
      intro _ pre op hp
      simp at hp
    | append_singleton ops op ih =>
      intro hlaw pre o hp hr
      obtain ⟨hlaw', hlast⟩ := (forall_prefix_snoc ops op).mp hlaw
      have hops := ih hlaw'
      rcases List.prefix_concat_iff.mp hp with he | hp'
      · obtain ⟨rfl, rfl⟩ := List.append_singleton_inj.mp he
        obtain ⟨q, hq, hl⟩ := UartOp.runAll_rxHolds _ hops
        by_contra hge
        have hfull : q.length = 255 := by
          have : q.length < 256 := hq.ring.room
          omega
        rw [UartOp.runAll_snoc] at hlast
        exact UartOp.run_rxOverflow hq o hr hfull hlast
      · exact hops pre o hp' hr
  · intro h pre hp
    obtain ⟨q, hq, -⟩ := UartOp.runAll_rxHolds pre fun p o hpo => h p o (hpo.trans hp)
    exact UartOp.rxLaw_of_holds hq

/-- After 256 received bytes and no `UartBuffer_GetChar` the ring says that nothing is unread. -/
theorem uart_receive_overflow :
    let u := UartOp.runAll (List.replicate 256 (.interrupt { txbufe := false, rx := some 0x41 }))
    u.rxReady = 0 ∧ u.got = [] ∧ u.taken.length = 256 ∧ ¬ u.RxLaw := by
  have hlen : (UartOp.runAll (List.replicate 256 (.interrupt { txbufe := false, rx := some 0x41 }))).taken.length = 256 := by
    decide +kernel
  have hready : (UartOp.runAll (List.replicate 256 (.interrupt { txbufe := false, rx := some 0x41 }))).rxReady = 0 := by
    decide +kernel
  have hgot : (UartOp.runAll (List.replicate 256 (.interrupt { txbufe := false, rx := some 0x41 }))).got = [] := by
    decide +kernel
  refine ⟨hready, hgot, hlen, ?_⟩
  intro law
  have := law.complete hready
  rw [hgot] at this
  rw [← this] at hlen
  exact absurd hlen (by decide)

end PowerMonitor
