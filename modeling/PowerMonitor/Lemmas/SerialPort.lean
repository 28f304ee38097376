import PowerMonitor.Firmware.Main
import PowerMonitor.Lemmas.UartBuffer

/-!
# The serial port of the firmware

Between two bytes that `Run_Config` reads, the port only sees calls of `UartBuffer_PutChar` and `UartBuffer_Interrupt` (`Serves`).
They read nothing, they record every byte they are handed, and they lose no byte that arrives while there is room for it.
-/

namespace PowerMonitor

open CString

/-- The serial buffers, and what the USART will report. -/
abbrev Port := UartBuffer × List UsartIn

/-- The port has been handed the bytes `out`, and has moved on by some calls of `UartBuffer_Interrupt`. -/
inductive Serves : Port → List UInt8 → Port → Prop where
  | refl (p : Port) : Serves p [] p
  | interrupt {p : Port} {out : List UInt8} {u : UartBuffer} {us : List UsartIn} (h : Serves p out (u, us)) :
      Serves p out (u.interrupt (us.headD .quiet), us.tail)
  | putChar {p : Port} {out : List UInt8} {u : UartBuffer} {us : List UsartIn} (h : Serves p out (u, us)) (c : UInt8) :
      Serves p (out ++ [c]) (u.putChar (us.headD .quiet) c, us.tail)

namespace UartBuffer

/-- The indices of the receive ring are 8-bit numbers. -/
def Indexed (u : UartBuffer) : Prop := u.rxIn < 256 ∧ u.rxOut < 256

theorem init_indexed : init.Indexed := ⟨by decide, by decide⟩

/-- The number of bytes between the indices of the receive ring. -/
def backlog (u : UartBuffer) : Nat := (u.rxIn + 256 - u.rxOut) % 256

/-- The halves that work on the transmit ring leave the receive ring. -/
theorem store_rx (u : UartBuffer) (c : UInt8) :
    (u.store c).rxIn = u.rxIn ∧ (u.store c).rxOut = u.rxOut ∧ (u.store c).got = u.got ∧ (u.store c).put = u.put ++ [c] := by
  unfold store
  dsimp only
  split <;> exact ⟨rfl, rfl, rfl, rfl⟩

theorem transmit_rx (u : UartBuffer) (txbufe : Bool) :
    (u.transmit txbufe).rxIn = u.rxIn ∧ (u.transmit txbufe).rxOut = u.rxOut ∧ (u.transmit txbufe).got = u.got ∧
      (u.transmit txbufe).put = u.put := by
  unfold transmit
  split <;> exact ⟨rfl, rfl, rfl, rfl⟩

theorem interrupt_got (u : UartBuffer) (x : UsartIn) : (u.interrupt x).got = u.got ∧ (u.interrupt x).put = u.put := by
  obtain ⟨-, -, hg, hp⟩ := transmit_rx u x.txbufe
  unfold interrupt receive
  split <;> exact ⟨hg, hp⟩

/-- A call of `UartBuffer_Interrupt` takes in at most the byte that is there. -/
theorem interrupt_backlog {u : UartBuffer} (h : u.Indexed) (x : UsartIn) :
    (u.interrupt x).Indexed ∧ (u.interrupt x).backlog ≤ u.backlog + x.rx.toList.length := by
  obtain ⟨hi, ho, -, -⟩ := transmit_rx u x.txbufe
  obtain ⟨h1, h2⟩ := h
  unfold interrupt receive
  cases x.rx with
  | none =>
    refine ⟨⟨by rw [hi]; exact h1, by rw [ho]; exact h2⟩, ?_⟩
    simp [backlog, hi, ho]
  | some c =>
    refine ⟨⟨?_, by simpa only [ho] using h2⟩, ?_⟩
    · simp only [bufferSize]
      omega
    · simp only [backlog, hi, ho, bufferSize, Option.toList_some, List.length_singleton]
      omega

end UartBuffer

namespace Serves

variable {p q r : Port} {s t : List UInt8}

theorem trans (h : Serves p s q) (h' : Serves q t r) : Serves p (s ++ t) r := by
  induction h' with
  | refl => simpa using h
  | interrupt _ ih => exact ih.interrupt
  | putChar _ c ih =>
    rw [← List.append_assoc]
    exact ih.putChar c

/-- What a store and an interrupt keep, the port keeps. -/
theorem keeps {P : Port → Prop} (hs : ∀ u us c, P (u, us) → P (u.store c, us))
    (hi : ∀ u us, P (u, us) → P (u.interrupt (us.headD .quiet), us.tail)) (h : Serves p s q) (hp : P p) : P q := by
  induction h with
  | refl => exact hp
  | interrupt _ ih => exact hi _ _ ih
  | putChar _ c ih => exact hi _ _ (hs _ _ c ih)

theorem got (h : Serves p s q) : q.1.got = p.1.got := by
  refine h.keeps (P := fun x => x.1.got = p.1.got) ?_ ?_ rfl
  · exact fun u _ c he => (u.store_rx c).2.2.1.trans he
  · exact fun u us he => (u.interrupt_got _).1.trans he

theorem put (h : Serves p s q) : q.1.put = p.1.put ++ s := by
  induction h with
  | refl => simp
  | interrupt _ ih => exact (UartBuffer.interrupt_got _ _).2.trans ih
  | @putChar _ u us _ c ih =>
    have he : (u.store c).put = u.put ++ [c] := (u.store_rx c).2.2.2
    rw [UartBuffer.putChar, (UartBuffer.interrupt_got _ _).2, he, ih, List.append_assoc]

/-- The bytes that may still be read do not become more. -/
theorem backlog (h : Serves p s q) (hp : p.1.Indexed) :
    q.1.Indexed ∧ q.1.backlog + q.2.length ≤ p.1.backlog + p.2.length := by
  refine h.keeps (P := fun x => x.1.Indexed ∧ x.1.backlog + x.2.length ≤ p.1.backlog + p.2.length) ?_ ?_ ⟨hp, Nat.le_refl _⟩
  · rintro u us c ⟨hi, hb⟩
    obtain ⟨h1, h2, -, -⟩ := u.store_rx c
    exact ⟨⟨by rw [h1]; exact hi.1, by rw [h2]; exact hi.2⟩, by rw [UartBuffer.backlog, h1, h2]; exact hb⟩
  · rintro u us ⟨hi, hb⟩
    obtain ⟨hi', hb'⟩ := u.interrupt_backlog hi (us.headD .quiet)
    refine ⟨hi', ?_⟩
    cases us with
    | nil =>
      exact Nat.le_trans (Nat.add_le_add_right hb' _) hb
    | cons x us =>
      have h1 : x.rx.toList.length ≤ 1 := by cases x.rx <;> simp
      simp only [List.headD_cons, List.tail_cons, List.length_cons] at hb hb' ⊢
      omega

end Serves

/-- The bytes `t` are waiting to be read: in the receive ring, and then with the USART. -/
def Waiting (t : List UInt8) (p : Port) : Prop := ∃ q, p.1.RxHolds q ∧ t = q ++ p.2.filterMap UsartIn.rx

namespace Serves

variable {p q : Port} {s t : List UInt8}

/-- Bytes that all fit the receive ring stay as they are until they are read. -/
theorem waiting (h : Serves p s q) (ht : t.length < 256) (hp : Waiting t p) : Waiting t q := by
  refine h.keeps (P := Waiting t) ?_ ?_ hp
  · rintro u us c ⟨q, hq, he⟩
    exact ⟨q, UartBuffer.store_rxHolds hq c, he⟩
  · rintro u us ⟨q, hq, he⟩
    cases us with
    | nil => exact ⟨q, UartBuffer.transmit_rxHolds hq false, he⟩
    | cons x us =>
      have hq' := UartBuffer.transmit_rxHolds hq x.txbufe
      cases hx : x.rx with
      | none =>
        have hi : u.interrupt x = u.transmit x.txbufe := by rw [UartBuffer.interrupt, hx]; rfl
        refine ⟨q, ?_, ?_⟩
        · simpa only [List.headD_cons, hi] using hq'
        · simpa [hx] using he
      | some c =>
        have hi : u.interrupt x = (u.transmit x.txbufe).receive (some c) := by rw [UartBuffer.interrupt, hx]
        simp only [List.filterMap_cons, hx] at he
        refine ⟨q ++ [c], ?_, ?_⟩
        · have hlen : q.length < 255 := by
            rw [he, List.length_append, List.length_cons] at ht
            omega
          simpa only [List.headD_cons, hi] using UartBuffer.receive_rxHolds hq' hlen c
        · simpa using he

/-- A USART that has nothing to report stays so. -/
theorem usart_nil (h : Serves p s q) (hp : p.2 = []) : q.2 = [] :=
  h.keeps (P := fun x => x.2 = []) (fun _ _ _ he => he) (fun _ us he => by rw [show us = [] from he]; rfl) hp

end Serves

/-- The bytes `s` are those taken in so far, and then those the USART will report. -/
structure Arriving (s : List UInt8) (p : Port) : Prop where
  receives : p.1.Receives
  stream : p.1.taken ++ p.2.filterMap UsartIn.rx = s

/-- Without an overflow the bytes read are the first of those taken in, and all of them when none is unread. -/
theorem Arriving.got_prefix {s : List UInt8} {u : UartBuffer} {us : List UsartIn} (h : Arriving s (u, us)) (ho : ¬ u.Overflowed) :
    u.got <+: u.taken ∧ u.taken <+: s ∧ (u.rxReady = 0 → u.got = u.taken) := by
  obtain ⟨q, hq⟩ : ∃ q, u.RxHolds q := h.receives.held.resolve_left ho
  refine ⟨⟨q, hq.taken_eq.symm⟩, ⟨_, h.stream⟩, fun hr => ?_⟩
  have hnil : q = [] := hq.ring.in_eq_out_iff.mp ((UartBuffer.rxReady_eq_zero_iff _).mp hr)
  rw [hq.taken_eq, hnil, List.append_nil]

namespace Serves

variable {p q : Port} {s out : List UInt8}

/-- Every byte that the USART reports is taken in. -/
theorem arriving (h : Serves p out q) (hp : Arriving s p) : Arriving s q := by
  refine h.keeps (P := Arriving s) ?_ ?_ hp
  · rintro u us c ⟨hr, hs⟩
    have ht : (u.store c).taken = u.taken := by
      unfold UartBuffer.store
      dsimp only
      split <;> rfl
    exact ⟨hr.store c, ht.symm ▸ hs⟩
  · rintro u us ⟨hr, hs⟩
    refine ⟨(hr.transmit _).receive _, ?_⟩
    have ht : ∀ x, (u.interrupt x).taken = u.taken ++ x.rx.toList := by
      intro x
      have htx : (u.transmit x.txbufe).taken = u.taken := by
        unfold UartBuffer.transmit
        split <;> rfl
      rw [← htx, UartBuffer.interrupt]
      cases x.rx <;> simp [UartBuffer.receive]
    rw [ht]
    cases us with
    | nil => simpa [UsartIn.quiet] using hs
    | cons x us =>
      rw [← hs, List.headD_cons, List.tail_cons, List.append_assoc]
      cases hx : x.rx <;> simp [hx]

end Serves

namespace Firmware

/-- The serial port. -/
def port (fw : Firmware) : Port := (fw.uart, fw.usart)

/-- `fw'` is `fw` but for the serial port, which was handed the bytes `out`. -/
structure Printed (fw : Firmware) (out : List UInt8) (fw' : Firmware) : Prop where
  rest : fw' = { fw with uart := fw'.uart, usart := fw'.usart }
  port : Serves fw.port out fw'.port

theorem Printed.trans {fw fw' fw'' : Firmware} {s t : List UInt8} (h : Printed fw s fw') (h' : Printed fw' t fw'') :
    Printed fw (s ++ t) fw'' := by
  refine ⟨?_, h.port.trans h'.port⟩
  rw [h'.rest, h.rest]

theorem interrupt_printed (fw : Firmware) : Printed fw [] fw.interrupt := ⟨rfl, (Serves.refl fw.port).interrupt⟩

theorem putChar_printed (fw : Firmware) (c : UInt8) : Printed fw [c] (fw.putChar c) := ⟨rfl, (Serves.refl fw.port).putChar c⟩

theorem putString_printed (s : List UInt8) : ∀ fw : Firmware, Printed fw s (fw.putString s) := by
  induction s with
  | nil => exact fun fw => ⟨rfl, Serves.refl fw.port⟩
  | cons c s ih => exact fun fw => (putChar_printed fw c).trans (ih _)

/-- Every byte that is put lets the USART report once. -/
theorem putString_usart (s : List UInt8) : ∀ fw : Firmware, (fw.putString s).usart = fw.usart.drop s.length := by
  induction s with
  | nil => exact fun _ => rfl
  | cons c s ih =>
    intro fw
    rw [List.length_cons, ← List.drop_tail]
    exact ih (fw.putChar c)

end Firmware

end PowerMonitor
