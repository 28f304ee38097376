import PowerMonitor.Lemmas.Bus

/-!
# The data loops of the flash driver

A data loop counts from the offset to the sum of offset and size. The counter has 16 bits and the sum does not wrap: up to 65535 the
loop moves exactly the bytes asked for, and from 65536 on the counter never gets there, so that the bus is never released and the
caller's memory is overrun.
-/

namespace PowerMonitor

namespace Spi

/-- Bytes are sent one after another: the answer to each, and the bus afterwards. -/
def exchange : List UInt8 → Spi → List UInt8 × Spi
  | [], s => ([], s)
  | b :: bs, s =>
    let r := s.transfer b
    let q := exchange bs r.2
    (r.1 :: q.1, q.2)

/-- All bytes sent so far. -/
def sent (s : Spi) : List UInt8 := s.trace.filterMap BusEvent.sent

theorem exchange_length (bs : List UInt8) : ∀ s : Spi, (s.exchange bs).1.length = bs.length := by
  induction bs with
  | nil => exact fun _ => rfl
  | cons b bs ih => exact fun s => congrArg (· + 1) (ih (s.transfer b).2)

theorem exchange_snd (bs : List UInt8) : ∀ s : Spi, (s.exchange bs).2 = s.send bs := by
  induction bs with
  | nil => exact fun _ => rfl
  | cons b bs ih => exact fun s => ih (s.transfer b).2

theorem sent_transfer (b : UInt8) (s : Spi) : (s.transfer b).2.sent = s.sent ++ [b] := by
  rw [sent, transfer_trace, List.filterMap_append]
  rfl

theorem sent_send (bs : List UInt8) : ∀ s : Spi, (s.send bs).sent = s.sent ++ bs := by
  induction bs with
  | nil => exact fun s => (List.append_nil _).symm
  | cons b bs ih =>
    intro s
    rw [List.append_cons, ← sent_transfer]
    exact ih (s.transfer b).2

end Spi

namespace DataFlash

/-- What `DFS_ReadPageDirect` sends before the data: the opcode, the address and four don't-care bytes. -/
def pageReadHeader (tk : DFToken) (page offset : Nat) : List UInt8 :=
  let page := (page + tk.firstPage) % 65536
  [0xD2, .ofNat (page >>> 6), .ofNat ((page <<< 2) ||| (offset >>> 8)), .ofNat offset, 0, 0, 0, 0]

/-- What `DFS_BufferRead` sends before the data. -/
def bufferReadHeader (w : DFBuff) (offset : Nat) : List UInt8 :=
  [if w = .buffer1 then 0xD4 else 0xD6, 0, .ofNat (offset >>> 8), .ofNat offset, 0]

/-- What `DFS_BufferWrite` sends before the data. -/
def bufferWriteHeader (w : DFBuff) (offset : Nat) : List UInt8 :=
  [if w = .buffer1 then 0x84 else 0x87, 0, .ofNat (offset >>> 8), .ofNat offset]

/-- A call with the result `r` ends: once the chip is ready, on the bus `s`, it sends `header` and transfers `size` bytes, and the
answers are stored one behind another from `dest` on. -/
def ReadsExactly (header : List UInt8) (size : Nat) (dest : Bytes) (s : Spi) (r : Option (Bytes × Spi)) : Prop :=
  ∃ answers s', r = some (fun j => answers.getD j (dest j), csOff s') ∧
    ((csOn s).send header).exchange (List.replicate size 0) = (answers, s') ∧ answers.length = size ∧
    (csOff s').sent = s.sent ++ header ++ List.replicate size 0

/-- A call with the result `r` ends: once the chip is ready, on the bus `s`, it sends `header` and the `size` bytes from `src` on. -/
def WritesExactly (header : List UInt8) (size : Nat) (src : Bytes) (s : Spi) (r : Option Spi) : Prop :=
  ∃ s', r = some (csOff s') ∧ ((csOn s).send header).send ((List.range size).map src) = s' ∧
    (csOff s').sent = s.sent ++ header ++ (List.range size).map src

/-! ## The loops -/

section Loops

variable {bound : Nat}

/-- The counter wraps before it reaches a bound of 65536 or more. -/
theorem readLoop_never (hb : 65536 ≤ bound) (fuel : Nat) : ∀ {i : Nat}, i < 65536 → ∀ (k : Nat) (dest : Bytes) (s : Spi),
    readLoop fuel i bound k dest s = none := by
  induction fuel with
  | zero => exact fun _ _ _ _ => rfl
  | succ fuel ih =>
    intro i hi k dest s
    rw [readLoop, if_pos (by omega)]
    exact ih (Nat.mod_lt _ (by decide)) _ _ _

theorem writeLoop_never (hb : 65536 ≤ bound) (fuel : Nat) : ∀ {i : Nat}, i < 65536 → ∀ (k : Nat) (src : Bytes) (s : Spi),
    writeLoop fuel i bound k src s = none := by
  induction fuel with
  | zero => exact fun _ _ _ _ => rfl
  | succ fuel ih =>
    intro i hi k src s
    rw [writeLoop, if_pos (by omega)]
    exact ih (Nat.mod_lt _ (by decide)) _ _ _

end Loops

/-- A loop whose bound fits the counter stores `n` answers from position `k` on. -/
theorem readLoop_exchange (n : Nat) : ∀ (fuel i k : Nat) (dest : Bytes) (s : Spi), n < fuel → i + n < 65536 →
    readLoop fuel i (i + n) k dest s =
      some (fun j => if k ≤ j then (s.exchange (List.replicate n 0)).1.getD (j - k) (dest j) else dest j,
        (s.exchange (List.replicate n 0)).2) := by
  induction n with
  | zero =>
    intro fuel i k dest s hf _
    obtain ⟨fuel, rfl⟩ : ∃ m, fuel = m + 1 := ⟨fuel - 1, by omega⟩
    rw [readLoop, if_neg (by omega)]
    refine congrArg some (Prod.ext (funext fun j => ?_) rfl)
    exact (ite_self (dest j)).symm
  | succ n ih =>
    intro fuel i k dest s hf hi
    obtain ⟨fuel, rfl⟩ : ∃ m, fuel = m + 1 := ⟨fuel - 1, by omega⟩
    have hmod : (i + 1) % 65536 = i + 1 := Nat.mod_eq_of_lt (by omega)
    have hbound : i + (n + 1) = i + 1 + n := by omega
    rw [readLoop, if_pos (by omega), hmod, hbound]
    dsimp only
    rw [ih fuel (i + 1) (k + 1) _ _ (by omega) (by omega)]
    refine congrArg some (Prod.ext (funext fun j => ?_) rfl)
    dsimp only
    -- the byte stored at `k` is the first answer, and the others follow
    rcases Nat.lt_trichotomy j k with hj | rfl | hj
    · rw [if_neg (by omega), if_neg (by omega), Function.update_of_ne (by omega)]
    · rw [if_neg (by omega), if_pos (Nat.le_refl j), Function.update_self, Nat.sub_self]
      rfl
    · obtain ⟨m, rfl⟩ : ∃ m, j = k + 1 + m := ⟨j - (k + 1), by omega⟩
      rw [if_pos (by omega), if_pos (by omega), Function.update_of_ne (by omega), show k + 1 + m - (k + 1) = m by omega,
        show k + 1 + m - k = m + 1 by omega]
      rfl

/-- A loop whose bound fits the counter sends `n` bytes from position `k` on. -/
theorem writeLoop_send (n : Nat) : ∀ (fuel i k : Nat) (src : Bytes) (s : Spi), n < fuel → i + n < 65536 →
    writeLoop fuel i (i + n) k src s = some (s.send ((List.range n).map fun j => src (k + j))) := by
  induction n with
  | zero =>
    intro fuel i k src s hf _
    obtain ⟨fuel, rfl⟩ : ∃ m, fuel = m + 1 := ⟨fuel - 1, by omega⟩
    rw [writeLoop, if_neg (by omega)]
    rfl
  | succ n ih =>
    intro fuel i k src s hf hi
    obtain ⟨fuel, rfl⟩ : ∃ m, fuel = m + 1 := ⟨fuel - 1, by omega⟩
    have hmod : (i + 1) % 65536 = i + 1 := Nat.mod_eq_of_lt (by omega)
    have hbound : i + (n + 1) = i + 1 + n := by omega
    have hcons : (List.range (n + 1)).map (fun j => src (k + j)) = src k :: (List.range n).map fun j => src (k + 1 + j) := by
      rw [List.range_succ_eq_map, List.map_cons, List.map_map]
      refine congrArg₂ List.cons rfl (List.map_congr_left fun j _ => ?_)
      exact congrArg src (by simp only [Nat.succ_eq_add_one]; omega)
    rw [writeLoop, if_pos (by omega), hmod, hbound, ih fuel (i + 1) (k + 1) src _ (by omega) (by omega), hcons]
    rfl

/-! ## The calls -/

theorem csOn_sent (s : Spi) : (csOn s).sent = s.sent := by
  rw [Spi.sent, csOn, Spi.codr, List.filterMap_append]
  exact List.append_nil _

theorem csOff_sent (s : Spi) : (csOff s).sent = s.sent := by
  rw [Spi.sent, csOff, Spi.sodr, List.filterMap_append]
  exact List.append_nil _

/-- What is sent while the chip is selected. -/
theorem session_sent (header data : List UInt8) (s : Spi) :
    (csOff (((csOn s).send header).send data)).sent = s.sent ++ header ++ data := by
  rw [csOff_sent, Spi.sent_send, Spi.sent_send, csOn_sent]

section Calls

variable {offset size : Nat} {s : Spi}

/-- A read call is its data loop behind its header. -/
theorem readsExactly_iff {header : List UInt8} {dest : Bytes} {r : Option (Bytes × Spi)} (ho : offset < 65536)
    (hr : r = (readLoop loopFuel offset (offset + size) 0 dest ((csOn s).send header)).map fun q => (q.1, csOff q.2)) :
    ReadsExactly header size dest s r ↔ offset + size < 65536 := by
  constructor
  · rintro ⟨answers, s', he, -⟩
    by_contra hge
    rw [hr, readLoop_never (Nat.not_lt.mp hge) _ ho] at he
    cases he
  · intro hlt
    rw [readLoop_exchange size _ _ _ _ _ (by unfold loopFuel; omega) hlt] at hr
    have hlen := Spi.exchange_length (List.replicate size 0) ((csOn s).send header)
    have hsnd := Spi.exchange_snd (List.replicate size 0) ((csOn s).send header)
    refine ⟨_, _, ?_, rfl, hlen.trans List.length_replicate, ?_⟩
    · rw [hr]
      rfl
    · rw [hsnd]
      exact session_sent header _ s

/-- The write call is its data loop behind its header. -/
theorem writesExactly_iff {header : List UInt8} {src : Bytes} {r : Option Spi} (ho : offset < 65536)
    (hr : r = (writeLoop loopFuel offset (offset + size) 0 src ((csOn s).send header)).map csOff) :
    WritesExactly header size src s r ↔ offset + size < 65536 := by
  constructor
  · rintro ⟨s', he, -⟩
    by_contra hge
    rw [hr, writeLoop_never (Nat.not_lt.mp hge) _ ho] at he
    cases he
  · intro hlt
    rw [writeLoop_send size _ _ _ _ _ (by unfold loopFuel; omega) hlt] at hr
    simp only [Nat.zero_add] at hr
    refine ⟨_, hr, rfl, ?_⟩
    exact session_sent header _ s

end Calls

end DataFlash

open DataFlash

/-- For a page of the token, once the chip is ready, each of the three transfer functions ends and moves exactly the bytes asked for,
from or to consecutive positions, if and only if offset and size add up to less than 65536. -/
theorem transfer_loops_end_iff (tk : DFToken) {page offset : Nat} (size : Nat) (hp : page < tk.size) (ho : offset < 65536)
    (w : DFBuff) (dest src : Bytes) {s s₁ : Spi} (hw : waitReady s = some s₁) :
    (ReadsExactly (pageReadHeader tk page offset) size dest s₁ (readPageDirect tk page offset size dest s) ↔
        offset + size < 65536) ∧
      (ReadsExactly (bufferReadHeader w offset) size dest s₁ (bufferRead tk page offset size w dest s) ↔
        offset + size < 65536) ∧
      (WritesExactly (bufferWriteHeader w offset) size src s₁ (bufferWrite tk page offset size w src s) ↔
        offset + size < 65536) := by
  have hck := accepted hp
  refine ⟨readsExactly_iff ho ?_, readsExactly_iff ho ?_, writesExactly_iff ho ?_⟩
  · rw [readPageDirect, if_neg hck, hw]
    exact (Option.map_eq_bind ..).symm
  · rw [bufferRead, if_neg hck, hw]
    exact (Option.map_eq_bind ..).symm
  · rw [bufferWrite, if_neg hck, hw]
    exact (Option.map_eq_bind ..).symm

/-- A page of the EEPROM, on a chip that is still busy. -/
theorem transfer_loops_end_iff_page :
    let dev : Device := { pages := fun _ _ => 0xFF, buf := fun _ _ => 0, programs := [] }
    let tk : DFToken := { firstPage := 0, size := 4 }
    let s := Spi.reset dev 3 [] 0 []
    ∃ s₁, waitReady s = some s₁ ∧
      (ReadsExactly (pageReadHeader tk 3 0) 512 (fun _ => 0) s₁ (readPageDirect tk 3 0 512 (fun _ => 0) s) ↔ 0 + 512 < 65536) ∧
      (ReadsExactly (bufferReadHeader .buffer2 0) 512 (fun _ => 0) s₁ (bufferRead tk 3 0 512 .buffer2 (fun _ => 0) s) ↔
        0 + 512 < 65536) ∧
      (WritesExactly (bufferWriteHeader .buffer2 0) 512 (fun _ => 7) s₁ (bufferWrite tk 3 0 512 .buffer2 (fun _ => 7) s) ↔
        0 + 512 < 65536) := by
  intro dev tk s
  obtain ⟨s₁, hw, -⟩ := DataFlashAux.waitReady_spec (DataFlashAux.reset_idle dev 3 [] 0 [])
  exact ⟨s₁, hw, transfer_loops_end_iff tk 512 (by decide) (by decide) .buffer2 (fun _ => 0) (fun _ => 7) hw⟩

/-- One byte at the last offset: no call returns, and a loop that has gone on for as long as you like goes on. -/
theorem transfer_loops_overrun :
    let dev : Device := { pages := fun _ _ => 0xFF, buf := fun _ _ => 0, programs := [] }
    let tk : DFToken := { firstPage := 0, size := 4 }
    let s := Spi.reset dev 0 [] 0 []
    (∃ s₁, waitReady s = some s₁ ∧
      ¬ReadsExactly (pageReadHeader tk 3 65535) 1 (fun _ => 0) s₁ (readPageDirect tk 3 65535 1 (fun _ => 0) s) ∧
      ¬ReadsExactly (bufferReadHeader .buffer2 65535) 1 (fun _ => 0) s₁ (bufferRead tk 3 65535 1 .buffer2 (fun _ => 0) s) ∧
      ¬WritesExactly (bufferWriteHeader .buffer2 65535) 1 (fun _ => 7) s₁ (bufferWrite tk 3 65535 1 .buffer2 (fun _ => 7) s)) ∧
      ∀ fuel t, readLoop fuel 65535 (65535 + 1) 0 (fun _ => 0) t = none ∧
        writeLoop fuel 65535 (65535 + 1) 0 (fun _ => 7) t = none := by
  intro dev tk s
  have hread : ∀ fuel t, readLoop fuel 65535 (65535 + 1) 0 (fun _ => 0) t = none := fun fuel =>
    readLoop_never (by decide) fuel (by decide) 0 _
  have hwrite : ∀ fuel t, writeLoop fuel 65535 (65535 + 1) 0 (fun _ => 7) t = none := fun fuel =>
    writeLoop_never (by decide) fuel (by decide) 0 _
  refine ⟨?_, fun fuel t => ⟨hread fuel t, hwrite fuel t⟩⟩
  obtain ⟨s₁, hw, -⟩ := DataFlashAux.waitReady_spec (DataFlashAux.reset_idle dev 0 [] 0 [])
  have hck : ¬tokenCheck tk 3 < 0 := accepted (by decide)
  refine ⟨s₁, hw, ?_, ?_, ?_⟩
  · rw [readPageDirect, if_neg hck, hw]
    rintro ⟨answers, s', he, -⟩
    simp only [Option.bind_eq_bind, Option.bind_some, hread] at he
    cases he
  · rw [bufferRead, if_neg hck, hw]
    rintro ⟨answers, s', he, -⟩
    simp only [Option.bind_eq_bind, Option.bind_some, hread] at he
    cases he
  · rw [bufferWrite, if_neg hck, hw]
    rintro ⟨s', he, -⟩
    simp only [Option.bind_eq_bind, Option.bind_some, hwrite] at he
    cases he

end PowerMonitor
