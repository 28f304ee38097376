import PowerMonitor.Lemmas.Accessors
import PowerMonitor.Theorems.CacheRange

/-!
# Multi-byte accessors agree with the byte accessors

After `EE_Write2`, `EE_Write4` or `EE_Write` the bytes of the range are those of the value, the lowest first, or of the buffer, and
every other byte of the token is read as before. Reading the range back gives the value or the buffer, across page boundaries, with
any number of slots and in any order of the operands.
-/

namespace PowerMonitor

open LittleEndian

namespace EE

/-- `s'` is read as `s` but for the bytes `bs` from `addr` on, which are read one by one, as a buffer, and as a word. -/
structure Stores (s s' : EE) (addr : Nat) (bs : List UInt8) : Prop where
  bytes : ∀ i (h : i < bs.length), s'.Reads (addr + i) bs[i]
  others : ∀ a, a < 512 * s.token.size → a < addr ∨ addr + bs.length ≤ a → ∃ v, s.Reads a v ∧ s'.Reads a v
  read : ∃ t, EE.read bs.length addr s' = some (bs, t)
  read2 : bs.length = 2 → ∀ o, ∃ t, s'.read2 o addr = some (decode bs, t)
  read4 : bs.length = 4 → ∀ o o₂, ∃ t, s'.read4 o o₂ addr = some (decode bs, t)

theorem Shows.reads {tk : DFToken} {f : Nat → UInt8} {s : EE} (h : Shows tk f s) {a : Nat} (ha : a < 512 * tk.size) :
    s.Reads a (f a) := by
  obtain ⟨t, ht, -⟩ := h.read1 ha
  exact ⟨t, ht⟩

/-- A cache that shows the bytes put in has them stored. -/
theorem Shows.stores {tk : DFToken} {f : Nat → UInt8} {s s' : EE} {addr : Nat} {bs : List UInt8} (h : Shows tk f s)
    (h' : Shows tk (Cells.put f addr bs) s') (hfit : addr + bs.length ≤ 512 * tk.size) : s.Stores s' addr bs := by
  refine ⟨?_, ?_, h'.read_put hfit, ?_, ?_⟩
  · intro i hi
    rw [← Cells.put_of_lt f addr hi]
    exact h'.reads (by omega)
  · intro a ha hout
    rw [h.token] at ha
    refine ⟨f a, h.reads ha, ?_⟩
    rw [← Cells.put_of_outside f hout]
    exact h'.reads ha
  · intro hl o
    obtain ⟨t, ht, -⟩ := h'.read2 o (a := addr) (by omega)
    rw [← hl, Cells.map_put] at ht
    exact ⟨t, ht⟩
  · intro hl o o₂
    obtain ⟨t, ht, -⟩ := h'.read4 o o₂ (a := addr) (by omega)
    rw [← hl, Cells.map_put] at ht
    exact ⟨t, ht⟩

/-- `EE_Write` of a range of the token stores it. -/
theorem write_stores {s : EE} (h : s.Wf) (addr : Nat) (bs : List UInt8) (hfit : addr + bs.length ≤ 512 * s.token.size) :
    ∃ s', s.write addr bs = some s' ∧ s.Stores s' addr bs := by
  obtain ⟨s', he, hs'⟩ := Shows.write bs (Shows.self h) hfit
  exact ⟨s', he, (Shows.self h).stores hs' hfit⟩

end EE

/-- In every state a run reaches, whatever its addresses, a store of several bytes within the token stores the bytes of the value
or of the buffer and no others, and the accessor of the same width returns the value or the buffer. -/
theorem multi_byte_accessors (tk : DFToken) (hf : tk.firstPage + tk.size ≤ 8192) (n : Nat) (hn : 1 ≤ n) (spi : Spi)
    (hi : spi.Idle) (ops : List EEOp) :
    ∃ s, EEOp.runAll ops (EE.init tk n spi) = some s ∧ s.token = tk ∧ ∀ addr,
      (addr + 2 ≤ 512 * tk.size → ∀ data, data < 2 ^ 16 →
        ∃ s', s.write2 addr data = some s' ∧ s.Stores s' addr (encode 2 data) ∧
          ∀ o, ∃ t, s'.read2 o addr = some (data, t)) ∧
      (addr + 4 ≤ 512 * tk.size → ∀ data, data < 2 ^ 32 →
        ∃ s', s.write4 addr data = some s' ∧ s.Stores s' addr (encode 4 data) ∧
          ∀ o o₂, ∃ t, s'.read4 o o₂ addr = some (data, t)) ∧
      ∀ buf : List UInt8, buf.length < 2 ^ 16 → addr + buf.length ≤ 512 * tk.size →
        ∃ s', s.write addr buf = some s' ∧ s.Stores s' addr buf ∧ ∃ t, EE.read buf.length addr s' = some (buf, t) := by
  obtain ⟨s, he, hwf, ht, -⟩ := EEOp.runAll_spec ops (EE.init_wf hf hn hi).1
  have htk : s.token = tk := ht
  refine ⟨s, he, htk, fun addr => ⟨?_, ?_, ?_⟩⟩
  · intro hfit data hdata
    obtain ⟨s', hw, hst⟩ := EE.write_stores hwf addr (encode 2 data) (by rw [htk, encode_length]; exact hfit)
    refine ⟨s', (EE.write2_eq s addr data).trans hw, hst, fun o => ?_⟩
    obtain ⟨t, hr⟩ := hst.read2 (encode_length 2 data) o
    exact ⟨t, by rw [hr, decode_encode_of_lt hdata]⟩
  · intro hfit data hdata
    obtain ⟨s', hw, hst⟩ := EE.write_stores hwf addr (encode 4 data) (by rw [htk, encode_length]; exact hfit)
    refine ⟨s', (EE.write4_eq s addr data).trans hw, hst, fun o o₂ => ?_⟩
    obtain ⟨t, hr⟩ := hst.read4 (encode_length 4 data) o o₂
    exact ⟨t, by rw [hr, decode_encode_of_lt hdata]⟩
  · intro buf _ hfit
    obtain ⟨s', hw, hst⟩ := EE.write_stores hwf addr buf (by rw [htk]; exact hfit)
    exact ⟨s', hw, hst, hst.read⟩

/-- A word across a page boundary, with one slot. -/
theorem multi_byte_accessors_one_slot :
    ∃ s, EEOp.runAll [.write1 512 9] (EE.init ⟨3, 4⟩ 1 (Spi.reset ⟨fun _ _ => 0xFF, fun _ _ => 0, []⟩ 5 [2, 0] 0x25 [])) = some s ∧
      ∃ s', s.write4 510 0x12345678 = some s' ∧ s.Stores s' 510 [0x78, 0x56, 0x34, 0x12] ∧
        ∀ o o₂, ∃ t, s'.read4 o o₂ 510 = some (0x12345678, t) := by
  obtain ⟨s, he, -, h⟩ := multi_byte_accessors ⟨3, 4⟩ (by decide) 1 (by decide)
    (Spi.reset ⟨fun _ _ => 0xFF, fun _ _ => 0, []⟩ 5 [2, 0] 0x25 []) (DataFlashAux.reset_idle _ _ _ _ _) [.write1 512 9]
  exact ⟨s, he, (h 510).2.1 (by decide) 0x12345678 (by decide)⟩

end PowerMonitor
