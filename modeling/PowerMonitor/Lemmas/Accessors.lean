import PowerMonitor.Lemmas.Parameters
import PowerMonitor.Lib.Cells
import PowerMonitor.Lib.LittleEndian

/-!
# Accessors of several bytes

`EE_Write2` and `EE_Write4` are `EE_Write` of the bytes of their word, the lowest first (`write2_eq`, `write4_eq`), and
`EE_WriteString` is that of the string with its NUL (`writeString_eq`). On a cache that shows the bytes `f` at the addresses of the
token (`Shows`), a write leaves one that shows `f` with the bytes put in, and a read returns the bytes of `f`, whatever slots the
accesses go through.
-/

namespace PowerMonitor

open LittleEndian

namespace EE

/-- The cache shows the bytes `f` at the addresses of the token `tk`. -/
structure Shows (tk : DFToken) (f : Nat → UInt8) (s : EE) : Prop where
  wf : s.Wf
  token : s.token = tk
  value : ∀ a, a < 512 * tk.size → s.value a = f a

namespace Shows

variable {tk : DFToken} {f : Nat → UInt8} {s : EE}

theorem self (h : s.Wf) : Shows s.token s.value s := ⟨h, rfl, fun _ _ => rfl⟩

theorem size_le (h : Shows tk f s) : tk.size ≤ 8192 := by
  have hf := h.wf.fits
  rw [h.token] at hf
  exact Nat.le_trans (Nat.le_add_left _ _) hf

/-- An address of the token is no end of the address space. -/
theorem succ_mod (h : Shows tk f s) {a : Nat} (ha : a < 512 * tk.size) : (a + 1) % 2 ^ 32 = a + 1 := by
  have := h.size_le
  exact Nat.mod_eq_of_lt (by omega)

/-- A step that is not seen. -/
theorem unseen {t : EE} (h : Shows tk f s) (hu : Unseen s t) : Shows tk f t :=
  ⟨hu.wf, hu.token.trans h.token, fun a ha => (hu.value a).trans (h.value a ha)⟩

/-! ## One byte -/

theorem read1 (h : Shows tk f s) {a : Nat} (ha : a < 512 * tk.size) : ∃ t, s.read1 a = some (f a, t) ∧ Shows tk f t := by
  obtain ⟨v, t, he, hu, hv⟩ := read1_spec h.wf a
  refine ⟨t, ?_, h.unseen hu⟩
  rw [he, hv (by rw [h.token]; exact pageOf_lt h.size_le ha), h.value a ha]

theorem write1 (h : Shows tk f s) {a : Nat} (ha : a < 512 * tk.size) (d : UInt8) :
    ∃ t, s.write1 a d = some t ∧ Shows tk (Function.update f a d) t := by
  obtain ⟨t, he, hwf, ht, -, hv⟩ := write1_value h.wf (a := a) (by rw [h.token]; exact ha) d
  refine ⟨t, he, hwf, ht.trans h.token, fun b hb => ?_⟩
  rw [hv b (by rw [h.token]; exact hb), Function.update_apply, h.value b hb]

/-! ## Rows of bytes -/

theorem write (bs : List UInt8) : ∀ {f : Nat → UInt8} {s : EE} {a : Nat}, Shows tk f s → a + bs.length ≤ 512 * tk.size →
    ∃ t, s.write a bs = some t ∧ Shows tk (Cells.put f a bs) t := by
  induction bs with
  | nil =>
    intro f s a h _
    exact ⟨s, rfl, by rwa [Cells.put_nil]⟩
  | cons c bs ih =>
    intro f s a h hfit
    rw [List.length_cons] at hfit
    have ha : a < 512 * tk.size := by omega
    obtain ⟨u, hu, hsu⟩ := h.write1 ha c
    obtain ⟨t, ht, hst⟩ := ih (a := a + 1) hsu (by omega)
    refine ⟨t, ?_, by rwa [Cells.put_cons]⟩
    simp only [EE.write, hu, h.succ_mod ha, ht, Option.bind_eq_bind, Option.bind_some]

theorem read (n : Nat) : ∀ {s : EE} {a : Nat}, Shows tk f s → a + n ≤ 512 * tk.size →
    ∃ t, EE.read n a s = some ((List.range' a n).map f, t) ∧ Shows tk f t := by
  induction n with
  | zero =>
    intro s a h _
    exact ⟨s, rfl, h⟩
  | succ n ih =>
    intro s a h hfit
    have ha : a < 512 * tk.size := by omega
    obtain ⟨u, hu, hsu⟩ := h.read1 ha
    obtain ⟨t, ht, hst⟩ := ih (a := a + 1) hsu (by omega)
    refine ⟨t, ?_, hst⟩
    simp only [EE.read, hu, h.succ_mod ha, ht, Option.bind_eq_bind, Option.bind_some, List.range'_succ, List.map_cons]

/-- The bytes that were written are read back. -/
theorem read_put {g : Nat → UInt8} {a : Nat} {bs : List UInt8} (h : Shows tk (Cells.put g a bs) s)
    (hfit : a + bs.length ≤ 512 * tk.size) : ∃ t, EE.read bs.length a s = some (bs, t) := by
  obtain ⟨t, ht, -⟩ := read bs.length h hfit
  exact ⟨t, by rw [ht, Cells.map_put]⟩

/-! ## Words -/

theorem read2 (h : Shows tk f s) (o : EvalOrder) {a : Nat} (ha : a + 2 ≤ 512 * tk.size) :
    ∃ t, s.read2 o a = some (decode ((List.range' a 2).map f), t) ∧ Shows tk f t := by
  have hle := h.size_le
  obtain ⟨t, ht, hst⟩ := read2_spec (I := Shows tk f) (J := Shows tk f) (fun _ h => h) o (f := f) (a := a) (by omega)
    (fun i hi t hs => hs.read1 (by omega)) h
  refine ⟨t, ?_, hst⟩
  rw [ht, Nat.mul_comm]
  rfl

theorem read4 (h : Shows tk f s) (o o₂ : EvalOrder) {a : Nat} (ha : a + 4 ≤ 512 * tk.size) :
    ∃ t, s.read4 o o₂ a = some (decode ((List.range' a 4).map f), t) ∧ Shows tk f t := by
  have hle := h.size_le
  obtain ⟨t, ht, hst⟩ := read4_spec (I := Shows tk f) (J := Shows tk f) (fun _ h => h) o o₂ (f := f) (a := a) (by omega)
    (fun i hi t hs => hs.read1 (by omega)) h
  refine ⟨t, ?_, hst⟩
  have hw : word f a = decode ((List.range' a 4).map f) := by
    simp only [word, List.range'_succ, List.range'_zero, List.map_cons, List.map_nil, decode, Nat.add_assoc, Nat.reduceAdd]
    omega
  rw [ht, hw]

end Shows

/-- Cutting a word to 16 bits does not change its lowest byte. -/
theorem ofNat_mod (v : Nat) : UInt8.ofNat (v % 65536) = UInt8.ofNat v := by
  refine UInt8.toNat_inj.mp ?_
  rw [UInt8.toNat_ofNat', UInt8.toNat_ofNat']
  omega

/-- `EE_Write2` is `EE_Write` of the two bytes of its word. -/
theorem write2_eq (s : EE) (addr data : Nat) : s.write2 addr data = s.write addr (encode 2 data) := by
  simp only [write2, encode, EE.write, Option.bind_eq_bind, Option.bind_fun_some]

/-- `EE_Write4` is `EE_Write` of the four bytes of its word. -/
theorem write4_eq (s : EE) (addr data : Nat) : s.write4 addr data = s.write addr (encode 4 data) := by
  have h1 : UInt8.ofNat (data % 65536 / 256) = UInt8.ofNat (data / 256) := by
    refine UInt8.toNat_inj.mp ?_
    rw [UInt8.toNat_ofNat', UInt8.toNat_ofNat']
    omega
  have h3 : UInt8.ofNat (data / 65536 % 65536 / 256) = UInt8.ofNat (data / 256 / 256 / 256) := by
    refine UInt8.toNat_inj.mp ?_
    rw [UInt8.toNat_ofNat', UInt8.toNat_ofNat']
    omega
  have h2 : UInt8.ofNat (data / 65536 % 65536) = UInt8.ofNat (data / 256 / 256) := by
    rw [ofNat_mod, Nat.div_div_eq_div_mul]
  have ha2 : ((addr + 1) % 2 ^ 32 + 1) % 2 ^ 32 = (addr + 2) % 2 ^ 32 := by omega
  simp only [write4, write2, encode, EE.write, Option.bind_eq_bind, Option.bind_fun_some, Option.bind_assoc, ofNat_mod, h1, h2, h3,
    ha2]

/-- `EE_WriteString` is `EE_Write` of the string with its NUL, or of as much of that as fits. -/
theorem writeString_eq (s : EE) (addr : Nat) (str : List UInt8) (n : Nat) :
    s.writeString addr str n = s.write addr ((str ++ [0]).take n) := by
  rw [writeString]
  split
  · rw [List.take_of_length_le (by simp), List.take_of_length_le (by simp; omega)]
  · rfl

end EE

end PowerMonitor
