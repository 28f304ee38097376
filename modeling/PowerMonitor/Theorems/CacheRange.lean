import PowerMonitor.Theorems.PageCache

/-!
# Writes outside the token

`EE_Write1` cuts the page number of its address to 16 bits before anything checks it. An address outside the token whose cut page
number is one of the token's is the address of another byte, and that byte is written. Every other address outside the token only
takes a slot; the driver refuses its transfers.
-/

namespace PowerMonitor

namespace EE

/-- The address `EE_Read1` and `EE_Write1` take an address for. -/
def cutAddress (addr : Nat) : Nat := eePageSize * pageOf addr + offsetOf addr

/-- `EE_Read1` returns `v`. -/
def Reads (s : EE) (a : Nat) (v : UInt8) : Prop := ∃ t, s.read1 a = some (v, t)

end EE

/-- The call is a read of an address of the token, a check or a flush. -/
def EEOp.Harmless (tk : DFToken) : EEOp → Prop
  | .read1 a => a < 512 * tk.size
  | .write1 _ _ => False
  | .cacheCheck => True
  | .cacheFlush => True

/-- Whatever harmless calls follow in `s'`, every byte of the token is read as it is read in `s`. -/
def EE.Undamaged (s s' : EE) : Prop :=
  ∀ later : List EEOp, (∀ op ∈ later, op.Harmless s.token) →
    ∃ t, EEOp.runAll later s' = some t ∧ ∀ a, a < 512 * s.token.size → ∃ v, s.Reads a v ∧ t.Reads a v

namespace EE

theorem cutAddress_page (addr : Nat) : pageOf (cutAddress addr) = pageOf addr ∧ offsetOf (cutAddress addr) = offsetOf addr := by
  have hoff := offsetOf_lt addr
  have hpage : pageOf addr < 65536 := Nat.mod_lt _ (by decide)
  simp only [pageOf, offsetOf, cutAddress, eePageSize, Nat.shiftRight_eq_div_pow] at hoff hpage ⊢
  omega

theorem cutAddress_lt {addr n : Nat} (h : pageOf addr < n) : cutAddress addr < 512 * n := by
  have hoff := offsetOf_lt addr
  simp only [cutAddress, eePageSize]
  omega

/-- The calls do not tell an address from the one it is cut to. -/
theorem write1_cutAddress (s : EE) (addr : Nat) (d : UInt8) : s.write1 (cutAddress addr) d = s.write1 addr d := by
  obtain ⟨hp, ho⟩ := cutAddress_page addr
  simp only [write1, hp, ho]

/-- In a state of the cache, what is read at an address of the token is what is seen there. -/
theorem reads_iff {s : EE} (h : s.Wf) {a : Nat} (ha : a < 512 * s.token.size) (v : UInt8) : s.Reads a v ↔ v = s.value a := by
  have hsz : s.token.size ≤ 8192 := Nat.le_trans (Nat.le_add_left _ _) h.fits
  obtain ⟨u, t, he, -, hv⟩ := read1_spec h a
  have hu := hv (pageOf_lt hsz ha)
  constructor
  · rintro ⟨t', he'⟩
    rw [he, Option.some.injEq, Prod.mk.injEq] at he'
    rw [← he'.1, hu]
  · rintro rfl
    exact ⟨t, by rw [he, hu]⟩

/-- Harmless calls write nothing. -/
theorem lastWrite_harmless {tk : DFToken} {later : List EEOp} (h : ∀ op ∈ later, op.Harmless tk) (a : Nat) :
    EEOp.lastWrite a later = none := by
  induction later with
  | nil => rfl
  | cons op later ih =>
    have hop := h op List.mem_cons_self
    rw [EEOp.lastWrite, ih fun o ho => h o (List.mem_cons_of_mem _ ho)]
    cases op with
    | write1 b d => exact absurd hop id
    | _ => rfl

/-- Nothing is damaged exactly when every byte of the token is seen as it was. -/
theorem undamaged_iff {s s' : EE} (h : s.Wf) (h' : s'.Wf) (ht : s'.token = s.token) :
    s.Undamaged s' ↔ ∀ a, a < 512 * s.token.size → s'.value a = s.value a := by
  constructor
  · intro hu a ha
    obtain ⟨t, he, hread⟩ := hu [] fun _ hop => absurd hop List.not_mem_nil
    cases he
    obtain ⟨v, hv, hv'⟩ := hread a ha
    rw [← (reads_iff h ha v).mp hv, ← (reads_iff h' (by rwa [ht]) v).mp hv']
  · intro hv later hl
    obtain ⟨t, he, hwf, htok, -, hval⟩ := EEOp.runAll_spec later h'
    have hin : ∀ op ∈ later, op.InRange s'.token := by
      intro op hop
      have hop' := hl op hop
      cases op with
      | write1 b d => exact absurd hop' id
      | read1 b => rw [ht]; exact hop'
      | _ => trivial
    refine ⟨t, he, fun a ha => ⟨s.value a, (reads_iff h ha _).mpr rfl, ?_⟩⟩
    refine (reads_iff hwf (by rwa [htok, ht]) _).mpr ?_
    rw [hval hin a (by rwa [ht]), lastWrite_harmless hl, Option.getD_none, hv a ha]

/-- A write damages nothing exactly when its page number, cut to 16 bits, lies outside the token, or the byte is there already. -/
theorem write1_undamaged_iff {s : EE} (h : s.Wf) (addr : Nat) (d : UInt8) :
    (∃ s', s.write1 addr d = some s' ∧ s.Undamaged s') ↔ s.token.size ≤ pageOf addr ∨ s.Reads (cutAddress addr) d := by
  by_cases hp : pageOf addr < s.token.size
  · have ha := cutAddress_lt hp
    obtain ⟨s', he, hwf, ht, -, hv⟩ := write1_value h ha d
    rw [write1_cutAddress] at he
    rw [reads_iff h ha]
    constructor
    · rintro ⟨t, het, hu⟩
      obtain rfl : s' = t := Option.some.inj (he.symm.trans het)
      have hc := (undamaged_iff h hwf ht).mp hu (cutAddress addr) ha
      rw [hv _ ha, if_pos rfl] at hc
      exact Or.inr hc
    · intro hc
      have hd : d = s.value (cutAddress addr) := hc.resolve_left (Nat.not_le.mpr hp)
      refine ⟨s', he, (undamaged_iff h hwf ht).mpr fun b hb => ?_⟩
      rw [hv b hb]
      split
      · rename_i hb'
        rw [hb', hd]
      · rfl
  · obtain ⟨s', he, hwf, ht, -, hv⟩ := write1_spec h addr d
    rw [if_neg hp] at hv
    refine iff_of_true ⟨s', he, (undamaged_iff h hwf ht).mpr fun b _ => ?_⟩ (Or.inl (Nat.le_of_not_lt hp))
    rw [value, value, hv]

end EE

/-- In every state a run reaches, whatever its addresses, a write to any address leaves every byte of the token as it is read,
at once and after any reads and flushes, exactly when the page number of the address, cut to 16 bits, is outside the token, or
the byte at the address it is cut to has the value already. -/
theorem out_of_range_write_iff (tk : DFToken) (hf : tk.firstPage + tk.size ≤ 8192) (n : Nat) (hn : 1 ≤ n) (spi : Spi)
    (hi : spi.Idle) (ops : List EEOp) (addr : Nat) (d : UInt8) :
    ∃ s, EEOp.runAll ops (EE.init tk n spi) = some s ∧ s.token = tk ∧
      ((∃ s', s.write1 addr d = some s' ∧ s.Undamaged s') ↔ tk.size ≤ EE.pageOf addr ∨ s.Reads (EE.cutAddress addr) d) := by
  obtain ⟨s, he, hwf, ht, -⟩ := EEOp.runAll_spec ops (EE.init_wf hf hn hi).1
  have htk : s.token = tk := ht
  exact ⟨s, he, htk, htk ▸ EE.write1_undamaged_iff hwf addr d⟩

/-- A write just past the token, with one slot dirty. -/
theorem out_of_range_write_iff_past_end :
    ∃ s, EEOp.runAll [.write1 5 1, .read1 70000]
        (EE.init ⟨3, 4⟩ 2 (Spi.reset ⟨fun _ _ => 0xFF, fun _ _ => 0, []⟩ 5 [2, 0] 0x25 [])) = some s ∧ s.token = ⟨3, 4⟩ ∧
      ((∃ s', s.write1 2048 7 = some s' ∧ s.Undamaged s') ↔ 4 ≤ EE.pageOf 2048 ∨ s.Reads (EE.cutAddress 2048) 7) :=
  out_of_range_write_iff ⟨3, 4⟩ (by decide) 2 (by decide) _ (DataFlashAux.reset_idle _ _ _ _ _) _ 2048 7

/-- A write to address 2^25 is a write to address 0. -/
theorem out_of_range_write_damages :
    let s := EE.init ⟨3, 4⟩ 2 (Spi.reset ⟨fun _ _ => 0xFF, fun _ _ => 0, []⟩ 5 [2, 0] 0x25 [])
    512 * s.token.size ≤ 2 ^ 25 ∧ s.Reads 0 0xFF ∧ ∃ s', s.write1 (2 ^ 25) 7 = some s' ∧ s'.Reads 0 7 ∧ ¬ s.Undamaged s' := by
  intro s
  have hfit : DFToken.Fits ⟨3, 4⟩ := by unfold DFToken.Fits; decide
  obtain ⟨hwf, hval⟩ := EE.init_wf hfit (show 1 ≤ 2 by decide)
    (DataFlashAux.reset_idle ⟨fun _ _ => 0xFF, fun _ _ => 0, []⟩ 5 [2, 0] 0x25 [])
  have hin : 0 < 512 * s.token.size := by decide
  obtain ⟨s', he, hwf', ht, -, hv⟩ := EE.write1_value hwf hin 7
  have h0 : s.value 0 = 0xFF := hval 0
  have h0' : s'.value 0 = 7 := hv 0 hin
  refine ⟨by decide, (EE.reads_iff hwf hin _).mpr h0.symm, s', ?_, (EE.reads_iff hwf' (by rwa [ht]) _).mpr h0'.symm, fun hu => ?_⟩
  · rw [← EE.write1_cutAddress]
    exact he
  · have := (EE.undamaged_iff hwf hwf' ht).mp hu 0 hin
    rw [h0'] at this
    exact absurd (this.trans h0) (by decide)

end PowerMonitor
