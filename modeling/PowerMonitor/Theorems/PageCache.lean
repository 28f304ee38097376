import PowerMonitor.Lemmas.Eeprom

/-!
# The page cache is a byte array

A run is any finite sequence of `EE_Read1`, `EE_Write1`, `EE_Cache_Check` and `EE_Cache_Flush` calls. Along a run the invariant
`EE.Wf` holds, and what a reader sees is the flash the cache started from with the writes of the run applied in order. A flush
makes the flash equal to what is seen.
-/

namespace PowerMonitor

/-- A call of the cache's interface. -/
inductive EEOp where
  | read1 (addr : Nat)
  | write1 (addr : Nat) (data : UInt8)
  | cacheCheck
  | cacheFlush
  deriving DecidableEq, Repr

namespace EEOp

/-- The call on a state; the answers of reads and checks are dropped. -/
def run : EEOp → EE → Option EE
  | .read1 a, s => (s.read1 a).map (·.2)
  | .write1 a d, s => s.write1 a d
  | .cacheCheck, s => s.cacheCheck.map (·.2)
  | .cacheFlush, s => s.cacheFlush

/-- A run. -/
def runAll : List EEOp → EE → Option EE
  | [], s => some s
  | op :: ops, s => (op.run s).bind (runAll ops)

/-- The address of the call, if it has one, is an address of the token. -/
def InRange (tk : DFToken) : EEOp → Prop
  | .read1 a => a < 512 * tk.size
  | .write1 a _ => a < 512 * tk.size
  | .cacheCheck => True
  | .cacheFlush => True

/-- The byte the call writes at an address. -/
def writes (a : Nat) : EEOp → Option UInt8
  | .write1 b d => if b = a then some d else none
  | _ => none

/-- The byte the last write of a run to an address wrote. -/
def lastWrite (a : Nat) : List EEOp → Option UInt8
  | [] => none
  | op :: ops => (lastWrite a ops).or (op.writes a)

end EEOp

namespace EE

/-- `k` calls of `EE_Cache_Check` that each found a dirty slot. -/
def checks : Nat → EE → Option EE
  | 0, s => some s
  | k + 1, s =>
    match s.cacheCheck with
    | some (r, s') => if r ≠ 0 then checks k s' else none
    | none => none

/-- The number of dirty slots. -/
def dirtyCount (s : EE) : Nat := s.extCache.countP (·.dirty)

/-! ## Flushing -/

theorem dirtyCount_le (s : EE) : s.dirtyCount ≤ s.numPages := List.countP_le_length

theorem dirtyCount_eq_zero_iff (s : EE) : s.dirtyCount = 0 ↔ ∀ i, i < s.numPages → (s.slot i).dirty = false := by
  simp only [dirtyCount, List.countP_eq_zero, Bool.not_eq_true]
  constructor
  · intro h i hi
    rw [slot_eq_getElem s hi]
    exact h _ (List.getElem_mem _)
  · intro h c hc
    obtain ⟨i, hi, rfl⟩ := List.getElem_of_mem hc
    rw [← slot_eq_getElem s hi]
    exact h i hi

/-- A check that finds a dirty slot leaves one dirty slot fewer. -/
theorem checked_dirtyCount {s s' : EE} {i : Nat} (hi : i < s.numPages) (hd : (s.slot i).dirty = true)
    (hs : s'.extCache = (s.setSlot i { s.slot i with dirty := false }).extCache) : s'.dirtyCount + 1 = s.dirtyCount := by
  have hmem : s.extCache[i] ∈ s.extCache := List.getElem_mem _
  have hd' : (s.extCache[i]).dirty = true := by rw [← slot_eq_getElem s hi]; exact hd
  have hpos : 0 < s.extCache.countP (·.dirty) := List.countP_pos_iff.2 ⟨_, hmem, hd'⟩
  rw [dirtyCount, dirtyCount, hs, setSlot, List.countP_set (by exact hi)]
  simp only [hd', if_true, Bool.false_eq_true, if_false]
  omega

/-- A flush: as many checks as there are dirty slots, each finding one, and a last check that finds none. -/
theorem flush_spec (n : Nat) : ∀ {s : EE}, s.Wf → s.dirtyCount = n →
    ∃ s', s.checks n = some s' ∧ s'.cacheCheck = some (0, s') ∧ (∀ fuel, n < fuel → flushLoop fuel s = some s') ∧
      Unseen s s' ∧ s'.dirtyCount = 0 := by
  induction n with
  | zero =>
    intro s h hn
    have hclean := (dirtyCount_eq_zero_iff s).1 hn
    rcases cacheCheck_cases h with ⟨-, he⟩ | ⟨i, s', hi, hd, -⟩
    · refine ⟨s, rfl, he, ?_, Unseen.refl h, hn⟩
      intro fuel hf
      obtain ⟨fuel, rfl⟩ : ∃ m, fuel = m + 1 := ⟨fuel - 1, by omega⟩
      simp [flushLoop, he]
    · rw [hclean i hi] at hd
      cases hd
  | succ n ih =>
    intro s h hn
    rcases cacheCheck_cases h with ⟨hclean, -⟩ | ⟨i, t, hi, hd, -, he, hr⟩
    · rw [(dirtyCount_eq_zero_iff s).2 hclean] at hn
      cases hn
    · obtain ⟨hwf, hv, hnum⟩ := checked_spec h hi hr
      have hcount := checked_dirtyCount hi hd hr.slots
      obtain ⟨s', hc, h0, hfl, hu, hz⟩ := ih hwf (by omega)
      refine ⟨s', ?_, h0, ?_, Unseen.trans ⟨hwf, hr.token, hnum, hv⟩ hu, hz⟩
      · simp [checks, he, hc]
      · intro fuel hf
        obtain ⟨fuel, rfl⟩ : ∃ m, fuel = m + 1 := ⟨fuel - 1, by omega⟩
        simp [flushLoop, he, hfl fuel (by omega)]

/-- `EE_Cache_Flush` always ends, and is not seen. -/
theorem cacheFlush_spec {s : EE} (h : s.Wf) : ∃ s', s.cacheFlush = some s' ∧ Unseen s s' ∧ s'.dirtyCount = 0 := by
  obtain ⟨s', -, -, hfl, hu, hz⟩ := flush_spec s.dirtyCount h rfl
  exact ⟨s', hfl _ (Nat.lt_succ_of_le (dirtyCount_le s)), hu, hz⟩

/-- Without a dirty slot the flash holds what is seen. -/
theorem flashByte_of_clean {s : EE} (h : s.Wf) (hd : s.dirtyCount = 0) (a : Nat) : s.flashByte a = s.value a := by
  have hclean : ∀ i l, s.abs.line i = some l → l.dirty = false := by
    intro i l hl
    obtain ⟨hi, -, rfl⟩ := abs_line_some hl
    exact (dirtyCount_eq_zero_iff s).1 hd i hi
  rw [value, WriteBack.view_eq_store h.coherent hclean]
  rfl

end EE

/-! ## Runs -/

namespace EEOp

open EE

/-- One call keeps the invariant, and changes what is seen at the address it writes, if that is an address of the token. -/
theorem run_spec (op : EEOp) {s : EE} (h : s.Wf) :
    ∃ s', op.run s = some s' ∧ s'.Wf ∧ s'.token = s.token ∧ s'.numPages = s.numPages ∧
      (op.InRange s.token → ∀ a, a < 512 * s.token.size → s'.value a = (op.writes a).getD (s.value a)) := by
  cases op with
  | read1 b =>
    obtain ⟨v, s', he, hu, -⟩ := read1_spec h b
    exact ⟨s', by simp [run, he], hu.wf, hu.token, hu.numPages, fun _ a _ => hu.value a⟩
  | write1 b d =>
    by_cases hb : b < 512 * s.token.size
    · obtain ⟨s', he, hwf, ht, hn, hv⟩ := write1_value h hb d
      refine ⟨s', he, hwf, ht, hn, ?_⟩
      intro _ a ha
      rw [hv a ha, writes]
      by_cases hba : b = a
      · simp [hba]
      · simp [hba, Ne.symm hba]
    · obtain ⟨s', he, hwf, ht, hn, -⟩ := write1_spec h b d
      exact ⟨s', he, hwf, ht, hn, fun hr => absurd hr hb⟩
  | cacheCheck =>
    obtain ⟨r, s', he, hu⟩ := cacheCheck_spec h
    exact ⟨s', by simp [run, he], hu.wf, hu.token, hu.numPages, fun _ a _ => hu.value a⟩
  | cacheFlush =>
    obtain ⟨s', he, hu, -⟩ := cacheFlush_spec h
    exact ⟨s', he, hu.wf, hu.token, hu.numPages, fun _ a _ => hu.value a⟩

/-- A run keeps the invariant; with addresses of the token, it applies its writes in order. -/
theorem runAll_spec (ops : List EEOp) : ∀ {s : EE}, s.Wf →
    ∃ s', runAll ops s = some s' ∧ s'.Wf ∧ s'.token = s.token ∧ s'.numPages = s.numPages ∧
      ((∀ op ∈ ops, op.InRange s.token) →
        ∀ a, a < 512 * s.token.size → s'.value a = (lastWrite a ops).getD (s.value a)) := by
  induction ops with
  | nil =>
    intro s h
    exact ⟨s, rfl, h, rfl, rfl, fun _ a _ => rfl⟩
  | cons op ops ih =>
    intro s h
    obtain ⟨t, he, hwf, ht, hn, hv⟩ := run_spec op h
    obtain ⟨s', he', hwf', ht', hn', hv'⟩ := ih hwf
    refine ⟨s', by simp [runAll, he, he'], hwf', ht'.trans ht, hn'.trans hn, ?_⟩
    intro hops a ha
    rw [hv' (fun o ho => ht ▸ hops o (List.mem_cons_of_mem _ ho)) a (by rw [ht]; exact ha),
      hv (hops op List.mem_cons_self) a ha, lastWrite]
    cases lastWrite a ops <;> rfl

end EEOp

/-! ## Results -/

/-- The page cache behaves as a byte array: after any run, a read of an address of the token returns the byte the last write
to it wrote, or else the byte the flash held at the start. -/
theorem page_cache_is_byte_array (tk : DFToken) (hf : tk.firstPage + tk.size ≤ 8192) (n : Nat) (hn : 1 ≤ n) (spi : Spi)
    (hi : spi.Idle) (ops : List EEOp) (hops : ∀ op ∈ ops, op.InRange tk) (a : Nat) (ha : a < 512 * tk.size) :
    ∃ s s', EEOp.runAll ops (EE.init tk n spi) = some s ∧
      s.read1 a = some ((EEOp.lastWrite a ops).getD (spi.chip.dev.pages (tk.firstPage + a >>> 9) (a % 512)), s') := by
  obtain ⟨hwf, hv⟩ := EE.init_wf hf hn hi
  obtain ⟨s, he, hwf', ht, -, hval⟩ := EEOp.runAll_spec ops hwf
  obtain ⟨v, s', hr, -, hvv⟩ := EE.read1_spec hwf' a
  have htk : s.token = tk := ht
  have hsz : tk.size ≤ 8192 := by omega
  have hpage : EE.pageOf a = a >>> 9 := by
    rw [EE.pageOf, Nat.shiftRight_eq_div_pow]
    omega
  refine ⟨s, s', he, ?_⟩
  rw [hr, hvv (by rw [htk]; exact EE.pageOf_lt hsz ha), hval hops a ha, hv a, hpage]
  rfl

/-- A fresh cache of one slot over a token of two pages, a byte written and read back. -/
theorem page_cache_is_byte_array_witness :
    ∃ s s', EEOp.runAll [.write1 600 7, .cacheCheck, .read1 3]
        (EE.init ⟨3, 2⟩ 1 (Spi.reset ⟨fun _ _ => 0xFF, fun _ _ => 0, []⟩ 5 [2, 0] 0x25 [])) = some s ∧
      s.read1 600 = some (7, s') :=
  page_cache_is_byte_array ⟨3, 2⟩ (by decide) 1 (by decide) _ (DataFlashAux.reset_idle _ _ _ _ _)
    [.write1 600 7, .cacheCheck, .read1 3] (by simp [EEOp.InRange]) 600 (by decide)

/-- `EE_Cache_Flush` makes flash equal to memory. In every state a run reaches, whatever its addresses, the flush ends after at
most as many successful checks as there are slots, leaves no slot dirty, keeps every byte of the token as `EE_Read1` returns it,
and leaves it so in flash, where a fresh cache of any size finds it; a second flush changes nothing and sends nothing. -/
theorem cache_flush_spec (tk : DFToken) (hf : tk.firstPage + tk.size ≤ 8192) (n : Nat) (hn : 1 ≤ n) (spi : Spi)
    (hi : spi.Idle) (ops : List EEOp) :
    ∃ s, EEOp.runAll ops (EE.init tk n spi) = some s ∧
      ∃ k s', k ≤ n ∧ s.checks k = some s' ∧ s'.cacheCheck = some (0, s') ∧ s.cacheFlush = some s' ∧
        (∀ c ∈ s'.extCache, c.dirty = false) ∧ s'.cacheFlush = some s' ∧
        ∀ a, a < 512 * tk.size → ∃ v, (∃ t, s.read1 a = some (v, t)) ∧ (∃ t, s'.read1 a = some (v, t)) ∧
          s'.spi.chip.dev.pages (tk.firstPage + a >>> 9) (a % 512) = v ∧
          ∀ m, 1 ≤ m → ∃ t, (EE.init tk m s'.spi).read1 a = some (v, t) := by
  obtain ⟨hwf, -⟩ := EE.init_wf hf hn hi
  obtain ⟨s, he, hs, ht, hnum, -⟩ := EEOp.runAll_spec ops hwf
  have htk : s.token = tk := ht
  have hns : s.numPages = n := by rw [hnum, EE.init_numPages]
  obtain ⟨s', hc, h0, hfl, hu, hz⟩ := EE.flush_spec s.dirtyCount hs rfl
  have hle := EE.dirtyCount_le s
  have hsz : tk.size ≤ 8192 := by omega
  refine ⟨s, he, s.dirtyCount, s', by omega, hc, h0, hfl _ (by omega), ?_, ?_, ?_⟩
  · intro c hc'
    simpa using List.countP_eq_zero.1 hz c hc'
  · simp [EE.cacheFlush, EE.flushLoop, h0]
  · intro a ha
    have hpage : EE.pageOf a = a >>> 9 := by
      rw [EE.pageOf, Nat.shiftRight_eq_div_pow]
      omega
    have hlt := EE.pageOf_lt hsz ha
    obtain ⟨v₁, t₁, hr₁, -, hv₁⟩ := EE.read1_spec hs a
    obtain ⟨v₂, t₂, hr₂, -, hv₂⟩ := EE.read1_spec hu.wf a
    have hflash : s'.spi.chip.dev.pages (tk.firstPage + EE.pageOf a) (EE.offsetOf a) = s.value a := by
      rw [← hu.value a, ← EE.flashByte_of_clean hu.wf hz, EE.flashByte, hu.token, htk]
    refine ⟨s.value a, ⟨t₁, ?_⟩, ⟨t₂, ?_⟩, ?_, ?_⟩
    · rw [hr₁, hv₁ (by rw [htk]; exact hlt)]
    · rw [hr₂, hv₂ (by rw [hu.token, htk]; exact hlt), hu.value]
    · rw [← hpage]
      exact hflash
    · intro m hm
      obtain ⟨hwf₃, hval₃⟩ := EE.init_wf hf hm hu.wf.idle
      obtain ⟨v₃, t₃, hr₃, -, hv₃⟩ := EE.read1_spec hwf₃ a
      exact ⟨t₃, by rw [hr₃, hv₃ hlt, hval₃, hflash]⟩

/-- A run with an address outside the token, then a flush. -/
theorem cache_flush_spec_witness :
    ∃ s, EEOp.runAll [.write1 5 1, .write1 70000 2, .read1 0xFFFFFFFF]
        (EE.init ⟨0, 4⟩ 2 (Spi.reset ⟨fun _ _ => 0xFF, fun _ _ => 0, []⟩ 0 [3] 0x25 [])) = some s ∧
      ∃ k s', k ≤ 2 ∧ s.checks k = some s' ∧ s'.cacheCheck = some (0, s') ∧ s.cacheFlush = some s' ∧
        (∀ c ∈ s'.extCache, c.dirty = false) ∧ s'.cacheFlush = some s' ∧
        ∀ a, a < 512 * 4 → ∃ v, (∃ t, s.read1 a = some (v, t)) ∧ (∃ t, s'.read1 a = some (v, t)) ∧
          s'.spi.chip.dev.pages (0 + a >>> 9) (a % 512) = v ∧
          ∀ m, 1 ≤ m → ∃ t, (EE.init ⟨0, 4⟩ m s'.spi).read1 a = some (v, t) :=
  cache_flush_spec ⟨0, 4⟩ (by decide) 2 (by decide) _ (DataFlashAux.reset_idle _ _ _ _ _) _

end PowerMonitor
