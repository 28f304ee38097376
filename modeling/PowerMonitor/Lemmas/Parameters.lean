import PowerMonitor.Lemmas.Eeprom

/-!
# Words of the EEPROM

A parameter is a word of four bytes, the lowest first; `EE_Read4` and `EE_Write4` are four calls of `EE_Read1` and `EE_Write1`,
the reads in an order the compiler chooses.

The firmware only uses addresses of page 0, and the first of them fills slot 0: from then on every access is a hit (`Resident`),
which leaves the bus alone, and slot 0 is the first that `EE_Cache_Check` looks at.
-/

namespace PowerMonitor

namespace EE

/-- The number that the four bytes from an address on stand for. -/
def word (f : Nat → UInt8) (a : Nat) : Nat :=
  (f a).toNat + 256 * (f (a + 1)).toNat + 65536 * (f (a + 2)).toNat + 16777216 * (f (a + 3)).toNat

/-- The bytes after a word has been stored at an address. -/
def putWord (f : Nat → UInt8) (a v : Nat) : Nat → UInt8 :=
  Function.update (Function.update (Function.update (Function.update f a (.ofNat (v % 65536))) (a + 1) (.ofNat (v % 65536 / 256)))
    (a + 2) (.ofNat (v / 65536 % 65536))) (a + 3) (.ofNat (v / 65536 % 65536 / 256))

theorem word_congr {f g : Nat → UInt8} {a : Nat} (h : ∀ i, i < 4 → f (a + i) = g (a + i)) : word f a = word g a := by
  unfold word
  rw [h 1 (by decide), h 2 (by decide), h 3 (by decide), show f a = g a from h 0 (by decide)]

theorem word_lt (f : Nat → UInt8) (a : Nat) : word f a < 2 ^ 32 := by
  have h0 := (f a).toNat_lt
  have h1 := (f (a + 1)).toNat_lt
  have h2 := (f (a + 2)).toNat_lt
  have h3 := (f (a + 3)).toNat_lt
  unfold word
  omega

/-- The word that was stored is read back. -/
theorem word_putWord (f : Nat → UInt8) (a v : Nat) : word (putWord f a v) a = v % 2 ^ 32 := by
  simp [word, putWord]
  omega

/-- Words at other addresses stay. -/
theorem word_putWord_of_disjoint (f : Nat → UInt8) {a b : Nat} (v : Nat) (h : b + 4 ≤ a ∨ a + 4 ≤ b) :
    word (putWord f a v) b = word f b := by
  refine word_congr fun i hi => ?_
  have h0 : b + i ≠ a := by omega
  have h1 : b + i ≠ a + 1 := by omega
  have h2 : b + i ≠ a + 2 := by omega
  have h3 : b + i ≠ a + 3 := by omega
  simp [putWord, h0, h1, h2, h3]

/-! ## Four reads, four writes -/

/-- Bytes below a power of two, and bytes above it. -/
theorem or_mul_two_pow {x k : Nat} (hx : x < 2 ^ k) (y : Nat) : x ||| y * 2 ^ k = x + y * 2 ^ k := by
  rw [Nat.or_comm, Nat.mul_comm, ← Nat.two_pow_add_eq_or_of_lt hx, Nat.add_comm]

section Reads

variable {I J : EE → Prop} (hJ : ∀ t, J t → I t)
include hJ

/-- The order of the operands does not matter for reads that keep what the other relies on. -/
theorem operands_spec {α β : Type} (o : EvalOrder) {f : EE → Option (α × EE)} {g : EE → Option (β × EE)} {v : α} {w : β}
    (hf : ∀ t, I t → ∃ t', f t = some (v, t') ∧ J t') (hg : ∀ t, I t → ∃ t', g t = some (w, t') ∧ J t') {s : EE} (hs : I s) :
    ∃ s', operands o f g s = some ((v, w), s') ∧ J s' := by
  cases o with
  | leftFirst =>
    obtain ⟨t, he, ht⟩ := hf s hs
    obtain ⟨u, he', hu⟩ := hg t (hJ t ht)
    exact ⟨u, by simp [operands, he, he'], hu⟩
  | rightFirst =>
    obtain ⟨t, he, ht⟩ := hg s hs
    obtain ⟨u, he', hu⟩ := hf t (hJ t ht)
    exact ⟨u, by simp [operands, he, he'], hu⟩

theorem read2_spec (o : EvalOrder) {f : Nat → UInt8} {a : Nat} (ha : a + 1 < 2 ^ 32)
    (h : ∀ i, i < 2 → ∀ t, I t → ∃ t', t.read1 (a + i) = some (f (a + i), t') ∧ J t') {s : EE} (hs : I s) :
    ∃ s', s.read2 o a = some ((f a).toNat + (f (a + 1)).toNat * 256, s') ∧ J s' := by
  obtain ⟨s', he, hs'⟩ := operands_spec hJ o (h 0 (by decide)) (h 1 (by decide)) hs
  refine ⟨s', ?_, hs'⟩
  have h0 : (f a).toNat < 2 ^ 8 := (f a).toNat_lt
  have h1 := (f (a + 1)).toNat_lt
  have hor : (f a).toNat ||| (f (a + 1)).toNat * 256 = (f a).toNat + (f (a + 1)).toNat * 256 := or_mul_two_pow h0 _
  rw [Nat.add_zero] at he
  simp only [read2, Nat.mod_eq_of_lt ha, he, Option.bind_eq_bind, Option.bind_some, hor]
  rw [Nat.mod_eq_of_lt (by omega)]

/-- `EE_Read4` returns the word of the bytes `EE_Read1` returns. -/
theorem read4_spec (o o₂ : EvalOrder) {f : Nat → UInt8} {a : Nat} (ha : a + 3 < 2 ^ 32)
    (h : ∀ i, i < 4 → ∀ t, I t → ∃ t', t.read1 (a + i) = some (f (a + i), t') ∧ J t') {s : EE} (hs : I s) :
    ∃ s', s.read4 o o₂ a = some (word f a, s') ∧ J s' := by
  have hlo : ∀ t, I t → _ := fun t ht =>
    read2_spec hJ o₂ (f := f) (a := a) (by omega) (fun i hi => h i (by omega)) (s := t) ht
  have hhi : ∀ t, I t → _ := fun t ht =>
    read2_spec hJ o₂ (f := f) (a := a + 2) (by omega) (fun i hi => by rw [Nat.add_assoc]; exact h (2 + i) (by omega)) (s := t) ht
  obtain ⟨s', he, hs'⟩ := operands_spec hJ o hlo hhi hs
  refine ⟨s', ?_, hs'⟩
  have hb := fun i => (f i).toNat_lt
  have h0 := hb a
  have h1 := hb (a + 1)
  have h2 := hb (a + 2)
  have h3 := hb (a + 2 + 1)
  have hor := or_mul_two_pow (x := (f a).toNat + (f (a + 1)).toNat * 256) (k := 16) (by omega)
    ((f (a + 2)).toNat + (f (a + 2 + 1)).toNat * 256)
  have hlt : (f a).toNat + (f (a + 1)).toNat * 256 + ((f (a + 2)).toNat + (f (a + 2 + 1)).toNat * 256) * 2 ^ 16 < 2 ^ 32 := by
    omega
  have hmod : (a + 2) % 2 ^ 32 = a + 2 := Nat.mod_eq_of_lt (by omega)
  simp only [read4, hmod, he, Option.bind_eq_bind, Option.bind_some, Option.some.injEq, Prod.mk.injEq, and_true]
  rw [show (0x10000 : Nat) = 2 ^ 16 from rfl, hor, Nat.mod_eq_of_lt hlt, word, show a + 3 = a + 2 + 1 from rfl]
  omega

end Reads

/-- `EE_Write4` is four calls of `EE_Write1`. -/
theorem write4_spec {I : (Nat → UInt8) → EE → Prop} {a : Nat} (ha : a + 3 < 2 ^ 32)
    (h : ∀ i, i < 4 → ∀ d f t, I f t → ∃ t', t.write1 (a + i) d = some t' ∧ I (Function.update f (a + i) d) t')
    {f : Nat → UInt8} {s : EE} (hs : I f s) (v : Nat) : ∃ s', s.write4 a v = some s' ∧ I (putWord f a v) s' := by
  obtain ⟨s₁, e₁, h₁⟩ := h 0 (by decide) (.ofNat (v % 65536)) f s hs
  obtain ⟨s₂, e₂, h₂⟩ := h 1 (by decide) (.ofNat (v % 65536 / 256)) _ s₁ h₁
  obtain ⟨s₃, e₃, h₃⟩ := h 2 (by decide) (.ofNat (v / 65536 % 65536)) _ s₂ h₂
  obtain ⟨s₄, e₄, h₄⟩ := h 3 (by decide) (.ofNat (v / 65536 % 65536 / 256)) _ s₃ h₃
  have m₁ : (a + 1) % 2 ^ 32 = a + 1 := Nat.mod_eq_of_lt (by omega)
  have m₂ : (a + 2) % 2 ^ 32 = a + 2 := Nat.mod_eq_of_lt (by omega)
  have m₃ : (a + 2 + 1) % 2 ^ 32 = a + 3 := Nat.mod_eq_of_lt (by omega)
  rw [Nat.add_zero] at e₁
  refine ⟨s₄, ?_, h₄⟩
  simp only [write4, write2, m₁, m₂, m₃, e₁, e₂, e₃, e₄, Option.bind_eq_bind, Option.bind_some]

/-! ## Page 0 in slot 0 -/

/-- Slot 0 holds page 0 of the token. -/
structure Resident (s : EE) : Prop where
  wf : s.Wf
  size : 0 < s.token.size
  page : (s.slot 0).page = 0

/-- `s'` is `s` but for the ages of its slots. -/
structure Aged (s s' : EE) : Prop where
  resident : s'.Resident
  token : s'.token = s.token
  spi : s'.spi = s.spi
  value : s'.value = s.value

theorem Aged.refl {s : EE} (h : s.Resident) : Aged s s := ⟨h, rfl, rfl, rfl⟩

theorem Aged.trans {s s' s'' : EE} (h : Aged s s') (h' : Aged s' s'') : Aged s s'' :=
  ⟨h'.resident, h'.token.trans h.token, h'.spi.trans h.spi, h'.value.trans h.value⟩

theorem pageOf_zero {a : Nat} (h : a < 512) : pageOf a = 0 := Nat.lt_one_iff.mp (pageOf_lt (by decide) (by omega))

/-- With page 0 in slot 0, `ExtCache_Fill` finds it there. -/
theorem fill_resident {s : EE} (h : s.Resident) : ∃ s', s.fill 0 = some (0, s') ∧ Aged s s' := by
  obtain ⟨i₀, t, he, hu, hi₀, hp⟩ := fill_spec h.wf 0
  rcases fill_cases h.wf 0 with ⟨i, hi, -, hfirst, he'⟩ | ⟨k, s', -, hn, -⟩
  · obtain rfl : i = 0 := by
      by_contra hne
      exact hfirst 0 (Nat.pos_of_ne_zero hne) h.page
    rw [he', Option.some.injEq, Prod.mk.injEq] at he
    obtain ⟨rfl, rfl⟩ := he
    exact ⟨_, he', ⟨hu.wf, h.size, hp⟩, rfl, rfl, funext hu.value⟩
  · exact absurd h.page (hn 0 h.wf.pos)

theorem read1_resident {s : EE} (h : s.Resident) {a : Nat} (ha : a < 512) :
    ∃ s', s.read1 a = some (s.value a, s') ∧ Aged s s' := by
  obtain ⟨s', he, haged⟩ := fill_resident h
  obtain ⟨v, t, hr, -, hv⟩ := read1_spec h.wf a
  rw [hv (by rw [pageOf_zero ha]; exact h.size)] at hr
  have ht : s'= t := by
    simp only [read1, pageOf_zero ha, he, Option.bind_eq_bind, Option.bind_some, Option.some.injEq, Prod.mk.injEq] at hr
    exact hr.2
  exact ⟨s', ht ▸ hr, haged⟩

/-- A write to page 0 changes slot 0 and not the bus. -/
theorem write1_resident {s : EE} (h : s.Resident) {a : Nat} (ha : a < 512) (d : UInt8) :
    ∃ s', s.write1 a d = some s' ∧ s'.Resident ∧ s'.token = s.token ∧ s'.spi = s.spi ∧
      ∀ b, b < 512 → s'.value b = if b = a then d else s.value b := by
  have hsize := h.size
  obtain ⟨s', he, hwf, ht, -, hv⟩ := write1_value h.wf (a := a) (by omega) d
  obtain ⟨t₀, hf₀, haged⟩ := fill_resident h
  obtain ⟨i, t, hf, -, hi, hp, hcase⟩ := write1_cases h.wf a d
  rw [pageOf_zero ha] at hf hp
  rw [hf₀, Option.some.injEq, Prod.mk.injEq] at hf
  obtain ⟨rfl, rfl⟩ := hf
  refine ⟨s', he, ?_, ht, ?_, fun b hb => hv b (by omega)⟩
  · refine ⟨hwf, by rw [ht]; exact hsize, ?_⟩
    rcases hcase with ⟨-, he'⟩ | ⟨-, he'⟩
    · rw [he, Option.some.injEq] at he'
      rw [he']
      exact hp
    · rw [he, Option.some.injEq] at he'
      rw [he', setSlot_slot_self _ hi]
      exact hp
  · rcases hcase with ⟨-, he'⟩ | ⟨-, he'⟩ <;> rw [he, Option.some.injEq] at he' <;> rw [he']
    · exact haged.spi
    · exact haged.spi

/-- With page 0 in slot 0, one call of `EE_Cache_Check` makes the page in flash what is seen. -/
theorem cacheCheck_resident {s : EE} (h : s.Resident) :
    ∃ r s', s.cacheCheck = some (r, s') ∧ s'.Resident ∧ s'.token = s.token ∧ s'.value = s.value ∧
      ∀ a, a < 512 → s'.flashByte a = s.value a := by
  have hclean : ∀ t : EE, t.Resident → (t.slot 0).dirty = false → ∀ a, a < 512 → t.flashByte a = t.value a := by
    intro t ht hd a ha
    have hp : (t.slot 0).page < t.token.size := by rw [ht.page]; exact ht.size
    have hl := abs_line ht.wf.pos hp
    rw [value, pageOf_zero ha, ← ht.page, WriteBack.view_of_line ht.wf.coherent hl, ht.wf.coherent.clean 0 _ hl hd,
      flashByte, pageOf_zero ha]
    simp only [abs, cut, ht.page]
  rcases cacheCheck_cases h.wf with ⟨hall, he⟩ | ⟨i, s', hi, hd, hfirst, he, hr⟩
  · exact ⟨0, s, he, h, rfl, rfl, hclean s h (hall 0 h.wf.pos)⟩
  · obtain ⟨hwf, hv, hn⟩ := checked_spec h.wf hi hr
    have hslot : s'.slot 0 = (s.setSlot i { s.slot i with dirty := false }).slot 0 := by rw [slot, slot, hr.slots]
    have h0 : (s'.slot 0).page = 0 ∧ (s'.slot 0).dirty = false := by
      rw [hslot]
      by_cases hi0 : i = 0
      · subst hi0
        rw [setSlot_slot_self s hi]
        exact ⟨h.page, rfl⟩
      · rw [setSlot_slot_of_ne s (Ne.symm hi0)]
        exact ⟨h.page, hfirst 0 (Nat.pos_of_ne_zero hi0)⟩
    have hres : s'.Resident := ⟨hwf, by rw [hr.token]; exact h.size, h0.1⟩
    have hval : s'.value = s.value := funext (Unseen.value ⟨hwf, hr.token, hn, hv⟩)
    exact ⟨1, s', he, hres, hr.token, hval, fun a ha => by rw [hclean s' hres h0.2 a ha, hval]⟩

/-! ## Parameters -/

/-- `EE_Read4` of a word of page 0. -/
theorem read4_resident {s : EE} (h : s.Resident) (o o₂ : EvalOrder) {a : Nat} (ha : a + 3 < 512) :
    ∃ s', s.read4 o o₂ a = some (word s.value a, s') ∧ Aged s s' := by
  refine read4_spec (I := Aged s) (J := Aged s) (fun _ h => h) o o₂ (by omega) ?_ (Aged.refl h)
  intro i hi t ht
  obtain ⟨t', he, haged⟩ := read1_resident ht.resident (a := a + i) (by omega)
  exact ⟨t', by rw [he, ht.value], ht.trans haged⟩

/-- `EE_Read4_Default` of a word of page 0: all ones stand for the default. -/
theorem read4Default_resident {s : EE} (h : s.Resident) (o o₂ : EvalOrder) {a : Nat} (ha : a + 3 < 512) (dflt : Nat) :
    ∃ s', s.read4Default o o₂ a dflt = some (if word s.value a = 0xFFFFFFFF then dflt else word s.value a, s') ∧ Aged s s' := by
  obtain ⟨s', he, haged⟩ := read4_resident h o o₂ ha
  exact ⟨s', by simp only [read4Default, he, Option.bind_eq_bind, Option.bind_some], haged⟩

/-- `EE_Write4` of a word of page 0. -/
theorem write4_resident {s : EE} (h : s.Resident) {a : Nat} (ha : a + 3 < 512) (v : Nat) :
    ∃ s', s.write4 a v = some s' ∧ s'.Resident ∧ s'.token = s.token ∧ s'.spi = s.spi ∧ word s'.value a = v % 2 ^ 32 ∧
      ∀ b, b + 3 < 512 → (b + 4 ≤ a ∨ a + 4 ≤ b) → word s'.value b = word s.value b := by
  obtain ⟨s', he, ⟨hres, ht, hspi, hv⟩⟩ := write4_spec
    (I := fun f t => t.Resident ∧ t.token = s.token ∧ t.spi = s.spi ∧ ∀ b, b < 512 → t.value b = f b) (a := a) (by omega)
    (fun i hi d f t ⟨hr, ht, hs, hv⟩ => by
      obtain ⟨t', he, hr', ht', hs', hv'⟩ := write1_resident hr (a := a + i) (by omega) d
      refine ⟨t', he, hr', ht'.trans ht, hs'.trans hs, fun b hb => ?_⟩
      rw [hv' b hb, Function.update_apply, hv b hb])
    (f := s.value) (s := s) ⟨h, rfl, rfl, fun _ _ => rfl⟩ v
  refine ⟨s', he, hres, ht, hspi, ?_, ?_⟩
  · rw [word_congr fun i hi => hv (a + i) (by omega), word_putWord]
  · intro b hb hd
    rw [word_congr fun i hi => hv (b + i) (by omega), word_putWord_of_disjoint _ v hd]

/-! ## The first access -/

/-- The first access to page 0 of a fresh cache fills slot 0: no slot is older. -/
theorem read1_init {tk : DFToken} (hf : tk.Fits) (hs : 0 < tk.size) {n : Nat} (hn : 1 ≤ n) {spi : Spi} (hi : spi.Idle) {a : Nat}
    (ha : a < 512) :
    ∃ s', (init tk n spi).read1 a = some ((init tk n spi).value a, s') ∧ s'.Resident ∧ s'.token = tk ∧
      s'.spi.chip.dev = spi.chip.dev ∧ s'.value = (init tk n spi).value := by
  obtain ⟨hwf, -⟩ := init_wf hf hn hi
  have hslot : ∀ i, i < n → (init tk n spi).slot i = .blank := fun i hi => init_slot tk n spi hi
  have hnum := init_numPages tk n spi
  obtain ⟨v, s', hr, hu, hv⟩ := read1_spec hwf a
  have hpg := pageOf_zero ha
  rw [hv (by rw [hpg]; exact hs)] at hr
  rcases fill_cases hwf 0 with ⟨i, hi', hp, -⟩ | ⟨k, t, hk, hn', hscan, he, hrep⟩
  · rw [hslot i (hnum ▸ hi')] at hp
    cases hp
  · obtain rfl : t = s' := by
      simp only [read1, hpg, he, Option.bind_eq_bind, Option.bind_some, Option.some.injEq, Prod.mk.injEq] at hr
      exact hr.2
    have hk0 : k = 0 := by
      have hage : ∀ c ∈ (init tk n spi).ageCache.extCache, c = .blank := by
        intro c hc
        obtain ⟨c', hc', rfl⟩ := List.mem_map.mp hc
        rw [(List.mem_replicate.mp hc').2]
        rfl
      rw [ageCache_slot _ hwf.pos, hslot 0 hn, scan_oldest fun c hc => by rw [hage c hc]; decide] at hscan
      exact (Sum.inr.inj hscan).symm
    subst hk0
    obtain ⟨-, -, -, hs0⟩ := replaced_spec hwf hk hn' hrep
    -- an empty slot is dirty, but its page is outside the token
    have hblank : (init tk n spi).evicted 0 = spi.chip.dev := by
      unfold DFToken.Fits at hf
      rw [evicted, hslot 0 hn, if_neg]
      · rfl
      · rintro ⟨-, hp⟩
        have hp' : 0xFFFF < tk.size := hp
        omega
    exact ⟨t, hr, ⟨hu.wf, by rw [hu.token]; exact hs, by rw [hs0]; rfl⟩, hu.token, hrep.dev.trans hblank, funext hu.value⟩

/-- `EE_Read4_Default` as the first access to a fresh cache. -/
theorem read4Default_init {tk : DFToken} (hf : tk.Fits) (hs : 0 < tk.size) {n : Nat} (hn : 1 ≤ n) {spi : Spi} (hi : spi.Idle)
    (o o₂ : EvalOrder) {a : Nat} (ha : a + 3 < 512) (dflt : Nat) :
    ∃ s', (init tk n spi).read4Default o o₂ a dflt =
        some (if word s'.value a = 0xFFFFFFFF then dflt else word s'.value a, s') ∧
      s'.Resident ∧ s'.token = tk ∧ s'.spi.chip.dev = spi.chip.dev ∧ s'.value = (init tk n spi).value := by
  let J : EE → Prop := fun t =>
    t.Resident ∧ t.token = tk ∧ t.spi.chip.dev = spi.chip.dev ∧ t.value = (init tk n spi).value
  obtain ⟨s', he, hr, ht, hd, hv⟩ := read4_spec (I := fun t => t = init tk n spi ∨ J t) (J := J) (fun _ h => Or.inr h) o o₂
    (f := (init tk n spi).value) (a := a) (by omega) (by
      rintro i hi' t (rfl | ⟨hr, ht, hd, hv⟩)
      · exact read1_init hf hs hn hi (by omega)
      · obtain ⟨t', he, haged⟩ := read1_resident hr (a := a + i) (by omega)
        exact ⟨t', by rw [he, hv], haged.resident, haged.token.trans ht, by rw [haged.spi]; exact hd, haged.value.trans hv⟩)
    (Or.inl rfl)
  refine ⟨s', ?_, hr, ht, hd, hv⟩
  rw [hv]
  simp only [read4Default, he, Option.bind_eq_bind, Option.bind_some]

end EE

end PowerMonitor
