import PowerMonitor.Firmware.Eeprom
import PowerMonitor.Lemmas.DataFlash
import PowerMonitor.Lib.WriteBack

/-!
# The page cache refines a write-back cache

A slot that holds a page of the token is a line of an abstract write-back cache (`WriteBack`) over the token's pages in flash; a
slot that holds any other page number (the 0xFFFF of an empty slot, a page outside the token) is a line out of use, because the
driver refuses every transfer for it. `ExtCache_Fill` is then a write-back, a drop and a load, none of which is seen, and the
invariant of a whole run is `EE.Wf`: the abstract cache is coherent.
-/

namespace PowerMonitor

namespace EE

/-- The bytes of a page that the cache keeps: the first 512. -/
def cut (b : Bytes) : Fin 512 → UInt8 := fun k => b k

/-- The line of the abstract cache a slot stands for. -/
def lineOf (tk : DFToken) (c : EECachePage) : Option (CacheLine Nat (Fin 512 → UInt8)) :=
  if c.page < tk.size then some ⟨c.page, c.dirty, cut c.buf⟩ else none

/-- The abstract cache: the slots over the pages of the token. -/
def abs (s : EE) : WriteBack Nat Nat (Fin 512 → UInt8) where
  line i := if i < s.numPages then lineOf s.token (s.slot i) else none
  store p := cut (s.spi.chip.dev.pages (s.token.firstPage + p))

/-- The invariant of the cache: the token's pages are pages of the chip, there is a slot, the bus is between two commands, and the
abstract cache is coherent. -/
structure Wf (s : EE) : Prop where
  fits : s.token.Fits
  pos : 0 < s.numPages
  idle : s.spi.Idle
  coherent : s.abs.Coherent

/-- What the calls of the cache need to return, whatever the token: a slot, and a bus between two commands. -/
structure Runs (s : EE) : Prop where
  pos : 0 < s.numPages
  idle : s.spi.Idle

theorem Wf.runs {s : EE} (h : s.Wf) : s.Runs := ⟨h.pos, h.idle⟩

/-- The device after slot `k` has been written back, which only happens to a dirty slot with a page of the token. -/
def evicted (s : EE) (k : Nat) : Device :=
  if (s.slot k).dirty = true ∧ (s.slot k).page < s.token.size then
    (s.spi.chip.dev.load .buffer2 0 eePageSize (s.slot k).buf).program .buffer2 (s.token.firstPage + (s.slot k).page)
  else s.spi.chip.dev

/-- What a slot with the bytes `old` holds after the page has been read into it. -/
def loaded (s : EE) (page : Nat) (old : Bytes) : Bytes :=
  if page < s.token.size then
    fun j => if j < eePageSize then s.spi.chip.dev.pages (s.token.firstPage + page) j else old j
  else old

/-! ## Slots -/

theorem slot_eq_getElem (s : EE) {i : Nat} (h : i < s.extCache.length) : s.slot i = s.extCache[i] := by
  rw [slot, List.getD_eq_getElem?_getD, List.getElem?_eq_getElem h, Option.getD_some]

@[simp] theorem setSlot_numPages (s : EE) (i : Nat) (c : EECachePage) : (s.setSlot i c).numPages = s.numPages := by
  simp [setSlot, numPages]

@[simp] theorem setSlot_token (s : EE) (i : Nat) (c : EECachePage) : (s.setSlot i c).token = s.token := rfl

@[simp] theorem setSlot_spi (s : EE) (i : Nat) (c : EECachePage) : (s.setSlot i c).spi = s.spi := rfl

theorem setSlot_slot_self (s : EE) {i : Nat} (h : i < s.numPages) (c : EECachePage) : (s.setSlot i c).slot i = c := by
  rw [slot_eq_getElem _ ((setSlot_numPages s i c).symm ▸ h : i < (s.setSlot i c).numPages)]
  exact List.getElem_set_self _

theorem setSlot_slot_of_ne (s : EE) {i j : Nat} (h : j ≠ i) (c : EECachePage) : (s.setSlot i c).slot j = s.slot j := by
  simp [slot, setSlot, List.getElem?_set_ne (Ne.symm h)]

@[simp] theorem ageCache_numPages (s : EE) : s.ageCache.numPages = s.numPages := by simp [ageCache, numPages]

@[simp] theorem ageCache_token (s : EE) : s.ageCache.token = s.token := rfl

@[simp] theorem ageCache_spi (s : EE) : s.ageCache.spi = s.spi := rfl

theorem ageCache_slot (s : EE) {i : Nat} (h : i < s.numPages) : s.ageCache.slot i = age (s.slot i) := by
  rw [slot_eq_getElem _ ((ageCache_numPages s).symm ▸ h : i < s.ageCache.numPages), slot_eq_getElem _ h]
  exact List.getElem_map _

@[simp] theorem age_page (c : EECachePage) : (age c).page = c.page := by unfold age; split <;> rfl

@[simp] theorem age_dirty (c : EECachePage) : (age c).dirty = c.dirty := by unfold age; split <;> rfl

@[simp] theorem age_buf (c : EECachePage) : (age c).buf = c.buf := by unfold age; split <;> rfl

/-- Ageing is not seen by the abstract cache. -/
@[simp] theorem abs_ageCache (s : EE) : s.ageCache.abs = s.abs := by
  simp only [abs, ageCache_numPages, ageCache_token, ageCache_spi, WriteBack.mk.injEq, and_true]
  funext i
  by_cases h : i < s.numPages
  · simp [h, ageCache_slot s h, lineOf]
  · simp [h]

theorem wf_ageCache {s : EE} (h : s.Wf) : s.ageCache.Wf :=
  ⟨h.fits, by simpa using h.pos, h.idle, by simpa using h.coherent⟩

/-- A store to a slot is a change of one line. -/
theorem abs_setSlot (s : EE) {i : Nat} (h : i < s.numPages) (c : EECachePage) :
    (s.setSlot i c).abs = s.abs.setLine i (lineOf s.token c) := by
  simp only [abs, WriteBack.setLine, setSlot_numPages, setSlot_token, setSlot_spi, WriteBack.mk.injEq, and_true]
  funext j
  by_cases hj : j = i
  · subst hj
    simp [h, setSlot_slot_self s h]
  · simp [hj, setSlot_slot_of_ne s hj]

/-- The line of a slot that holds a page of the token. -/
theorem abs_line {s : EE} {i : Nat} (h : i < s.numPages) (hp : (s.slot i).page < s.token.size) :
    s.abs.line i = some ⟨(s.slot i).page, (s.slot i).dirty, cut (s.slot i).buf⟩ := by
  simp [abs, h, lineOf, hp]

/-- A line in use is a slot that holds a page of the token. -/
theorem abs_line_some {s : EE} {i : Nat} {l : CacheLine Nat (Fin 512 → UInt8)} (h : s.abs.line i = some l) :
    i < s.numPages ∧ (s.slot i).page < s.token.size ∧ l = ⟨(s.slot i).page, (s.slot i).dirty, cut (s.slot i).buf⟩ := by
  simp only [abs, lineOf] at h
  split at h
  · rename_i hi
    split at h
    · rename_i hp
      exact ⟨hi, hp, (Option.some.inj h).symm⟩
    · cases h
  · cases h

/-! ## The search -/

/-- The search ends at the first slot that holds the page. -/
theorem scan_inl {page : Nat} {l : List EECachePage} {i o n j : Nat} (h : scan page l i o n = .inl j) :
    ∃ m, j = i + m ∧ ∃ hm : m < l.length, (l[m]).page = page ∧ ∀ q (hq : q < m), (l[q]).page ≠ page := by
  induction l generalizing i o n with
  | nil => cases h
  | cons ptr rest ih =>
    rw [scan] at h
    split at h
    · rename_i hp
      cases h
      exact ⟨0, rfl, by simp, hp, fun q hq => absurd hq (Nat.not_lt_zero q)⟩
    · rename_i hp
      have hrest : ∃ o' n', scan page rest (i + 1) o' n' = .inl j := by
        split at h
        · exact ⟨_, _, h⟩
        · exact ⟨_, _, h⟩
      obtain ⟨o', n', hr⟩ := hrest
      obtain ⟨m, rfl, hm, hpm, hfirst⟩ := ih hr
      refine ⟨m + 1, by omega, by simpa using hm, by simpa using hpm, ?_⟩
      intro q hq
      cases q with
      | zero => exact hp
      | succ q => exact hfirst q (by omega)

/-- A search that finds nothing has seen that no slot holds the page, and returns the slot to replace. -/
theorem scan_inr {page : Nat} {l : List EECachePage} {i o n k : Nat} (h : scan page l i o n = .inr k) :
    (∀ c ∈ l, c.page ≠ page) ∧ (k = o ∨ (i ≤ k ∧ k < i + l.length)) := by
  induction l generalizing i o n with
  | nil =>
    cases h
    exact ⟨fun _ hc => absurd hc List.not_mem_nil, Or.inl rfl⟩
  | cons ptr rest ih =>
    rw [scan] at h
    split at h
    · cases h
    · rename_i hp
      have hall : (∀ c ∈ rest, c.page ≠ page) → ∀ c ∈ ptr :: rest, c.page ≠ page := by
        intro hr c hc
        rcases List.mem_cons.1 hc with rfl | hc
        · exact hp
        · exact hr c hc
      rw [List.length_cons]
      split at h
      · obtain ⟨hr, hk⟩ := ih h
        exact ⟨hall hr, Or.inr (by omega)⟩
      · obtain ⟨hr, hk⟩ := ih h
        exact ⟨hall hr, by omega⟩

/-- A search that finds nothing returns the slot it started with when no other is older. -/
theorem scan_oldest {page : Nat} {l : List EECachePage} {i o n : Nat} (h : ∀ c ∈ l, c.page ≠ page ∧ c.count ≤ n) :
    scan page l i o n = .inr o := by
  induction l generalizing i with
  | nil => rfl
  | cons ptr rest ih =>
    obtain ⟨hp, hc⟩ := h ptr List.mem_cons_self
    rw [scan, if_neg hp, if_neg (Nat.not_lt.mpr hc)]
    exact ih fun c hc => h c (List.mem_cons_of_mem ptr hc)

/-- The search of `ExtCache_Fill`: a slot that holds the page, or no slot does and some slot is to be replaced. -/
theorem scan_cases {s : EE} (h : 0 < s.numPages) (page : Nat) :
    (∃ i, scan page s.ageCache.extCache 0 0 (s.ageCache.slot 0).count = .inl i ∧ i < s.numPages ∧
        (s.slot i).page = page ∧ ∀ j, j < i → (s.slot j).page ≠ page) ∨
      (∃ k, scan page s.ageCache.extCache 0 0 (s.ageCache.slot 0).count = .inr k ∧ k < s.numPages ∧
        ∀ j, j < s.numPages → (s.slot j).page ≠ page) := by
  have hpage : ∀ j (hj : j < s.ageCache.extCache.length), (s.ageCache.extCache[j]).page = (s.slot j).page := by
    intro j hj
    have hj' : j < s.numPages := by simpa using (show j < s.ageCache.numPages from hj)
    have := ageCache_slot s hj'
    rw [slot_eq_getElem _ hj] at this
    rw [this, age_page]
  cases hs : scan page s.ageCache.extCache 0 0 (s.ageCache.slot 0).count with
  | inl i =>
    obtain ⟨m, rfl, hm, hp, hf⟩ := scan_inl hs
    have hm' : m < s.numPages := by simpa using (show m < s.ageCache.numPages from hm)
    refine Or.inl ⟨_, rfl, by simpa using hm', by simpa [hpage m hm] using hp, ?_⟩
    intro j hj
    have hjm : j < m := by simpa using hj
    rw [← hpage j (by omega)]
    exact hf j hjm
  | inr k =>
    obtain ⟨hall, hk⟩ := scan_inr hs
    have hlen : s.ageCache.extCache.length = s.numPages := ageCache_numPages s
    refine Or.inr ⟨k, rfl, by omega, ?_⟩
    intro j hj
    rw [← hpage j (by omega)]
    exact hall _ (List.getElem_mem _)

/-! ## The driver calls of the cache -/

theorem eePageSize_le : 0 + eePageSize ≤ 528 := by decide

/-- The two halves of a write-back, refused for a page outside the token. -/
theorem writeBack_calls {s : EE} (hf : s.token.Fits) (hi : s.spi.Idle) {k : Nat} (hd : (s.slot k).dirty = true) :
    ∃ spi₁, DataFlash.bufferWrite s.token (s.slot k).page 0 eePageSize .buffer2 (s.slot k).buf s.spi = some spi₁ ∧
      spi₁.Idle ∧ spi₁.chip.dev.pages = s.spi.chip.dev.pages ∧
      ∀ spi₂ : Spi, spi₂.Idle → spi₂.chip.dev = spi₁.chip.dev →
        ∃ spi₃, DataFlash.writeBufferToFlash s.token (s.slot k).page .buffer2 spi₂ = some spi₃ ∧ spi₃.Idle ∧
          spi₃.chip.dev = s.evicted k := by
  by_cases hp : (s.slot k).page < s.token.size
  · obtain ⟨spi₁, he₁, hi₁, hd₁, -⟩ := DataFlash.bufferWrite_spec hp eePageSize_le .buffer2 (s.slot k).buf hi
    refine ⟨spi₁, he₁, hi₁, by rw [hd₁]; rfl, ?_⟩
    intro spi₂ hi₂ hd₂
    obtain ⟨spi₃, he₃, hi₃, hd₃, -⟩ := DataFlash.writeBufferToFlash_spec hf hp .buffer2 hi₂
    exact ⟨spi₃, he₃, hi₃, by rw [hd₃, hd₂, hd₁, evicted, if_pos ⟨hd, hp⟩]⟩
  · have href := DataFlash.refused s.token (Nat.le_of_not_lt hp) 0 eePageSize .buffer2 (s.slot k).buf
    refine ⟨s.spi, (href s.spi).2.2.2.2, hi, rfl, ?_⟩
    intro spi₂ hi₂ hd₂
    exact ⟨spi₂, (href spi₂).2.2.1, hi₂, by rw [hd₂, evicted, if_neg (fun h => hp h.2)]⟩

/-- Reading a page into a slot, refused for a page outside the token. -/
theorem load_call {s : EE} (hf : s.token.Fits) (page : Nat) (old : Bytes) {spi : Spi} (hi : spi.Idle)
    (hpages : spi.chip.dev.pages = s.spi.chip.dev.pages) :
    ∃ spi', DataFlash.readPageDirect s.token page 0 eePageSize old spi = some (s.loaded page old, spi') ∧ spi'.Idle ∧
      spi'.chip.dev = spi.chip.dev := by
  by_cases hp : page < s.token.size
  · obtain ⟨spi', he, hi', hd, -⟩ := DataFlash.readPageDirect_spec hf hp eePageSize_le old hi
    refine ⟨spi', ?_, hi', hd⟩
    rw [he, loaded, if_pos hp, hpages]
    simp only [Nat.zero_add]
  · refine ⟨spi, ?_, hi, rfl⟩
    rw [(DataFlash.refused s.token (Nat.le_of_not_lt hp) 0 eePageSize .buffer2 old spi).1, loaded, if_neg hp]

/-- Slot `k` after it has been replaced by `page`. -/
def fresh (s : EE) (page k : Nat) : EECachePage :=
  { page := page, dirty := false, count := 0, buf := s.loaded page (s.slot k).buf }

/-- The state after slot `k` has been replaced by `page`: the slots, the device and the bus. -/
structure Replaced (s : EE) (page k : Nat) (s' : EE) : Prop where
  token : s'.token = s.token
  slots : s'.extCache = (s.ageCache.setSlot k (s.fresh page k)).extCache
  idle : s'.spi.Idle
  dev : s'.spi.chip.dev = s.evicted k

/-- What `ExtCache_Fill` does: a hit resets the age of the slot found; a miss replaces a slot. -/
theorem fill_cases {s : EE} (h : s.Wf) (page : Nat) :
    (∃ i, i < s.numPages ∧ (s.slot i).page = page ∧ (∀ j, j < i → (s.slot j).page ≠ page) ∧
        s.fill page = some (i, s.ageCache.setSlot i { age (s.slot i) with count := 0 })) ∨
      (∃ k s', k < s.numPages ∧ (∀ j, j < s.numPages → (s.slot j).page ≠ page) ∧
        scan page s.ageCache.extCache 0 0 (s.ageCache.slot 0).count = .inr k ∧ s.fill page = some (k, s') ∧
        Replaced s page k s') := by
  rcases scan_cases h.pos page with ⟨i, hs, hi, hp, hf⟩ | ⟨k, hs, hk, hn⟩
  · refine Or.inl ⟨i, hi, hp, hf, ?_⟩
    simp only [fill, hs, ageCache_slot s hi]
  · right
    have hold : s.ageCache.slot k = age (s.slot k) := ageCache_slot s hk
    by_cases hd : (s.slot k).dirty = true
    · obtain ⟨spi₁, he₁, hi₁, hpg, hprog⟩ := writeBack_calls h.fits h.idle hd
      obtain ⟨spi₂, he₂, hi₂, hd₂⟩ := load_call h.fits page (s.slot k).buf hi₁ hpg
      obtain ⟨spi₃, he₃, hi₃, hd₃⟩ := hprog spi₂ hi₂ hd₂
      refine ⟨k, { s.ageCache.setSlot k (s.fresh page k) with spi := spi₃, flushDelay := 50 }, hk, hn, hs, ?_,
        ⟨rfl, rfl, hi₃, hd₃⟩⟩
      simp only [fill, hs, hold, age_dirty, age_page, age_buf, hd, ageCache_token, ageCache_spi, he₁, he₂, he₃,
        Option.bind_eq_bind, Option.bind_some, Bool.true_eq_false, if_false]
      rfl
    · have hd' : (s.slot k).dirty = false := by simpa using hd
      obtain ⟨spi₂, he₂, hi₂, hd₂⟩ := load_call h.fits page (s.slot k).buf h.idle rfl
      refine ⟨k, { s.ageCache.setSlot k (s.fresh page k) with spi := spi₂ }, hk, hn, hs, ?_,
        ⟨rfl, rfl, hi₂, ?_⟩⟩
      · simp only [fill, hs, hold, age_dirty, age_buf, hd', ageCache_token, ageCache_spi, he₂, Option.bind_eq_bind,
          Option.bind_some, if_true]
        rfl
      · rw [hd₂, evicted, if_neg (fun e => hd e.1)]

/-- With any token `ExtCache_Fill` returns, and a miss leaves in the slot replaced the page and an age of 0. -/
theorem fill_returns {s : EE} (h : s.Runs) (page : Nat) :
    (∃ i, i < s.numPages ∧ (s.slot i).page = page ∧
        s.fill page = some (i, s.ageCache.setSlot i { age (s.slot i) with count := 0 })) ∨
      (∃ k s' c, k < s.numPages ∧ (∀ j, j < s.numPages → (s.slot j).page ≠ page) ∧
        scan page s.ageCache.extCache 0 0 (s.ageCache.slot 0).count = .inr k ∧ s.fill page = some (k, s') ∧ s'.spi.Idle ∧
        s'.extCache = (s.ageCache.setSlot k c).extCache ∧ c.page = page ∧ c.count = 0) := by
  rcases scan_cases h.pos page with ⟨i, hs, hi, hp, -⟩ | ⟨k, hs, hk, hn⟩
  · refine Or.inl ⟨i, hi, hp, ?_⟩
    simp only [fill, hs, ageCache_slot s hi]
  · right
    have hold : s.ageCache.slot k = age (s.slot k) := ageCache_slot s hk
    by_cases hd : (s.slot k).dirty = true
    · obtain ⟨spi₁, he₁, hi₁⟩ := DataFlash.bufferWrite_idle s.token (s.slot k).page eePageSize_le .buffer2 (s.slot k).buf h.idle
      obtain ⟨buf, spi₂, he₂, hi₂⟩ := DataFlash.readPageDirect_idle s.token page eePageSize_le (s.slot k).buf hi₁
      obtain ⟨spi₃, he₃, hi₃⟩ := DataFlash.writeBufferToFlash_idle s.token (s.slot k).page .buffer2 hi₂
      let c : EECachePage := { page := page, dirty := false, count := 0, buf := buf }
      refine ⟨k, { s.ageCache.setSlot k c with spi := spi₃, flushDelay := 50 }, c, hk, hn, hs, ?_, hi₃, rfl, rfl, rfl⟩
      simp only [fill, hs, hold, age_dirty, age_page, age_buf, hd, ageCache_token, ageCache_spi, he₁, he₂, he₃,
        Option.bind_eq_bind, Option.bind_some, Bool.true_eq_false, if_false]
      rfl
    · have hd' : (s.slot k).dirty = false := by simpa using hd
      obtain ⟨buf, spi₂, he₂, hi₂⟩ := DataFlash.readPageDirect_idle s.token page eePageSize_le (s.slot k).buf h.idle
      let c : EECachePage := { page := page, dirty := false, count := 0, buf := buf }
      refine ⟨k, { s.ageCache.setSlot k c with spi := spi₂ }, c, hk, hn, hs, ?_, hi₂, rfl, rfl, rfl⟩
      simp only [fill, hs, hold, age_dirty, age_buf, hd', ageCache_token, ageCache_spi, he₂, Option.bind_eq_bind,
        Option.bind_some, if_true]
      rfl

/-- The state after slot `i` has been written back. -/
structure Checked (s : EE) (i : Nat) (s' : EE) : Prop where
  token : s'.token = s.token
  slots : s'.extCache = (s.setSlot i { s.slot i with dirty := false }).extCache
  idle : s'.spi.Idle
  dev : s'.spi.chip.dev = s.evicted i

/-- What `EE_Cache_Check` does: nothing without a dirty slot, else the first dirty slot is written back. -/
theorem cacheCheck_cases {s : EE} (h : s.Wf) :
    ((∀ i, i < s.numPages → (s.slot i).dirty = false) ∧ s.cacheCheck = some (0, s)) ∨
      (∃ i s', i < s.numPages ∧ (s.slot i).dirty = true ∧ (∀ j, j < i → (s.slot j).dirty = false) ∧
        s.cacheCheck = some (1, s') ∧ Checked s i s') := by
  cases hf : s.extCache.findIdx? (·.dirty) with
  | none =>
    refine Or.inl ⟨?_, by simp only [cacheCheck, hf]⟩
    intro i hi
    rw [slot_eq_getElem s hi]
    exact List.findIdx?_eq_none_iff.1 hf _ (List.getElem_mem _)
  | some i =>
    obtain ⟨hi, hd, hfirst⟩ := List.findIdx?_eq_some_iff_getElem.1 hf
    have hd' : (s.slot i).dirty = true := by rw [slot_eq_getElem s hi]; exact hd
    obtain ⟨spi₁, he₁, hi₁, -, hprog⟩ := writeBack_calls h.fits h.idle hd'
    obtain ⟨spi₃, he₃, hi₃, hd₃⟩ := hprog spi₁ hi₁ rfl
    refine Or.inr ⟨i, { s.setSlot i { s.slot i with dirty := false } with spi := spi₃ }, hi, hd', ?_, ?_,
      ⟨rfl, rfl, hi₃, hd₃⟩⟩
    · intro j hj
      rw [slot_eq_getElem s (Nat.lt_trans hj hi)]
      exact Bool.eq_false_iff.2 (hfirst j hj)
    · simp only [cacheCheck, hf, he₁, he₃, Option.bind_eq_bind, Option.bind_some]

/-- With any token `EE_Cache_Check` returns, and cleans the first dirty slot, if there is one. -/
theorem cacheCheck_returns {s : EE} (h : s.Runs) :
    ((∀ i, i < s.numPages → (s.slot i).dirty = false) ∧ s.cacheCheck = some (0, s)) ∨
      (∃ i s', i < s.numPages ∧ (s.slot i).dirty = true ∧ s.cacheCheck = some (1, s') ∧ s'.spi.Idle ∧
        s'.extCache = (s.setSlot i { s.slot i with dirty := false }).extCache) := by
  cases hf : s.extCache.findIdx? (·.dirty) with
  | none =>
    refine Or.inl ⟨fun i hi => ?_, by simp only [cacheCheck, hf]⟩
    rw [slot_eq_getElem s hi]
    exact List.findIdx?_eq_none_iff.1 hf _ (List.getElem_mem _)
  | some i =>
    obtain ⟨hi, hd, -⟩ := List.findIdx?_eq_some_iff_getElem.1 hf
    obtain ⟨spi₁, he₁, hi₁⟩ := DataFlash.bufferWrite_idle s.token (s.slot i).page eePageSize_le .buffer2 (s.slot i).buf h.idle
    obtain ⟨spi₂, he₂, hi₂⟩ := DataFlash.writeBufferToFlash_idle s.token (s.slot i).page .buffer2 hi₁
    refine Or.inr ⟨i, { s.setSlot i { s.slot i with dirty := false } with spi := spi₂ }, hi, ?_, ?_, hi₂, rfl⟩
    · rw [slot_eq_getElem s hi]
      exact hd
    · simp only [cacheCheck, hf, he₁, he₂, Option.bind_eq_bind, Option.bind_some]

/-! ## Refinement -/

/-- The store of the abstract cache after slot `k` has been written back. -/
theorem evicted_store (s : EE) (k : Nat) :
    (fun p => cut ((s.evicted k).pages (s.token.firstPage + p))) =
      if (s.slot k).dirty = true ∧ (s.slot k).page < s.token.size then
        Function.update s.abs.store (s.slot k).page (cut (s.slot k).buf)
      else s.abs.store := by
  by_cases hc : (s.slot k).dirty = true ∧ (s.slot k).page < s.token.size
  · simp only [evicted, if_pos hc]
    funext p
    by_cases hp : p = (s.slot k).page
    · subst hp
      rw [Function.update_self]
      funext j
      have hj : ¬eePageSize ≤ (j : Nat) := Nat.not_le_of_lt j.isLt
      simp [cut, Device.program, Device.load, hj]
    · simp [Device.program, Device.load, hp, abs]
  · simp only [evicted, if_neg hc]
    rfl

/-- Reading a page of the token into a slot gives the slot the page's value in the store. -/
theorem cut_loaded {s : EE} {page : Nat} (hp : page < s.token.size) (old : Bytes) :
    cut (s.loaded page old) = s.abs.store page := by
  funext j
  have hj : (j : Nat) < eePageSize := j.isLt
  simp [cut, loaded, hp, hj, abs]

theorem slots_congr {s s' : EE} (hs : s'.extCache = s.extCache) : s'.numPages = s.numPages ∧ s'.slot = s.slot :=
  ⟨congrArg List.length hs, funext fun i => by simp only [slot, hs]⟩

/-- Two states with the same token, slots and pages have the same abstract cache. -/
theorem abs_congr {s s' : EE} (ht : s'.token = s.token) (hs : s'.extCache = s.extCache) :
    s'.abs.line = s.abs.line ∧ s'.numPages = s.numPages ∧ s'.slot = s.slot := by
  obtain ⟨hnum, hslot⟩ := slots_congr hs
  exact ⟨by simp only [abs, hnum, hslot, ht], hnum, hslot⟩

/-- The write-back of slot `k`, as an operation on the abstract cache. -/
theorem evict_line {s : EE} (h : s.Wf) {k : Nat} (hk : k < s.numPages) :
    ∃ c : WriteBack Nat Nat (Fin 512 → UInt8), c.Coherent ∧ c.view = s.abs.view ∧ (∀ j, j ≠ k → c.line j = s.abs.line j) ∧
      (c.line k = if (s.slot k).page < s.token.size then some ⟨(s.slot k).page, false, cut (s.slot k).buf⟩ else none) ∧
      c.store = fun p => cut ((s.evicted k).pages (s.token.firstPage + p)) := by
  rw [evicted_store]
  by_cases hp : (s.slot k).page < s.token.size
  · have hl := abs_line hk hp
    by_cases hd : (s.slot k).dirty = true
    · refine ⟨s.abs.writeBack k _, WriteBack.coherent_writeBack h.coherent hl, WriteBack.view_writeBack h.coherent hl, ?_, ?_, ?_⟩
      · intro j hj
        simp [WriteBack.writeBack, hj]
      · simp [WriteBack.writeBack, hp]
      · simp [WriteBack.writeBack, hp, hd]
    · refine ⟨s.abs, h.coherent, rfl, fun _ _ => rfl, ?_, by simp [hd]⟩
      rw [hl, if_pos hp]
      simpa using hd
  · refine ⟨s.abs, h.coherent, rfl, fun _ _ => rfl, ?_, by simp [hp]⟩
    simp [abs, lineOf, hp]

/-- The abstract cache after a replacement: the line of the slot is set in the cache that the write-back leaves. -/
theorem replaced_abs {s s' : EE} {page k : Nat} (hk : k < s.numPages) (hr : Replaced s page k s')
    {c : WriteBack Nat Nat (Fin 512 → UInt8)} (hother : ∀ j, j ≠ k → c.line j = s.abs.line j)
    (hstore : c.store = fun p => cut ((s.evicted k).pages (s.token.firstPage + p))) :
    s'.abs = c.setLine k (lineOf s.token (s.fresh page k)) := by
  have hk' : k < s.ageCache.numPages := by simpa using hk
  obtain ⟨hl, -, -⟩ := abs_congr (s := s.ageCache.setSlot k (s.fresh page k)) hr.token hr.slots
  refine WriteBack.eq_of_lines (fun j => ?_) ?_
  · rw [hl, abs_setSlot _ hk', abs_ageCache]
    by_cases hj : j = k
    · subst hj
      rw [WriteBack.setLine_line_self, WriteBack.setLine_line_self]
      rfl
    · rw [WriteBack.setLine_line_of_ne _ hj, WriteBack.setLine_line_of_ne _ hj, hother j hj]
  · show s'.abs.store = c.store
    rw [hstore]
    simp only [abs, hr.dev, hr.token]

/-- The page is loaded into a line that has been dropped, or the line stays empty. -/
theorem fresh_spec {s : EE} {page k : Nat} (hk : k < s.numPages) (hn : ∀ j, j < s.numPages → (s.slot j).page ≠ page)
    {c : WriteBack Nat Nat (Fin 512 → UInt8)} (hc : (c.setLine k none).Coherent)
    (hother : ∀ j, j ≠ k → c.line j = s.abs.line j)
    (hstore : c.store = fun p => cut ((s.evicted k).pages (s.token.firstPage + p))) :
    (c.setLine k (lineOf s.token (s.fresh page k))).Coherent ∧
      (c.setLine k (lineOf s.token (s.fresh page k))).view = (c.setLine k none).view := by
  rw [← WriteBack.setLine_setLine c k none]
  by_cases hp : page < s.token.size
  · have hpk : page ≠ (s.slot k).page := fun e => hn k hk e.symm
    have hfresh : lineOf s.token (s.fresh page k) = some ⟨page, false, (c.setLine k none).store page⟩ := by
      have e : c.store page = s.abs.store page := by
        rw [hstore, evicted_store]
        split
        · rw [Function.update_of_ne hpk]
        · rfl
      simp only [lineOf, fresh, hp, if_true, cut_loaded hp, ← e]
      rfl
    have hnone : (c.setLine k none).line k = none := WriteBack.setLine_line_self c k none
    have hnot : ¬(c.setLine k none).Holds page := by
      rintro ⟨j, l, hj, rfl⟩
      rcases WriteBack.setLine_line_cases hj with ⟨-, he⟩ | ⟨hjk, he⟩
      · cases he
      · rw [hother j hjk] at he
        obtain ⟨hjn, -, rfl⟩ := abs_line_some he
        exact hn j hjn rfl
    rw [hfresh]
    exact ⟨WriteBack.coherent_load hc hnot, WriteBack.view_load hc hnone hnot⟩
  · have hfresh : lineOf s.token (s.fresh page k) = none := by simp [lineOf, fresh, hp]
    rw [hfresh, WriteBack.setLine_setLine]
    exact ⟨hc, rfl⟩

/-- A replacement is a write-back, a drop and a load: it keeps the invariant and is not seen. -/
theorem replaced_spec {s s' : EE} (h : s.Wf) {page k : Nat} (hk : k < s.numPages)
    (hn : ∀ j, j < s.numPages → (s.slot j).page ≠ page) (hr : Replaced s page k s') :
    s'.Wf ∧ s'.abs.view = s.abs.view ∧ s'.numPages = s.numPages ∧ s'.slot k = s.fresh page k := by
  obtain ⟨c, hc, hv, hother, hline, hstore⟩ := evict_line h hk
  have hclean : ∀ l, c.line k = some l → l.dirty = false := by
    intro l he
    rw [hline] at he
    split at he
    · cases he
      rfl
    · cases he
  have habs := replaced_abs hk hr hother hstore
  obtain ⟨hcoh, hview⟩ := fresh_spec hk hn (WriteBack.coherent_drop (i := k) hc) hother hstore
  rw [← habs] at hcoh hview
  have hk' : k < s.ageCache.numPages := by simpa using hk
  obtain ⟨-, hnum, hslot⟩ := abs_congr (s := s.ageCache.setSlot k (s.fresh page k)) hr.token hr.slots
  have hnum' : s'.numPages = s.numPages := by simpa using hnum
  refine ⟨⟨by rw [hr.token]; exact h.fits, by rw [hnum']; exact h.pos, hr.idle, hcoh⟩, ?_, hnum', ?_⟩
  · rw [hview, WriteBack.view_drop hc hclean, hv]
  · rw [hslot]
    exact setSlot_slot_self _ hk' _

/-- Writing a slot back keeps the invariant and is not seen. -/
theorem checked_spec {s s' : EE} (h : s.Wf) {i : Nat} (hi : i < s.numPages) (hr : Checked s i s') :
    s'.Wf ∧ s'.abs.view = s.abs.view ∧ s'.numPages = s.numPages := by
  obtain ⟨c, hc, hv, hother, hline, hstore⟩ := evict_line h hi
  obtain ⟨hl, hnum, -⟩ := abs_congr (s := s.setSlot i { s.slot i with dirty := false }) hr.token hr.slots
  have hnum' : s'.numPages = s.numPages := by simpa using hnum
  have habs : s'.abs = c := by
    refine WriteBack.eq_of_lines (fun j => ?_) ?_
    · rw [hl, abs_setSlot s hi]
      by_cases hj : j = i
      · subst hj
        rw [WriteBack.setLine_line_self, hline]
        rfl
      · rw [WriteBack.setLine_line_of_ne _ hj, hother j hj]
    · rw [hstore]
      simp only [abs, hr.dev, hr.token]
  exact ⟨⟨by rw [hr.token]; exact h.fits, by rw [hnum']; exact h.pos, hr.idle, habs ▸ hc⟩, habs ▸ hv, hnum'⟩

/-! ## The operations -/

/-- `s'` shows the bytes `s` shows: only where they are kept, the ages and the bus may differ. -/
structure Unseen (s s' : EE) : Prop where
  wf : s'.Wf
  token : s'.token = s.token
  numPages : s'.numPages = s.numPages
  view : s'.abs.view = s.abs.view

theorem Unseen.refl {s : EE} (h : s.Wf) : Unseen s s := ⟨h, rfl, rfl, rfl⟩

theorem Unseen.trans {s s' s'' : EE} (h : Unseen s s') (h' : Unseen s' s'') : Unseen s s'' :=
  ⟨h'.wf, h'.token.trans h.token, h'.numPages.trans h.numPages, h'.view.trans h.view⟩

/-- The offset of an address is an offset of a page. -/
theorem offsetOf_lt (a : Nat) : offsetOf a < 512 := Nat.mod_lt _ (by decide)

/-- The byte a reader of the cache sees at an address. -/
noncomputable def value (s : EE) (a : Nat) : UInt8 := s.abs.view (pageOf a) ⟨offsetOf a, offsetOf_lt a⟩

/-- The byte at an address of the token in flash. -/
def flashByte (s : EE) (a : Nat) : UInt8 := s.spi.chip.dev.pages (s.token.firstPage + pageOf a) (offsetOf a)

/-- `ExtCache_Fill` returns a slot that holds the page, and is not seen. -/
theorem fill_spec {s : EE} (h : s.Wf) (page : Nat) :
    ∃ i s', s.fill page = some (i, s') ∧ Unseen s s' ∧ i < s'.numPages ∧ (s'.slot i).page = page := by
  rcases fill_cases h page with ⟨i, hi, hp, -, he⟩ | ⟨k, s', hk, hn, -, he, hr⟩
  · have ha := wf_ageCache h
    have hi' : i < s.ageCache.numPages := by simpa using hi
    have habs : (s.ageCache.setSlot i { age (s.slot i) with count := 0 }).abs = s.abs := by
      rw [abs_setSlot _ hi', abs_ageCache]
      have hl : s.abs.line i = lineOf s.token { age (s.slot i) with count := 0 } := by simp [abs, hi, lineOf]
      simp only [WriteBack.setLine, ageCache_token, ← hl, Function.update_eq_self]
    refine ⟨i, _, he, ⟨⟨h.fits, by simpa using h.pos, h.idle, habs ▸ h.coherent⟩, rfl, by simp, by rw [habs]⟩,
      by simpa using hi, ?_⟩
    rw [setSlot_slot_self _ hi']
    simpa using hp
  · obtain ⟨hwf, hv, hnum, hslot⟩ := replaced_spec h hk hn hr
    exact ⟨k, s', he, ⟨hwf, hr.token, hnum, hv⟩, by rw [hnum]; exact hk, by rw [hslot]; rfl⟩

/-- What is seen at a page of the token that some slot holds is in the slot. -/
theorem view_slot {s : EE} (h : s.Wf) {i : Nat} (hi : i < s.numPages) (hp : (s.slot i).page < s.token.size) :
    s.abs.view (s.slot i).page = cut (s.slot i).buf :=
  WriteBack.view_of_line h.coherent (abs_line hi hp)

/-- `EE_Read1` is not seen, and returns what is seen at an address of the token. -/
theorem read1_spec {s : EE} (h : s.Wf) (a : Nat) :
    ∃ v s', s.read1 a = some (v, s') ∧ Unseen s s' ∧ (pageOf a < s.token.size → v = s.value a) := by
  obtain ⟨i, s', he, hu, hi, hp⟩ := fill_spec h (pageOf a)
  refine ⟨(s'.slot i).buf (offsetOf a), s', by simp only [read1, he, Option.bind_eq_bind, Option.bind_some], hu, ?_⟩
  intro ha
  have hv := view_slot hu.wf hi (by rw [hp, hu.token]; exact ha)
  rw [hp, hu.view] at hv
  rw [value, hv]
  rfl

/-- A slot after a byte that differs has been stored in it. -/
def written (c : EECachePage) (a : Nat) (d : UInt8) : EECachePage :=
  { c with dirty := true, buf := Function.update c.buf (offsetOf a) d }

/-- What `EE_Write1` does after `ExtCache_Fill`: nothing if the byte is there already, else the slot is changed. -/
theorem write1_cases {s : EE} (h : s.Wf) (a : Nat) (d : UInt8) :
    ∃ i t, s.fill (pageOf a) = some (i, t) ∧ Unseen s t ∧ i < t.numPages ∧ (t.slot i).page = pageOf a ∧
      (((t.slot i).buf (offsetOf a) = d ∧ s.write1 a d = some t) ∨
        ((t.slot i).buf (offsetOf a) ≠ d ∧ s.write1 a d = some (t.setSlot i (written (t.slot i) a d)))) := by
  obtain ⟨i, t, he, hu, hi, hp⟩ := fill_spec h (pageOf a)
  refine ⟨i, t, he, hu, hi, hp, ?_⟩
  by_cases hd : (t.slot i).buf (offsetOf a) = d
  · exact Or.inl ⟨hd, by simp [write1, he, hd]⟩
  · exact Or.inr ⟨hd, by simp [write1, he, hd, written]⟩

theorem cut_written (c : EECachePage) (a : Nat) (d : UInt8) :
    cut (written c a d).buf = Function.update (cut c.buf) ⟨offsetOf a, offsetOf_lt a⟩ d := by
  funext j
  by_cases hj : (j : Nat) = offsetOf a
  · have e : j = ⟨offsetOf a, offsetOf_lt a⟩ := Fin.ext hj
    subst e
    simp [cut, written]
  · have hne : j ≠ ⟨offsetOf a, offsetOf_lt a⟩ := fun e => hj (congrArg Fin.val e)
    simp [cut, written, hj, hne]

/-- Storing a byte in a slot keeps the cache coherent, and is seen at that byte if the slot holds a page of the token. -/
theorem setSlot_written {t : EE} (h : t.Wf) {i : Nat} (hi : i < t.numPages) (a : Nat) (d : UInt8) :
    (t.setSlot i (written (t.slot i) a d)).abs.Coherent ∧
      (t.setSlot i (written (t.slot i) a d)).abs.view =
        if (t.slot i).page < t.token.size then
          Function.update t.abs.view (t.slot i).page
            (Function.update (t.abs.view (t.slot i).page) ⟨offsetOf a, offsetOf_lt a⟩ d)
        else t.abs.view := by
  rw [abs_setSlot t hi]
  by_cases hp : (t.slot i).page < t.token.size
  · have hl := abs_line hi hp
    have hline : lineOf t.token (written (t.slot i) a d) =
        some ⟨(t.slot i).page, true, cut (written (t.slot i) a d).buf⟩ := by
      simp [lineOf, written, hp]
    rw [hline]
    refine ⟨WriteBack.coherent_change h.coherent hl (by simp), ?_⟩
    rw [WriteBack.view_change h.coherent hl (by simp), if_pos hp, cut_written, ← view_slot h hi hp]
  · have hline : lineOf t.token (written (t.slot i) a d) = t.abs.line i := by
      simp [lineOf, written, hp, abs]
    rw [hline, if_neg hp]
    simp only [WriteBack.setLine, Function.update_eq_self]
    exact ⟨h.coherent, trivial⟩

/-- `EE_Write1` changes what is seen at one byte, if the address is one of the token. -/
theorem write1_spec {s : EE} (h : s.Wf) (a : Nat) (d : UInt8) :
    ∃ s', s.write1 a d = some s' ∧ s'.Wf ∧ s'.token = s.token ∧ s'.numPages = s.numPages ∧
      s'.abs.view = if pageOf a < s.token.size then
          Function.update s.abs.view (pageOf a)
            (Function.update (s.abs.view (pageOf a)) ⟨offsetOf a, offsetOf_lt a⟩ d)
        else s.abs.view := by
  obtain ⟨i, t, -, hu, hi, hp, ⟨hd, he⟩ | ⟨-, he⟩⟩ := write1_cases h a d
  · refine ⟨t, he, hu.wf, hu.token, hu.numPages, ?_⟩
    rw [hu.view]
    by_cases hsz : pageOf a < s.token.size
    · have hv := view_slot hu.wf hi (by rw [hp, hu.token]; exact hsz)
      rw [hp, hu.view] at hv
      have hsame : s.abs.view (pageOf a) ⟨offsetOf a, offsetOf_lt a⟩ = d := by rw [hv]; exact hd
      rw [if_pos hsz, ← hsame, Function.update_eq_self, Function.update_eq_self]
    · rw [if_neg hsz]
  · obtain ⟨hcoh, hv⟩ := setSlot_written hu.wf hi a d
    rw [hp, hu.token, hu.view] at hv
    exact ⟨_, he, ⟨hu.wf.fits, by simpa using hu.wf.pos, hu.wf.idle, hcoh⟩, hu.token, by simpa using hu.numPages, hv⟩

/-- `EE_Cache_Check` is not seen. -/
theorem cacheCheck_spec {s : EE} (h : s.Wf) :
    ∃ r s', s.cacheCheck = some (r, s') ∧ Unseen s s' := by
  rcases cacheCheck_cases h with ⟨-, he⟩ | ⟨i, s', hi, -, -, he, hr⟩
  · exact ⟨0, s, he, Unseen.refl h⟩
  · obtain ⟨hwf, hv, hnum⟩ := checked_spec h hi hr
    exact ⟨1, s', he, hwf, hr.token, hnum, hv⟩

/-! ## Addresses of the token -/

theorem pageOf_lt {a n : Nat} (hn : n ≤ 8192) (ha : a < 512 * n) : pageOf a < n := by
  rw [pageOf, Nat.shiftRight_eq_div_pow]
  omega

/-- Below 2^25 the page and the offset determine the address. -/
theorem address_eq_iff {a b : Nat} (ha : a < 2 ^ 25) (hb : b < 2 ^ 25) :
    (pageOf a = pageOf b ∧ offsetOf a = offsetOf b) ↔ a = b := by
  simp only [pageOf, offsetOf, eePageSize, Nat.shiftRight_eq_div_pow]
  omega

/-- The effect of `EE_Write1` on the bytes of the token. -/
theorem write1_value {s : EE} (h : s.Wf) {a : Nat} (ha : a < 512 * s.token.size) (d : UInt8) :
    ∃ s', s.write1 a d = some s' ∧ s'.Wf ∧ s'.token = s.token ∧ s'.numPages = s.numPages ∧
      ∀ b, b < 512 * s.token.size → s'.value b = if b = a then d else s.value b := by
  have hsz : s.token.size ≤ 8192 := Nat.le_trans (Nat.le_add_left _ _) h.fits
  obtain ⟨s', he, hwf, ht, hn, hv⟩ := write1_spec h a d
  refine ⟨s', he, hwf, ht, hn, ?_⟩
  intro b hb
  rw [if_pos (pageOf_lt hsz ha)] at hv
  have hiff := address_eq_iff (a := b) (b := a) (by omega) (by omega)
  rw [value, hv]
  by_cases hpg : pageOf b = pageOf a
  · rw [hpg, Function.update_self]
    by_cases hoff : offsetOf b = offsetOf a
    · have hba := hiff.1 ⟨hpg, hoff⟩
      subst hba
      rw [Function.update_self, if_pos rfl]
    · have hne : b ≠ a := fun e => hoff (by rw [e])
      rw [Function.update_of_ne (fun e => hoff (congrArg Fin.val e)), if_neg hne, value, hpg]
  · have hne : b ≠ a := fun e => hpg (by rw [e])
    rw [Function.update_of_ne hpg, if_neg hne, value]

theorem Unseen.value {s s' : EE} (h : Unseen s s') (a : Nat) : s'.value a = s.value a := by
  rw [EE.value, EE.value, h.view]

/-! ## The initial state -/

theorem init_numPages (tk : DFToken) (n : Nat) (spi : Spi) : (init tk n spi).numPages = n := by
  simp [init, numPages]

theorem init_slot (tk : DFToken) (n : Nat) (spi : Spi) {i : Nat} (hi : i < n) : (init tk n spi).slot i = .blank := by
  rw [slot_eq_getElem _ ((init_numPages tk n spi).symm ▸ hi : i < (init tk n spi).numPages)]
  exact List.getElem_replicate _

/-- No slot of a fresh cache holds a page of the token. -/
theorem init_line {tk : DFToken} (hf : tk.Fits) (n : Nat) (spi : Spi) (i : Nat) : (init tk n spi).abs.line i = none := by
  have hp : ¬(65535 < tk.size) := by
    unfold DFToken.Fits at hf
    omega
  simp only [abs, init_numPages]
  split
  · rename_i hi
    rw [init_slot tk n spi hi]
    simp [lineOf, EECachePage.blank, init, hp]
  · rfl

/-- A fresh cache shows the flash. -/
theorem init_wf {tk : DFToken} (hf : tk.Fits) {n : Nat} (hn : 1 ≤ n) {spi : Spi} (hi : spi.Idle) :
    (init tk n spi).Wf ∧ ∀ a, (init tk n spi).value a = spi.chip.dev.pages (tk.firstPage + pageOf a) (offsetOf a) := by
  have hl := init_line hf n spi
  have hcoh : (init tk n spi).abs.Coherent :=
    ⟨fun i _ _ _ h _ _ => (Option.some_ne_none _ (h.symm.trans (hl i))).elim,
      fun i _ h _ => (Option.some_ne_none _ (h.symm.trans (hl i))).elim⟩
  refine ⟨⟨hf, by rw [init_numPages]; exact hn, hi, hcoh⟩, ?_⟩
  intro a
  rw [value, WriteBack.view_eq_store hcoh (fun i _ h => (Option.some_ne_none _ (h.symm.trans (hl i))).elim)]
  rfl

end EE
end PowerMonitor
