import PowerMonitor.Lemmas.Bus
import PowerMonitor.Firmware.Eeprom

/-!
# The EEPROM cache on the bus

The cache reaches the flash through the driver alone: whatever it does is a number of sessions with the flash. A session with the
flash takes no byte from the converters.
-/

namespace PowerMonitor

open DataFlashAux

/-- From one idle bus to another by sessions with the flash. -/
def FlashTalk (s s' : Spi) : Prop := ∃ css, Spoken css s s'

namespace FlashTalk

theorem refl {s : Spi} (h : s.Idle) : FlashTalk s s := ⟨[], Spoken.refl h⟩

theorem idle {s s' : Spi} (h : FlashTalk s s') : s'.Idle := by
  obtain ⟨css, hs⟩ := h
  exact hs.idle

theorem trans {s s' s'' : Spi} (h : FlashTalk s s') (h' : FlashTalk s' s'') : FlashTalk s s'' := by
  obtain ⟨css, hs⟩ := h
  obtain ⟨css', hs'⟩ := h'
  exact ⟨css ++ css', hs.sessions.trans hs'.sessions, hs'.idle⟩

theorem of_commands {tk : DFToken} {page : Nat} {header : List UInt8} {s s' : Spi} (h : s.Idle)
    (hc : Commands tk page header s s') : FlashTalk s s' := by
  rcases hc with ⟨-, rfl⟩ | ⟨-, n, rest, hs⟩
  · exact refl h
  · exact ⟨_, hs⟩

end FlashTalk

/-! ## The converters' bytes -/

/-- The flash answers while its pin is low, so the converters keep their bytes. -/
theorem Transfers.adcIn {bs : List UInt8} {s s' : Spi} (h : Transfers .PA17 bs s s') : s'.adcIn = s.adcIn := by
  induction h with
  | refl => rfl
  | @transfer bs s s' _ b hl _ ih =>
    have hlow : s'.low .PA17 = true := by
      have hmem : Pin.PA17 ∈ s'.lows := by
        rw [hl]
        exact List.mem_singleton_self _
      exact (List.mem_filter.mp hmem).2
    rw [← ih]
    simp [Spi.transfer, hlow]

theorem Sessions.adcIn {css : List (List UInt8)} {s s' : Spi} (h : Sessions .PA17 css s s') : s'.adcIn = s.adcIn := by
  induction h with
  | refl => rfl
  | session _ ht ih => exact (show _ = _ from ht.adcIn).trans ih

theorem FlashTalk.adcIn {s s' : Spi} (h : FlashTalk s s') : s'.adcIn = s.adcIn := by
  obtain ⟨css, hs⟩ := h
  exact hs.sessions.adcIn

/-! ## The operations of the cache -/

namespace EE

variable {s t : EE}

/-- The three calls of the replacement path. -/
theorem fill_talk (h : s.spi.Idle) {page i : Nat} (he : s.fill page = some (i, t)) : FlashTalk s.spi t.spi := by
  unfold fill at he
  dsimp only at he
  split at he
  · cases he
    exact .refl h
  · split at he
    · simp only [Option.bind_eq_bind, Option.bind_eq_some_iff] at he
      obtain ⟨⟨buf, spi⟩, hr, he⟩ := he
      cases he
      exact .of_commands h (DataFlash.readPageDirect_commands h hr)
    · simp only [Option.bind_eq_bind, Option.bind_eq_some_iff] at he
      obtain ⟨spi₁, hw, ⟨buf, spi₂⟩, hr, spi₃, hp, he⟩ := he
      cases he
      have h₁ : FlashTalk s.spi spi₁ := .of_commands h (DataFlash.bufferWrite_commands h hw)
      have h₂ : FlashTalk spi₁ spi₂ := .of_commands h₁.idle (DataFlash.readPageDirect_commands h₁.idle hr)
      exact (h₁.trans h₂).trans (.of_commands h₂.idle (DataFlash.writeBufferToFlash_commands h₂.idle hp))

theorem read1_talk (h : s.spi.Idle) {a : Nat} {v : UInt8} (he : s.read1 a = some (v, t)) : FlashTalk s.spi t.spi := by
  simp only [read1, Option.bind_eq_bind, Option.bind_eq_some_iff] at he
  obtain ⟨⟨i, u⟩, hf, he⟩ := he
  cases he
  exact fill_talk h hf

theorem cacheCheck_talk (h : s.spi.Idle) {r : Nat} (he : s.cacheCheck = some (r, t)) : FlashTalk s.spi t.spi := by
  unfold cacheCheck at he
  split at he
  · cases he
    exact .refl h
  · simp only [Option.bind_eq_bind, Option.bind_eq_some_iff] at he
    obtain ⟨spi₁, hw, spi₂, hp, he⟩ := he
    cases he
    have h₁ : FlashTalk s.spi spi₁ := .of_commands h (DataFlash.bufferWrite_commands h hw)
    exact h₁.trans (.of_commands h₁.idle (DataFlash.writeBufferToFlash_commands h₁.idle hp))

theorem operands_talk {α β : Type} (o : EvalOrder) {f : EE → Option (α × EE)} {g : EE → Option (β × EE)}
    (hf : ∀ s v t, s.spi.Idle → f s = some (v, t) → FlashTalk s.spi t.spi)
    (hg : ∀ s v t, s.spi.Idle → g s = some (v, t) → FlashTalk s.spi t.spi) (h : s.spi.Idle) {v : α × β}
    (he : operands o f g s = some (v, t)) : FlashTalk s.spi t.spi := by
  unfold operands at he
  cases o <;>
  · simp only [Option.bind_eq_bind, Option.bind_eq_some_iff] at he
    obtain ⟨⟨a, s₁⟩, h₁, ⟨b, s₂⟩, h₂, he⟩ := he
    cases he
    first
    | exact (hf _ _ _ h h₁).trans (hg _ _ _ (hf _ _ _ h h₁).idle h₂)
    | exact (hg _ _ _ h h₁).trans (hf _ _ _ (hg _ _ _ h h₁).idle h₂)

theorem read2_talk (o : EvalOrder) {a : Nat} (h : s.spi.Idle) {v : Nat} (he : s.read2 o a = some (v, t)) :
    FlashTalk s.spi t.spi := by
  simp only [read2, Option.bind_eq_bind, Option.bind_eq_some_iff] at he
  obtain ⟨⟨⟨x, y⟩, u⟩, ho, he⟩ := he
  cases he
  exact operands_talk o (fun _ _ _ h he => read1_talk h he) (fun _ _ _ h he => read1_talk h he) h ho

theorem read4Default_talk (o o₂ : EvalOrder) {a dflt : Nat} (h : s.spi.Idle) {v : Nat}
    (he : s.read4Default o o₂ a dflt = some (v, t)) : FlashTalk s.spi t.spi := by
  simp only [read4Default, read4, Option.bind_eq_bind, Option.bind_eq_some_iff] at he
  obtain ⟨⟨d, u⟩, ⟨⟨⟨x, y⟩, w⟩, ho, hd⟩, he⟩ := he
  cases he
  cases hd
  exact operands_talk o (fun _ _ _ h he => read2_talk o₂ h he) (fun _ _ _ h he => read2_talk o₂ h he) h ho

end EE

end PowerMonitor
