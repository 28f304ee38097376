import PowerMonitor.Lemmas.Bus
import Mathlib.Tactic.Linarith

/-!
# The voltage of a sample

`PowerChan_GetVolts` multiplies the 16-bit sample by the calibration and subtracts the offset in `uint32_t` arithmetic. The
result is the integer it stands for as long as the product stays below 2^32 and the offset is not above the quotient.
-/

namespace PowerMonitor

namespace PowerChanel

/-- The millivolts a 16-bit sample stands for, in integers. -/
def exactVolts (volts calib : Nat) (offset : Int) : Int :=
  if volts < 0x9000 then 0 else max 0 ((volts * calib / 4096 : Nat) - offset)

/-- Neither the product nor the difference wraps; below 0x9000 nothing is computed. -/
def NoWrap (volts calib : Nat) (offset : Int) : Prop :=
  0x9000 ≤ volts → volts * calib < 2 ^ 32 ∧ 0 ≤ (volts * calib / 4096 : Nat) - offset ∧
    (volts * calib / 4096 : Nat) - offset < 2 ^ 32

/-- The sample is below 0x9000, or the product is below 2^32 and the offset at most the quotient. -/
def InRange (volts calib : Nat) (offset : Int) : Prop :=
  volts < 0x9000 ∨ (volts * calib < 2 ^ 32 ∧ offset ≤ (volts * calib / 4096 : Nat))

/-- The product wraps to a value whose quotient is smaller by 2^32, and the difference wraps back. -/
def WrapsBack (volts calib : Nat) (offset : Int) : Prop :=
  volts * calib / 2 ^ 32 = 4096 ∧ (volts * calib % 2 ^ 32 / 4096 : Nat) < offset

/-- The sample that three bytes of the converter make. -/
def sampleOf (b₁ b₂ b₃ : UInt8) : Nat := b₁.toNat * 65536 + b₂.toNat * 256 + b₃.toNat

/-! ## The sample -/

/-- A transfer while the flash is not selected returns the converter's next byte. -/
theorem transfer_adc {s : Spi} (h : s.low .PA17 = false) {x : UInt8} {xs : List UInt8} (ha : s.adcIn = x :: xs) (b : UInt8) :
    (s.transfer b).1 = x ∧ (s.transfer b).2.low .PA17 = false ∧ (s.transfer b).2.adcIn = xs := by
  simp [Spi.transfer, h, ha]

/-- `PowerChan_Run` keeps the upper 16 bits of the converter's three bytes. -/
theorem run_volts (c : PowerChanel) (hp : c.adc ≠ .PA17) {s : Spi} (hs : s.Idle) {z₁ z₂ z₃ b₁ b₂ b₃ : UInt8} {rest : List UInt8}
    (ha : s.adcIn = z₁ :: z₂ :: z₃ :: b₁ :: b₂ :: b₃ :: rest) :
    (c.run s).1 = { c with volts := sampleOf b₁ b₂ b₃ / 256 } := by
  have hl : (s.codr c.adc).low .PA17 = false := AD7787.codr_low hp hs
  obtain ⟨-, hl₁, ha₁⟩ := transfer_adc hl (show (s.codr c.adc).adcIn = _ from ha) 0x11
  obtain ⟨-, hl₂, ha₂⟩ := transfer_adc hl₁ ha₁ 0x82
  obtain ⟨-, hl₃, ha₃⟩ := transfer_adc hl₂ ha₂ 0x39
  obtain ⟨hr₁, hl₄, ha₄⟩ := transfer_adc hl₃ ha₃ 0
  obtain ⟨hr₂, hl₅, ha₅⟩ := transfer_adc hl₄ ha₄ 0
  obtain ⟨hr₃, -⟩ := transfer_adc hl₅ ha₅ 0
  have hsum : (AD7787.run c.adc .AD_CH_2 s).1 = b₃.toNat + (b₂.toNat + b₁.toNat * 256) * 256 := by
    rw [← hr₁, ← hr₂, ← hr₃]
    rfl
  have hsample : b₃.toNat + (b₂.toNat + b₁.toNat * 256) * 256 = sampleOf b₁ b₂ b₃ := by
    unfold sampleOf
    omega
  rw [run, hsum, hsample]

theorem sampleOf_lt (b₁ b₂ b₃ : UInt8) : sampleOf b₁ b₂ b₃ / 256 < 65536 := by
  have h₁ := b₁.toNat_lt
  have h₂ := b₂.toNat_lt
  have h₃ := b₃.toNat_lt
  unfold sampleOf
  omega

/-! ## The arithmetic -/

/-- The product and the difference of `PowerChan_GetVolts`, against the integers. -/
theorem scaled_eq_iff {p : Nat} (hp : p < 2 ^ 48) {o : Int} (ho : -2 ^ 31 ≤ o ∧ o < 2 ^ 31) :
    ((p % 2 ^ 32 / 4096 : Nat) - o : Int) % 2 ^ 32 = max 0 ((p / 4096 : Nat) - o) ↔
      (p < 2 ^ 32 ∧ o ≤ (p / 4096 : Nat)) ∨ (p / 2 ^ 32 = 4096 ∧ (p % 2 ^ 32 / 4096 : Nat) < o) := by
  omega

/-- What `PowerChan_GetVolts` returns is the exact value, for a 16-bit sample and 32-bit parameters. -/
theorem getVolts_eq_iff {c : PowerChanel} (hv : c.volts < 65536) (hc : c.vCalib < 2 ^ 32)
    (ho : -2 ^ 31 ≤ c.voltOffset ∧ c.voltOffset < 2 ^ 31) :
    (c.getVolts : Int) = exactVolts c.volts c.vCalib c.voltOffset ↔
      InRange c.volts c.vCalib c.voltOffset ∨ WrapsBack c.volts c.vCalib c.voltOffset := by
  by_cases hlow : c.volts < 0x9000
  · simp [getVolts, exactVolts, InRange, hlow]
  · have hp : c.volts * c.vCalib < 2 ^ 48 := by
      calc c.volts * c.vCalib ≤ 65535 * (2 ^ 32 - 1) := Nat.mul_le_mul (by omega) (by omega)
        _ < 2 ^ 48 := by decide
    have hnat : ((((c.volts * c.vCalib % 2 ^ 32 / 4096 : Nat) - c.voltOffset : Int) % 2 ^ 32).toNat : Int) =
        ((c.volts * c.vCalib % 2 ^ 32 / 4096 : Nat) - c.voltOffset : Int) % 2 ^ 32 :=
      Int.toNat_of_nonneg (Int.emod_nonneg _ (by decide))
    rw [getVolts, if_neg hlow, exactVolts, if_neg hlow, hnat, scaled_eq_iff hp ho]
    simp only [InRange, hlow, false_or, WrapsBack]

/-- A value that wraps back is not free of wrapping. -/
theorem noWrap_iff {volts calib : Nat} {offset : Int} (ho : -2 ^ 31 ≤ offset) :
    NoWrap volts calib offset ↔ InRange volts calib offset := by
  unfold NoWrap InRange
  generalize volts * calib = p
  omega

end PowerChanel

open PowerChanel

/-- After `PowerChan_Run` on an idle bus, for every sample, calibration and offset: `PowerChan_GetVolts` returns the exact value
without wrapping exactly when the sample is below 0x9000, or the product is below 2^32 and the offset at most the quotient. The
value is exact in one more case, in which the product wraps and the difference wraps back. -/
theorem volts_exact_iff (c : PowerChanel) (hp : c.adc ≠ .PA17) (calib : Nat) (hc : calib < 2 ^ 32) (offset : Int)
    (ho : -2 ^ 31 ≤ offset ∧ offset < 2 ^ 31) (s : Spi) (hs : s.Idle) (z₁ z₂ z₃ b₁ b₂ b₃ : UInt8) (rest : List UInt8)
    (ha : s.adcIn = z₁ :: z₂ :: z₃ :: b₁ :: b₂ :: b₃ :: rest) :
    let v := sampleOf b₁ b₂ b₃ / 256
    let volts := (((c.setVoltCalib calib).setVoltOffset offset).run s).1.getVolts
    ((volts = exactVolts v calib offset ∧ NoWrap v calib offset) ↔ InRange v calib offset) ∧
      (volts = exactVolts v calib offset ↔ InRange v calib offset ∨ WrapsBack v calib offset) := by
  intro v volts
  have hrun := run_volts ((c.setVoltCalib calib).setVoltOffset offset) hp hs ha
  have hv : v < 65536 := sampleOf_lt b₁ b₂ b₃
  have hiff : (volts : Int) = exactVolts v calib offset ↔ InRange v calib offset ∨ WrapsBack v calib offset := by
    have h := getVolts_eq_iff (c := (((c.setVoltCalib calib).setVoltOffset offset).run s).1) (by rw [hrun]; exact hv)
      (by rw [hrun]; exact hc) (by rw [hrun]; exact ho)
    rw [hrun] at h
    simp only [volts, hrun]
    exact h
  refine ⟨?_, hiff⟩
  rw [hiff, noWrap_iff ho.1]
  exact ⟨fun h => h.2, fun h => ⟨Or.inl h, h⟩⟩

/-- Half of full scale with the default calibration. -/
theorem volts_exact_iff_half_scale :
    let s := Spi.reset ⟨fun _ _ => 0xFF, fun _ _ => 0, []⟩ 0 [] 0x25 [0xFF, 0xFF, 0xFF, 0x90, 0x12, 0x34]
    let v := sampleOf 0x90 0x12 0x34 / 256
    let volts := ((((PowerChanel.init .PA16 s).1.setVoltCalib 856).setVoltOffset 1).run s).1.getVolts
    ((volts = exactVolts v 856 1 ∧ NoWrap v 856 1) ↔ InRange v 856 1) ∧
      (volts = exactVolts v 856 1 ↔ InRange v 856 1 ∨ WrapsBack v 856 1) :=
  volts_exact_iff _ (by decide) 856 (by decide) 1 (by decide) _
    (DataFlashAux.reset_idle _ _ _ _ _) 0xFF 0xFF 0xFF 0x90 0x12 0x34 [] rfl

/-- With an offset above the quotient the reading is about four million volts; with a large calibration the product wraps. -/
theorem volts_wrap :
    let s := Spi.reset ⟨fun _ _ => 0xFF, fun _ _ => 0, []⟩ 0 [] 0x25 [0xFF, 0xFF, 0xFF, 0x90, 0x00, 0x00]
    let c := (PowerChanel.init .PA16 s).1
    ((((c.setVoltCalib 856).setVoltOffset 8000).run s).1.getVolts = 4294967000 ∧ exactVolts 0x9000 856 8000 = 0) ∧
      (((c.setVoltCalib 116509).setVoltOffset 0).run s).1.getVolts = 5 ∧ exactVolts 0x9000 116509 0 = 1048581 := by
  decide +kernel

end PowerMonitor
