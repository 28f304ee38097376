import PowerMonitor.Lemmas.FlashTalk
import PowerMonitor.Lemmas.Server
import PowerMonitor.Theorems.SpiBus

/-!
# The samples and the start-up

A conversion shifts six bytes out of a converter, of which the fourth and the fifth are the sample. The start-up uses the bus for
sessions with the flash alone once the three devices are initialised, and leads to a state that represents the server at
power-up.
-/

namespace PowerMonitor

open CString Outcome

/-! ## Samples -/

namespace AD7787

/-- A transfer while the flash is not selected takes the converters' next byte. -/
theorem transfer_adc {s : Spi} (h : s.low .PA17 = false) (b : UInt8) :
    (s.transfer b).1 = s.adcIn.headD 0xFF ∧ (s.transfer b).2.adcIn = s.adcIn.tail := by
  simp [Spi.transfer, h]

theorem send_adcIn (bs : List UInt8) : ∀ {s : Spi}, s.low .PA17 = false → (s.send bs).adcIn = s.adcIn.drop bs.length := by
  induction bs with
  | nil => exact fun _ => rfl
  | cons b bs ih =>
    intro s h
    have hlow : (s.transfer b).2.low .PA17 = false := by rw [(transfer_sameFlash h b).low, h]
    rw [List.length_cons, ← List.drop_tail, ← (transfer_adc h b).2]
    exact ih hlow

theorem init_adcIn {p : Pin} (hp : p ≠ .PA17) {s : Spi} (h : s.Idle) : (init p s).adcIn = s.adcIn.drop 8 := by
  have hlow : ((s.sodr p).codr p).low .PA17 = false := by simp [Spi.codr, Spi.sodr, h.low, Ne.symm hp]
  exact send_adcIn (List.replicate 8 0xFF) hlow

/-- `AD7787_Run` returns the last three of the six bytes that it takes. -/
theorem run_adc {p : Pin} (hp : p ≠ .PA17) (ch : AD7787Chanel) {s : Spi} (h : s.Idle) :
    (run p ch s).1 = (s.adcIn.getD 5 0xFF).toNat + ((s.adcIn.getD 4 0xFF).toNat + (s.adcIn.getD 3 0xFF).toNat * 256) * 256 ∧
      (run p ch s).2.adcIn = s.adcIn.drop 6 := by
  have h₀ := codr_low hp h
  have hlow := send_sameFlash [if ch = .AD_CH_1 then 0x10 else 0x11, 0x82] h₀
  have h₁ : ((s.codr p).send [if ch = .AD_CH_1 then 0x10 else 0x11, 0x82]).low .PA17 = false := by rw [hlow.low, h₀]
  have h₂ : (((s.codr p).send [if ch = .AD_CH_1 then 0x10 else 0x11, 0x82]).send [if ch = .AD_CH_1 then 0x38 else 0x39]).low .PA17 =
      false := by rw [(send_sameFlash _ h₁).low, h₁]
  have a₂ := (send_adcIn [if ch = .AD_CH_1 then 0x38 else 0x39] h₁).trans
    (congrArg (List.drop 1) (send_adcIn [if ch = .AD_CH_1 then 0x10 else 0x11, 0x82] h₀))
  rw [List.drop_drop] at a₂
  unfold run
  dsimp only
  generalize ((s.codr p).send [if ch = .AD_CH_1 then 0x10 else 0x11, 0x82]).send [if ch = .AD_CH_1 then 0x38 else 0x39] = t at h₂ a₂ ⊢
  have h₃ : (t.transfer 0).2.low .PA17 = false := by rw [(transfer_sameFlash h₂ 0).low, h₂]
  have h₄ : ((t.transfer 0).2.transfer 0).2.low .PA17 = false := by rw [(transfer_sameFlash h₃ 0).low, h₃]
  have ht : t.adcIn = s.adcIn.drop 3 := a₂
  have hhead : ∀ n, (s.adcIn.drop n).headD 0xFF = s.adcIn.getD n 0xFF := by
    intro n
    rw [List.headD_eq_head?_getD, List.head?_drop, List.getD_eq_getElem?_getD]
  have htail : ∀ n, (s.adcIn.drop n).tail = s.adcIn.drop (n + 1) := fun n => List.tail_drop
  obtain ⟨v₁, t₁⟩ := transfer_adc h₂ 0
  obtain ⟨v₂, t₂⟩ := transfer_adc h₃ 0
  obtain ⟨v₃, t₃⟩ := transfer_adc h₄ 0
  rw [ht, htail] at t₁
  rw [t₁, htail] at t₂
  rw [t₂, htail] at t₃
  refine ⟨?_, t₃⟩
  rw [v₁, v₂, v₃, ht, t₁, t₂, hhead, hhead, hhead]

end AD7787

namespace Firmware

/-- What the converters shift out for the `k`-th sample of a supply: the start-up takes sixteen bytes, and a sample of both
supplies twelve. -/
def Board.sample (board : Board) (k : Nat) (ch : Channel) : BitVec 16 :=
  let i := 16 + 12 * k + match ch with
    | .pri => 3
    | .sec => 9
  .ofNat 16 ((board.adcIn.getD (i + 1) 0xFF).toNat + (board.adcIn.getD i 0xFF).toNat * 256)

/-- `PowerChan_Run` for both supplies takes the next samples. -/
theorem runChannels_sample {fw : Firmware} (h : fw.Ready) {board : Board} {k : Nat}
    (ha : fw.ee.spi.adcIn = board.adcIn.drop (16 + 12 * k)) :
    (∀ ch, (fw.runChannels.chan ch).volts = (board.sample k ch).toNat) ∧
      fw.runChannels.ee.spi.adcIn = board.adcIn.drop (16 + 12 * (k + 1)) := by
  obtain ⟨v₁, a₁⟩ := AD7787.run_adc h.pri .AD_CH_2 h.ee.wf.idle
  obtain ⟨hi₁, -⟩ := AD7787.run_spec h.pri .AD_CH_2 h.ee.wf.idle
  obtain ⟨v₂, a₂⟩ := AD7787.run_adc h.sec .AD_CH_2 hi₁
  have hget : ∀ m n, (board.adcIn.drop m).getD n 0xFF = board.adcIn.getD (m + n) 0xFF := by
    intro m n
    rw [List.getD_eq_getElem?_getD, List.getElem?_drop, List.getD_eq_getElem?_getD]
  rw [a₁, ha, List.drop_drop] at a₂ v₂
  rw [ha] at v₁
  have hvolts : ∀ x y z : UInt8, (x.toNat + (y.toNat + z.toNat * 256) * 256) / 256 = (BitVec.ofNat 16 (y.toNat + z.toNat * 256)).toNat := by
    intro x y z
    have hx := x.toNat_lt
    have hy := y.toNat_lt
    have hz := z.toNat_lt
    rw [BitVec.toNat_ofNat]
    omega
  refine ⟨?_, ?_⟩
  · rintro (_ | _)
    · show (AD7787.run fw.pri.adc .AD_CH_2 fw.ee.spi).1 / 256 = _
      rw [v₁, hvolts, hget, hget]
      rfl
    · show (AD7787.run fw.sec.adc .AD_CH_2 (AD7787.run fw.pri.adc .AD_CH_2 fw.ee.spi).2).1 / 256 = _
      rw [v₂, hvolts, hget, hget]
      rfl
  · show (AD7787.run fw.sec.adc .AD_CH_2 (AD7787.run fw.pri.adc .AD_CH_2 fw.ee.spi).2).2.adcIn = _
    rw [a₂, List.drop_drop]
    exact congrArg (fun n => board.adcIn.drop n) (by omega)

/-! ## The start-up -/

/-- The words of the parameters in the flash of a board: they are in its first page. -/
def Board.words (board : Board) (p : Param) (ch : Channel) : BitVec 32 := .ofNat 32 (EE.word (board.dev.pages 0) (eeAddress p ch))

/-- What the start-up prints. -/
def banner : List UInt8 := bytes "\r\nSystem Startup\r\n" ++ bytes ">> Diag,MAIN,Start up\r\n"

theorem returns_bind_eq_ok {α β : Type} {x : Option α} {f : α → Except Stop β} {r : β} :
    (returns x >>= f) = .ok r ↔ ∃ a, x = some a ∧ f a = .ok r := by
  cases x with
  | none => simp [returns, bind, Except.bind]
  | some a => simp [returns, bind, Except.bind]

/-- The state at the first pass of the main loop, on the bus and for the server. -/
structure PoweredUp (board : Board) (fw : Firmware) : Prop where
  talk : FlashTalk (Spi.boardInit board.dev board.busy board.delays board.id board.adcIn) fw.ee.spi
  represents : Represents (Server.boot board.words) fw
  put : fw.uart.put = banner

theorem boardInit_adcIn (board : Board) :
    (Spi.boardInit board.dev board.busy board.delays board.id board.adcIn).adcIn = board.adcIn.drop 16 := by
  obtain ⟨hi₀, -⟩ := DataFlashAux.init_spec (DataFlashAux.reset_idle board.dev board.busy board.delays board.id board.adcIn)
  obtain ⟨hi₁, -⟩ := AD7787.init_spec (p := .PA16) (by decide) hi₀
  have h₁ := AD7787.init_adcIn (p := .PA16) (by decide) hi₀
  have h₂ := AD7787.init_adcIn (p := .PA15) (by decide) hi₁
  rw [h₁, List.drop_drop] at h₂
  exact h₂

theorem start_poweredUp (b : Build) (board : Board) : ∃ fw, start b board = .ok fw ∧ Started board fw ∧ PoweredUp board fw := by
  obtain ⟨fw, he, hs⟩ := start_started b board
  refine ⟨fw, he, hs, ?_⟩
  unfold start at he
  simp only [returns_bind_eq_ok] at he
  obtain ⟨⟨id, spi⟩, hid, ⟨v₁, e₁⟩, he₁, ⟨o₁, e₂⟩, he₂, ⟨v₂, e₃⟩, he₃, ⟨o₂, e₄⟩, he₄, he⟩ := he
  obtain ⟨hidle, -⟩ := boardInit_idle board.dev board.busy board.delays board.id board.adcIn
  obtain ⟨n, hspoken⟩ := DataFlash.readChipID_spoken hidle hid
  have ht₀ : FlashTalk (Spi.boardInit board.dev board.busy board.delays board.id board.adcIn) spi := ⟨_, hspoken⟩
  -- the four reads: what they say on the bus, and that they change nothing of what is stored
  have ht₁ : FlashTalk spi e₁.spi := EE.read4Default_talk _ _ ht₀.idle he₁
  have ht₂ : FlashTalk e₁.spi e₂.spi := EE.read4Default_talk _ _ ht₁.idle he₂
  have ht₃ : FlashTalk e₂.spi e₃.spi := EE.read4Default_talk _ _ ht₂.idle he₃
  have ht₄ : FlashTalk e₃.spi e₄.spi := EE.read4Default_talk _ _ ht₃.idle he₄
  obtain ⟨t₁, hr₁, hres, -, hd₁, hv₁⟩ := EE.read4Default_init (show eeToken.firstPage + eeToken.size ≤ 8192 by decide)
    (by decide) (n := 4) (by decide) ht₀.idle b.order4 b.order2 (eeAddress_lt .calib .pri) 856
  cases he₁.symm.trans hr₁
  obtain ⟨t₂, hr₂, ha₂⟩ := readParam_resident hres b .offset .pri
  cases he₂.symm.trans hr₂
  obtain ⟨t₃, hr₃, ha₃⟩ := readParam_resident ha₂.resident b .calib .sec
  cases he₃.symm.trans hr₃
  obtain ⟨t₄, hr₄, ha₄⟩ := readParam_resident ha₃.resident b .offset .sec
  cases he₄.symm.trans hr₄
  obtain ⟨fw₀, ⟨hee, hvolts, hu⟩, rfl⟩ : ∃ fw₀ : Firmware,
      (fw₀.ee = e₄ ∧ (∀ ch, (fw₀.chan ch).volts = 0) ∧ fw₀.uart = .init) ∧
        fw = (fw₀.putString (bytes "\r\nSystem Startup\r\n")).putString (bytes ">> Diag,MAIN,Start up\r\n") :=
    ⟨_, ⟨rfl, by rintro (_ | _) <;> rfl, rfl⟩, (Except.ok.inj he).symm⟩
  have hp := startup_printed fw₀
  generalize (fw₀.putString (bytes "\r\nSystem Startup\r\n")).putString (bytes ">> Diag,MAIN,Start up\r\n") = fw at hs hp ⊢
  have hee' : fw.ee = e₄ := by
    rw [hp.rest]
    exact hee
  have hdev : spi.chip.dev = board.dev := by rw [← hs.dev, hee', ((ha₂.trans ha₃).trans ha₄).spi, hd₁]
  have hwords : ∀ p ch, fw.setting p ch = (board.words p ch).toNat := by
    intro p ch
    have hlt := eeAddress_lt p ch
    obtain ⟨-, hinit⟩ := EE.init_wf (show eeToken.firstPage + eeToken.size ≤ 8192 by decide) (n := 4) (by decide)
      ht₀.idle
    have hcongr : EE.word e₄.value (eeAddress p ch) = EE.word (board.dev.pages 0) (eeAddress p ch) := by
      refine EE.word_congr fun i hi => ?_
      have ha : eeAddress p ch + i < 512 := by omega
      rw [((ha₂.trans ha₃).trans ha₄).value, hv₁, hinit, EE.pageOf_zero ha, hdev, EE.offsetOf, eePageSize, Nat.mod_eq_of_lt ha]
      rfl
    rw [setting, hee', hcongr, Board.words, BitVec.toNat_ofNat, Nat.mod_eq_of_lt (EE.word_lt _ _)]
  refine ⟨?_, ⟨hwords, ?_, ?_⟩, ?_⟩
  · rw [hee']
    exact (((ht₀.trans ht₁).trans ht₂).trans ht₃).trans ht₄
  · intro p ch
    rw [hs.live, hwords, Server.readAs_toNat]
    rfl
  · intro ch
    have hch : (fw.chan ch).volts = (fw₀.chan ch).volts := by
      rw [hp.rest]
      cases ch <;> rfl
    rw [hch, hvolts]
    rfl
  · have hput := hp.port.put
    rw [show fw₀.port.1 = .init from hu] at hput
    exact hput

end Firmware

end PowerMonitor
