import PowerMonitor.Theorems.ServerRefinement
import Mathlib.Data.List.DropRight

/-!
# Power cycles

The flash changes in `EE_Cache_Check` alone, which puts all parameters there. A board that loses its power between two steps of a run,
when the page programs before are complete, or is reset in `Cmd_Restart`, therefore starts again with the parameters of one moment:
those that the lines before the last call of `EE_Cache_Check` have made.
-/

namespace PowerMonitor

open CString CmdProcessor Outcome

namespace Firmware

variable {b : Build} {board : Board} {fw fw' : Firmware}

/-! ## Records without a check -/

/-- The record goes on, and `EE_Cache_Check` is not called. -/
def Unchecked (fw fw' : Firmware) : Prop := ∃ es, fw'.events = fw.events ++ es ∧ ∀ e ∈ es, e ≠ .cacheCheck

theorem Unchecked.refl (fw : Firmware) : Unchecked fw fw := ⟨[], (List.append_nil _).symm, by simp⟩

theorem Unchecked.trans {fw'' : Firmware} (h : Unchecked fw fw') (h' : Unchecked fw' fw'') : Unchecked fw fw'' := by
  obtain ⟨es, he, hes⟩ := h
  obtain ⟨es', he', hes'⟩ := h'
  refine ⟨es ++ es', by rw [he', he, List.append_assoc], fun e hmem => ?_⟩
  rcases List.mem_append.mp hmem with hmem | hmem
  · exact hes e hmem
  · exact hes' e hmem

theorem CommandFrame.unchecked (h : CommandFrame fw fw') : Unchecked fw fw' := by
  obtain ⟨es, he, hes⟩ := h.events
  exact ⟨es, he, fun e hmem => (hes e hmem).2⟩

/-- The lines that were looked up before the last call of `EE_Cache_Check`. -/
def checkpoint (fw : Firmware) : List (List UInt8) := (fw.events.rdropWhile (· ≠ .cacheCheck)).filterMap FwEvent.looked

theorem Unchecked.checkpoint (h : Unchecked fw fw') : fw'.checkpoint = fw.checkpoint := by
  obtain ⟨es, he, hes⟩ := h
  rw [Firmware.checkpoint, Firmware.checkpoint, he]
  congr 1
  clear he
  induction es using List.reverseRecOn with
  | nil => rw [List.append_nil]
  | append_singleton es e ih =>
    have hlast : e ≠ .cacheCheck := hes e (List.mem_append_right es (List.mem_singleton_self e))
    rw [← List.append_assoc, List.rdropWhile_concat_pos _ _ _ (by simpa using hlast)]
    exact ih fun e he => hes e (List.mem_append_left _ he)

/-- What the lines of the checkpoint have made of the flash's words. -/
def restored (board : Board) (fw : Firmware) (p : Param) (ch : Channel) : BitVec 32 :=
  (Server.commanded p ch fw.checkpoint).getD (board.words p ch)

/-- The flash holds the parameters of the checkpoint. -/
structure Saved (board : Board) (fw : Firmware) : Prop where
  token : fw.ee.token = eeToken
  flashed : ∀ p ch, fw.flashed p ch = (fw.restored board p ch).toNat

/-- The word of a parameter in flash is a word of the first page. -/
theorem flashed_eq_word (h : fw.ee.token = eeToken) (p : Param) (ch : Channel) :
    fw.flashed p ch = EE.word (fw.ee.spi.chip.dev.pages 0) (eeAddress p ch) := by
  have hlt := eeAddress_lt p ch
  refine EE.word_congr fun i hi => ?_
  have ha : eeAddress p ch + i < 512 := by omega
  rw [EE.flashByte, h, EE.pageOf_zero ha, EE.offsetOf, eePageSize, Nat.mod_eq_of_lt ha]
  rfl

/-- A step that leaves the flash. -/
theorem Saved.unchecked (h : Saved board fw) (hd : fw'.ee.spi.chip.dev = fw.ee.spi.chip.dev) (ht : fw'.ee.token = fw.ee.token)
    (hu : Unchecked fw fw') : Saved board fw' := by
  have htoken := ht.trans h.token
  refine ⟨htoken, fun p ch => ?_⟩
  rw [flashed_eq_word htoken, hd, ← flashed_eq_word h.token, restored, hu.checkpoint]
  exact h.flashed p ch

/-- Calls of `UartBuffer_Interrupt` are none of the flash's. -/
theorem Saved.served {p : Port} {x r : Except Stop Firmware} (hs : Served p x r)
    (h : Ends (Saved board) (Stop.Restarted (Saved board)) x) : Ends (Saved board) (Stop.Restarted (Saved board)) r := by
  cases hs with
  | ok _ _ => exact Saved.unchecked h rfl rfl ⟨[], (List.append_nil _).symm, by simp⟩
  | restart _ _ => exact Saved.unchecked h rfl rfl ⟨[], (List.append_nil _).symm, by simp⟩
  | hang => exact h

end Firmware

end PowerMonitor
