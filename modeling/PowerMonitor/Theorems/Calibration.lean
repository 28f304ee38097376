import PowerMonitor.Lemmas.RunConfig
import Mathlib.Data.List.Induction

/-!
# The calibration in use and the calibration that is stored

After the start-up a parameter is live as it is read from the EEPROM. A command stores a value as a word and makes it live as it
is, but a word of all ones reads as the parameter's default: the two agree exactly as long as no command stores all ones, which
is the value -1.
-/

namespace PowerMonitor

open CString Outcome

/-- A step after the start-up: `Run_Config` reads a byte, or the main loop calls `EE_Cache_Check` or samples the channels. -/
inductive MainOp where
  | receive (c : UInt8)
  | cacheCheck
  | sample
  deriving DecidableEq, Repr

namespace MainOp

/-- The step on a state. -/
def run (b : Build) : MainOp → Firmware → Except Stop Firmware
  | .receive c, fw => fw.receiveChar b c
  | .cacheCheck, fw => fw.cacheCheck
  | .sample, fw => .ok fw.runChannels

/-- What the step asks for. -/
def request : MainOp → Firmware → Request
  | .receive c, fw => Firmware.charRequest c fw
  | .cacheCheck, _ => .other
  | .sample, _ => .other

end MainOp

namespace Firmware

/-- The start-up and a run. -/
def reach (b : Build) (board : Board) (ops : List MainOp) : Except Stop Firmware := do
  let fw ← start b board
  ops.foldlM (fun fw op => op.run b fw) fw

/-- What `Read_PowerCH_VoltCalibration` or `Read_PowerCH_VoltOffset` returns. -/
def readValue (b : Build) (fw : Firmware) (p : Param) (ch : Channel) : Option Int :=
  (readParam b p ch fw.ee).map fun r => asLive p r.1

/-- Every parameter is live as it is read. -/
def InSync (b : Build) (fw : Firmware) : Prop := ∀ p ch, fw.readValue b p ch = some (fw.live p ch)

/-- In every state of the run the parameters are live as they are read, and a step leaves the parameters alone that it is not
asked to store. -/
def CalibrationLaw (b : Build) (board : Board) (ops : List MainOp) : Prop :=
  (∀ pre, pre <+: ops → ∀ fw, reach b board pre = .ok fw → fw.InSync b) ∧
    ∀ pre op, pre ++ [op] <+: ops → ∀ fw fw', reach b board pre = .ok fw → op.run b fw = .ok fw' →
      ∀ p ch, (op.request fw).sets p ch = none → fw'.readValue b p ch = fw.readValue b p ch ∧ fw'.live p ch = fw.live p ch

/-! ## Words -/

/-- Only all ones does not read as the value it stands for. -/
theorem asLive_readAs_iff (p : Param) (v : Nat) : asLive p (readAs p v) = asLive p v ↔ v ≠ 0xFFFFFFFF := by
  unfold readAs
  split
  · next h =>
    rw [h]
    cases p <;> decide
  · next h => simp [h]

theorem readValue_eq {fw : Firmware} (h : fw.Ready) (b : Build) (p : Param) (ch : Channel) :
    fw.readValue b p ch = some (asLive p (readAs p (fw.setting p ch))) := by
  obtain ⟨ee, he, -⟩ := readParam_resident h.ee b p ch
  rw [readValue, he]
  rfl

/-! ## Steps -/

/-- A step that stores the parameters `f` says. -/
structure Stores (f : Param → Channel → Option Nat) (fw fw' : Firmware) : Prop where
  ready : fw'.Ready
  setting : ∀ p ch, fw'.setting p ch = (f p ch).getD (fw.setting p ch)
  live : ∀ p ch, fw'.live p ch = ((f p ch).map (asLive p)).getD (fw.live p ch)

theorem Effect.stores {f : Param → Channel → Option Nat} {fw fw' : Firmware} (h : Effect f fw fw') : Stores f fw fw' :=
  ⟨h.ready, h.setting, h.live⟩

/-- A step stores what it is asked to, or it is asked to restart. -/
theorem run_ends {fw : Firmware} (h : fw.Ready) (b : Build) (op : MainOp) :
    Ends (fun fw' => Stores (op.request fw).sets fw fw') (fun _ => op.request fw = .restart) (op.run b fw) := by
  cases op with
  | receive c =>
    refine (receiveChar_ends h b c).mono (fun _ he => he.2.stores) ?_
    rintro (fw' | _) he
    · exact he.1
    · exact he.elim
  | cacheCheck =>
    obtain ⟨fw', he, hr, hs, -, hl, -⟩ := cacheCheck_spec h
    rw [MainOp.run, he]
    refine ⟨hr, fun p ch => ?_, fun p ch => ?_⟩
    · exact congrFun (congrFun hs p) ch
    · exact congrFun (congrFun hl p) ch
  | sample => exact (runChannels_quiet h).stores

/-- From a state in which the parameters are live as they are read, a step leads to another exactly when it does not store all
ones. -/
theorem Stores.inSync_iff {f : Param → Channel → Option Nat} {fw fw' : Firmware} {b : Build} (h : Stores f fw fw')
    (hr : fw.Ready) (hs : fw.InSync b) : fw'.InSync b ↔ ∀ p ch, f p ch ≠ some 0xFFFFFFFF := by
  refine forall_congr' fun p => forall_congr' fun ch => ?_
  have hsync := hs p ch
  rw [readValue_eq hr, Option.some.injEq] at hsync
  rw [readValue_eq h.ready, h.setting, h.live, Option.some.injEq]
  cases hf : f p ch with
  | none => simpa using hsync
  | some v => simpa using asLive_readAs_iff p v

/-- What a step does not store stays as it is read and as it is live. -/
theorem Stores.frame {f : Param → Channel → Option Nat} {fw fw' : Firmware} (h : Stores f fw fw') (hr : fw.Ready) (b : Build)
    {p : Param} {ch : Channel} (hf : f p ch = none) :
    fw'.readValue b p ch = fw.readValue b p ch ∧ fw'.live p ch = fw.live p ch := by
  rw [readValue_eq h.ready, readValue_eq hr, h.setting, h.live, hf]
  exact ⟨rfl, rfl⟩

/-! ## Runs -/

theorem reach_snoc (b : Build) (board : Board) (ops : List MainOp) (op : MainOp) :
    reach b board (ops ++ [op]) = (reach b board ops).bind fun fw => op.run b fw := by
  simp only [reach, List.foldlM_append, List.foldlM_cons, List.foldlM_nil, bind_pure]
  cases start b board <;> rfl

theorem reach_ready (b : Build) (board : Board) (ops : List MainOp) :
    Ends Ready (fun _ => True) (reach b board ops) := by
  induction ops using List.reverseRecOn with
  | nil =>
    obtain ⟨fw, he, hs⟩ := start_started b board
    rw [reach, he]
    exact hs.ready
  | append_singleton ops op ih =>
    rw [reach_snoc]
    exact ih.bind fun fw h => (run_ends h b op).mono (fun _ he => he.ready) fun _ _ => trivial

theorem ready_of_reach {b : Build} {board : Board} {ops : List MainOp} {fw : Firmware} (h : reach b board ops = .ok fw) :
    fw.Ready := by
  have := reach_ready b board ops
  rwa [h] at this

/-- After the start-up every parameter is live as it is read. -/
theorem Started.inSync {board : Board} {fw : Firmware} (h : Started board fw) (b : Build) : fw.InSync b := by
  intro p ch
  rw [readValue_eq h.ready, h.live]

/-- A run that never stores all ones keeps the parameters live as they are read. -/
theorem reach_inSync {b : Build} {board : Board} (ops : List MainOp)
    (hok : ∀ pre op, pre ++ [op] <+: ops → ∀ fw, reach b board pre = .ok fw →
      ∀ p ch, (op.request fw).sets p ch ≠ some 0xFFFFFFFF) :
    ∀ fw, reach b board ops = .ok fw → fw.InSync b := by
  induction ops using List.reverseRecOn with
  | nil =>
    intro fw hfw
    obtain ⟨fw', he, hs⟩ := start_started b board
    obtain rfl : fw' = fw := by
      rw [reach, he] at hfw
      exact Except.ok.inj hfw
    exact hs.inSync b
  | append_singleton ops op ih =>
    intro fw' hfw'
    have ih := ih fun pre op' hp => hok pre op' (hp.trans (List.prefix_append _ _))
    rw [reach_snoc] at hfw'
    cases hx : reach b board ops with
    | error e =>
      rw [hx] at hfw'
      cases hfw'
    | ok fw =>
      rw [hx] at hfw'
      have hr := ready_of_reach hx
      have hst := run_ends hr b op
      rw [show op.run b fw = .ok fw' from hfw'] at hst
      exact (hst.inSync_iff hr (ih fw hx)).mpr (hok ops op (List.prefix_refl _) fw hx)

/-- A line that sets a parameter, received after the start-up. -/
theorem reach_line (b : Build) (board : Board) {l : List UInt8} (hl : Lines.Free isEol l) (p : Param) (ch : Channel)
    {v : Nat} (hreq : Request.ofLine (text (unfinished l)) = .store p ch v) :
    ∃ fw, reach b board ((l ++ [cr]).map MainOp.receive) = .ok fw ∧ fw.Ready ∧ fw.setting p ch = v ∧
      fw.live p ch = asLive p v := by
  have hne : unfinished l ≠ [] := by
    intro h
    rw [h] at hreq
    cases hreq
  obtain ⟨fw₀, he₀, hs₀⟩ := start_started b board
  obtain ⟨m, n, he₁, hm, hr₁⟩ := receive_plain b l hl hs₀.ready.msgBuf (received_nil hs₀.rxSize)
  set fw₁ : Firmware := { fw₀ with msgBuf := m, rxSize := n } with hfw₁
  have hready : fw₁.Ready :=
    ⟨hs₀.ready.ee, hs₀.ready.token, hs₀.ready.pri, hs₀.ready.sec, hm.trans hs₀.ready.msgBuf, hs₀.ready.index⟩
  have hreach : reach b board (l.map MainOp.receive) = .ok fw₁ := by
    rw [reach, he₀]
    simp only [bind, Except.bind, List.foldlM_map]
    exact he₁
  have hstore : (MainOp.receive cr).request fw₁ = .store p ch v := by
    rw [MainOp.request, charRequest_eq hr₁, List.nil_append, if_pos ⟨rfl, hne⟩, hreq]
  have hst := run_ends hready b (.receive cr)
  rw [hstore] at hst
  cases hx : (MainOp.receive cr).run b fw₁ with
  | error e =>
    rw [hx] at hst
    cases hst
  | ok fw₂ =>
    rw [hx] at hst
    have hsets : (Request.store p ch v).sets p ch = some v := if_pos ⟨rfl, rfl⟩
    refine ⟨fw₂, ?_, hst.ready, ?_, ?_⟩
    · rw [List.map_append, List.map_singleton, reach_snoc, hreach]
      exact hx
    · rw [hst.setting, hsets, Option.getD_some]
    · rw [hst.live, hsets, Option.map_some, Option.getD_some]

end Firmware

/-- In every state of a run each parameter is live as it is read back from the EEPROM, and commands leave the other parameters
alone, exactly when no line of the run stores the word of all ones. -/
theorem calibration_in_sync_iff (b : Build) (board : Firmware.Board) (ops : List MainOp) :
    Firmware.CalibrationLaw b board ops ↔
      ∀ pre op, pre ++ [op] <+: ops → ∀ fw, Firmware.reach b board pre = .ok fw →
        ∀ p ch, (op.request fw).sets p ch ≠ some 0xFFFFFFFF := by
  constructor
  · rintro ⟨hsync, -⟩ pre op hp fw hfw p ch hset
    have hr := Firmware.ready_of_reach hfw
    have hst := Firmware.run_ends hr b op
    cases hx : op.run b fw with
    | error e =>
      rw [hx] at hst
      rw [show op.request fw = .restart from hst] at hset
      cases hset
    | ok fw' =>
      rw [hx] at hst
      have hfw' : Firmware.reach b board (pre ++ [op]) = .ok fw' := by rw [Firmware.reach_snoc, hfw]; exact hx
      exact (hst.inSync_iff hr (hsync pre ((List.prefix_append _ _).trans hp) fw hfw)).mp (hsync _ hp fw' hfw') p ch hset
  · intro hok
    refine ⟨fun pre hpre => Firmware.reach_inSync pre fun q op hq => hok q op (hq.trans hpre), ?_⟩
    intro pre op _ fw fw' hfw hrun p ch hf
    have hr := Firmware.ready_of_reach hfw
    have hst := Firmware.run_ends hr b op
    rw [hrun] at hst
    exact hst.frame hr b hf

/-- The line "offset pri -1" on an erased flash: the offset in use is -1, and it reads back as its default, 1. -/
theorem calibration_out_of_sync :
    let b : Build := { date := [], time := [], order4 := .leftFirst, order2 := .leftFirst }
    let board : Firmware.Board :=
      { dev := { pages := fun _ _ => 0xFF, buf := fun _ _ => 0, programs := [] }, busy := 0, delays := [], id := 0, adcIn := [],
        usart := [] }
    let ops := (bytes "offset pri -1\r").map MainOp.receive
    (∃ fw, Firmware.reach b board ops = .ok fw ∧ fw.live .offset .pri = -1 ∧ fw.readValue b .offset .pri = some 1) ∧
      ¬ Firmware.CalibrationLaw b board ops := by
  intro b board ops
  obtain ⟨fw, hfw, hready, hset, hlive⟩ := Firmware.reach_line b board (l := bytes "offset pri -1") (by decide) .offset .pri
    (v := 0xFFFFFFFF) (by decide)
  have hlive' : fw.live .offset .pri = -1 := hlive.trans (by decide)
  have hread : fw.readValue b .offset .pri = some 1 := by
    rw [Firmware.readValue_eq hready, hset]
    decide
  refine ⟨⟨fw, hfw, hlive', hread⟩, fun law => ?_⟩
  have hsync := law.1 ops (List.prefix_refl _) fw hfw .offset .pri
  rw [hread, hlive'] at hsync
  revert hsync
  decide

end PowerMonitor
