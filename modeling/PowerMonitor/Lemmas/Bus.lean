import PowerMonitor.Lemmas.DataFlash
import PowerMonitor.Firmware.PowerChanel
import PowerMonitor.Lib.Lines

/-!
# What the drivers do on the bus

A call of a driver is a number of sessions with one device: its pin goes low, bytes are transferred, its pin goes high
(`Sessions`). A session with the flash that begins while the chip is busy reads the status. The commands that the flash is sent
can be read off the record of the bus.
-/

namespace PowerMonitor

/-- The byte a transfer sends. -/
def BusEvent.sent : BusEvent → Option UInt8
  | .transfer b _ _ _ => some b
  | .codr _ => none
  | .sodr _ => none

/-- A transfer with the device at the pin `p`: its pin alone is low, and a busy flash is only asked for its status. -/
def BusEvent.Lawful (p : Pin) : BusEvent → Prop
  | .transfer b lows opcode busy => lows = [p] ∧ (opcode = true → busy = true → b = 0xD7)
  | .codr _ => True
  | .sodr _ => True

/-- The end of a session. -/
def BusEvent.ends (p : Pin) (e : BusEvent) : Bool := e = .sodr p

/-- What was sent in each session with the device at the pin `p`. -/
def commands (p : Pin) (es : List BusEvent) : List (List UInt8) :=
    (Lines.pieces (BusEvent.ends p) es).map fun e => e.filterMap BusEvent.sent

/-- The bytes `bs` are transferred while the pin `p` alone is low. -/
inductive Transfers (p : Pin) : List UInt8 → Spi → Spi → Prop where
  | refl (s : Spi) : Transfers p [] s s
  | transfer {bs : List UInt8} {s s' : Spi} (h : Transfers p bs s s') (b : UInt8) (hl : s'.lows = [p])
      (hb : s'.low .PA17 = true → s'.chip.pos = 0 → s'.chip.busy ≠ 0 → b = 0xD7) : Transfers p (bs ++ [b]) s (s'.transfer b).2

/-- The sessions `css` with the device at the pin `p`. -/
inductive Sessions (p : Pin) : List (List UInt8) → Spi → Spi → Prop where
  | refl (s : Spi) : Sessions p [] s s
  | session {css : List (List UInt8)} {bs : List UInt8} {s s' s'' : Spi} (h : Sessions p css s s')
      (ht : Transfers p bs (s'.codr p) s'') :
      Sessions p (css ++ [bs]) s (s''.sodr p)

theorem Sessions.trans {p : Pin} {css css' : List (List UInt8)} {s s' s'' : Spi} (h : Sessions p css s s')
    (h' : Sessions p css' s' s'') :
    Sessions p (css ++ css') s s'' := by
  induction h' with
  | refl => simpa using h
  | session _ ht ih =>
    rw [← List.append_assoc]
    exact (ih h).session ht

/-! ## The record of the bus -/

theorem transfer_trace (b : UInt8) (s : Spi) :
    (s.transfer b).2.trace = s.trace ++ [.transfer b s.lows (s.low .PA17 && s.chip.pos == 0) (s.chip.busy != 0)] := by
  unfold Spi.transfer
  dsimp only
  split <;> rfl

theorem Transfers.trace {p : Pin} {bs : List UInt8} {s s' : Spi} (h : Transfers p bs s s') :
    ∃ es, s'.trace = s.trace ++ es ∧ (∀ e ∈ es, e.Lawful p) ∧ Lines.Free (BusEvent.ends p) es ∧
      es.filterMap BusEvent.sent = bs := by
  induction h with
  | refl => exact ⟨[], by simp, by simp, Lines.Free.nil, rfl⟩
  | @transfer bs s s' _ b hl hb ih =>
    obtain ⟨es, he, hlaw, hfree, hsent⟩ := ih
    refine ⟨es ++ [.transfer b s'.lows (s'.low .PA17 && s'.chip.pos == 0) (s'.chip.busy != 0)], ?_, ?_, ?_, ?_⟩
    · rw [transfer_trace, he, List.append_assoc]
    · intro e hmem
      rcases List.mem_append.mp hmem with hmem | hmem
      · exact hlaw e hmem
      · rw [List.mem_singleton.mp hmem]
        refine ⟨hl, fun hop hbusy => ?_⟩
        rw [Bool.and_eq_true, beq_iff_eq] at hop
        exact hb hop.1 hop.2 (by simpa using hbusy)
    · exact hfree.append (by simp [Lines.Free, BusEvent.ends])
    · rw [List.filterMap_append, hsent]
      rfl

/-- Sessions leave a record of lawful transfers from which the commands can be read. -/
theorem Sessions.trace {p : Pin} {css : List (List UInt8)} {s s' : Spi} (h : Sessions p css s s') :
    ∃ es, s'.trace = s.trace ++ es ∧ (∀ e ∈ es, e.Lawful p) ∧ commands p es = css ∧ Lines.rest (BusEvent.ends p) es = [] := by
  induction h with
  | refl => exact ⟨[], by simp, by simp, rfl, rfl⟩
  | @session css bs s s' s'' _ ht ih =>
    obtain ⟨es, he, hlaw, hcmd, hrest⟩ := ih
    obtain ⟨ts, hte, htlaw, htfree, htsent⟩ := ht.trace
    have hfree : Lines.Free (BusEvent.ends p) (.codr p :: ts) := by
      have hc : Lines.Free (BusEvent.ends p) [.codr p] := by simp [Lines.Free, BusEvent.ends]
      exact hc.append htfree
    have hpieces : Lines.pieces (BusEvent.ends p) (es ++ .codr p :: ts) = Lines.pieces (BusEvent.ends p) es ∧
        Lines.rest (BusEvent.ends p) (es ++ .codr p :: ts) = .codr p :: ts := by
      rw [Lines.pieces_append, Lines.rest_append, hrest, List.nil_append, Lines.pieces_free hfree, Lines.rest_of_free hfree]
      exact ⟨List.append_nil _, rfl⟩
    have hstop := Lines.snoc_stop (p := BusEvent.ends p) (es ++ .codr p :: ts) (a := .sodr p) (by simp [BusEvent.ends])
    refine ⟨(es ++ .codr p :: ts) ++ [.sodr p], ?_, ?_, ?_, hstop.2⟩
    · have htrace : (s''.sodr p).trace = s''.trace ++ [.sodr p] := rfl
      have hcodr : (s'.codr p).trace = s'.trace ++ [.codr p] := rfl
      rw [htrace, hte, hcodr, he]
      simp only [List.append_assoc, List.cons_append, List.nil_append]
    · intro e hmem
      simp only [List.mem_append, List.mem_cons, List.not_mem_nil, or_false] at hmem
      rcases hmem with (hmem | rfl | hmem) | rfl
      · exact hlaw e hmem
      · trivial
      · exact htlaw e hmem
      · trivial
    · rw [commands, hstop.1, hpieces.1, hpieces.2, List.map_append, ← hcmd, ← htsent, commands]
      rfl

/-! ## The flash -/

/-- The pins that are low when one is. -/
theorem lows_eq {s : Spi} {p : Pin} (h : s.low = Function.update (fun _ => false) p true) : s.lows = [p] := by
  rw [Spi.lows, h]
  cases p <;> rfl

namespace DataFlashAux

open DataFlash

/-- A session with the flash in which the bytes `bs` have been transferred, at least one. -/
structure Clocked (bs : List UInt8) (s s' : Spi) : Prop where
  transfers : Transfers .PA17 bs s s'
  selected : s'.Selected
  pos : s'.chip.pos ≠ 0

/-- Every byte moves the command on. -/
theorem clock_pos (c : Chip) (b : UInt8) : (c.clock b).2.pos ≠ 0 := by
  have hl : (c.latch b).pos ≠ 0 := by
    unfold Chip.latch
    split <;> simp
  unfold Chip.clock
  split
  · exact hl
  · split
    · exact hl
    · exact hl
    · exact hl
    · exact hl
    · dsimp only
      split <;> exact hl
    · exact hl
    · exact hl
    · exact hl

/-- The first byte of a session: the status read, unless the chip is ready. -/
theorem clocked_first {s : Spi} (h : s.Idle) {b : UInt8} (hb : s.chip.busy ≠ 0 → b = 0xD7) :
    Clocked [b] (csOn s) ((csOn s).transfer b).2 := by
  have hs := csOn_selected h
  refine ⟨(Transfers.refl _).transfer b (lows_eq hs.low) fun _ _ => hb, transfer_selected hs b, ?_⟩
  rw [transfer_chip hs]
  exact clock_pos _ b

theorem Clocked.transfer {bs : List UInt8} {s s' : Spi} (h : Clocked bs s s') (b : UInt8) : Clocked (bs ++ [b]) s
    (s'.transfer b).2 := by
  refine ⟨h.transfers.transfer b (lows_eq h.selected.low) fun _ hp => absurd hp h.pos, transfer_selected h.selected b, ?_⟩
  rw [transfer_chip h.selected]
  exact clock_pos _ b

theorem Clocked.send (cs : List UInt8) : ∀ {bs : List UInt8} {s s' : Spi}, Clocked bs s s' → Clocked (bs ++ cs) s
    (s'.send cs) := by
  induction cs with
  | nil =>
    intro bs s s' h
    simpa [Spi.send] using h
  | cons c cs ih =>
    intro bs s s' h
    rw [List.append_cons]
    exact ih (h.transfer c)

/-- A data loop transfers bytes, however many it is. -/
theorem Clocked.readLoop {s : Spi} (fuel : Nat) : ∀ {bs : List UInt8} {i bound k : Nat} {dest dest' : Bytes} {s' s'' : Spi},
    Clocked bs s s' → readLoop fuel i bound k dest s' = some (dest', s'') → ∃ rest, Clocked (bs ++ rest) s s'' := by
  induction fuel with
  | zero =>
    intro bs i bound k dest dest' s' s'' _ he
    cases he
  | succ fuel ih =>
    intro bs i bound k dest dest' s' s'' h he
    rw [DataFlash.readLoop] at he
    split at he
    · obtain ⟨rest, hr⟩ := ih (h.transfer 0) he
      exact ⟨0 :: rest, by rw [List.append_cons]; exact hr⟩
    · cases he
      exact ⟨[], by rw [List.append_nil]; exact h⟩

theorem Clocked.writeLoop {s : Spi} (fuel : Nat) : ∀ {bs : List UInt8} {i bound k : Nat} {src : Bytes} {s' s'' : Spi},
    Clocked bs s s' → writeLoop fuel i bound k src s' = some s'' → ∃ rest, Clocked (bs ++ rest) s s'' := by
  induction fuel with
  | zero =>
    intro bs i bound k src s' s'' _ he
    cases he
  | succ fuel ih =>
    intro bs i bound k src s' s'' h he
    rw [DataFlash.writeLoop] at he
    split at he
    · obtain ⟨rest, hr⟩ := ih (h.transfer (src k)) he
      exact ⟨src k :: rest, by rw [List.append_cons]; exact hr⟩
    · cases he
      exact ⟨[], by rw [List.append_nil]; exact h⟩

/-- Sessions with the flash between two states in which no session is open. -/
structure Spoken (css : List (List UInt8)) (s s' : Spi) : Prop where
  sessions : Sessions .PA17 css s s'
  idle : s'.Idle

theorem Spoken.refl {s : Spi} (h : s.Idle) : Spoken [] s s := ⟨.refl s, h⟩

/-- The end of a session. -/
theorem Spoken.session {css : List (List UInt8)} {bs : List UInt8} {s s' s'' : Spi} (h : Spoken css s s')
    (hc : Clocked bs (csOn s') s'') :
    Spoken (css ++ [bs]) s (csOff s'') := by
  refine ⟨?_, csOff_idle hc.selected⟩
  have ht := hc.transfers
  rw [csOn, h.idle.csPin] at ht
  rw [csOff, hc.selected.csPin]
  exact h.sessions.session ht

/-- The status read. -/
def statusRead : List UInt8 := [0xD7, 0xFF]

/-- The wait for the chip reads the status until the chip is ready. -/
theorem pollReady_spoken (fuel : Nat) : ∀ {s s' : Spi}, s.Idle → pollReady fuel s = some s' →
    ∃ n, Spoken (List.replicate n statusRead) s s' ∧ s'.chip.busy = 0 := by
  induction fuel with
  | zero =>
    intro s s' _ he
    cases he
  | succ fuel ih =>
    intro s s' h he
    obtain ⟨hi, hr, -, -, hb⟩ := isFlashReady_spec h
    have hone : Spoken [statusRead] s (isFlashReady s).2 :=
      (Spoken.refl h).session ((clocked_first h fun _ => rfl).transfer 0xFF)
    rw [pollReady] at he
    split at he
    · next hready =>
      cases he
      have h0 := hr.mp hready
      exact ⟨1, hone, by omega⟩
    · obtain ⟨n, hn, hbusy⟩ := ih hi he
      exact ⟨n + 1, ⟨hone.sessions.trans hn.sessions, hn.idle⟩, hbusy⟩

theorem waitReady_spoken {s s' : Spi} (h : s.Idle) (he : waitReady s = some s') :
    ∃ n, Spoken (List.replicate n statusRead) s s' ∧ s'.chip.busy = 0 := pollReady_spoken _ h he

/-- The bytes a session with a ready chip begins with. -/
theorem clocked_send {s : Spi} (h : s.Idle) (hb : s.chip.busy = 0) (b : UInt8) (bs : List UInt8) :
    Clocked (b :: bs) (csOn s) ((csOn s).send (b :: bs)) := (clocked_first h fun hne => absurd hb hne).send bs

/-- A call that sends nothing for a page outside the token, and otherwise reads the status until the chip is ready and then
sends a command that begins with the bytes `header`. -/
def Commands (tk : DFToken) (page : Nat) (header : List UInt8) (s s' : Spi) : Prop :=
  (tk.size ≤ page ∧ s' = s) ∨
    (page < tk.size ∧ ∃ n rest, Spoken (List.replicate n statusRead ++ [header ++ rest]) s s')

/-- A call that waits for the chip and has one session with it, which begins with the bytes `header`. -/
theorem commands_of_session {tk : DFToken} {page : Nat} {header : List UInt8} {s s₁ s₂ : Spi} (h : s.Idle) (hp : page < tk.size)
    (hw : waitReady s = some s₁) (hc : s₁.Idle → s₁.chip.busy = 0 → ∃ rest, Clocked (header ++ rest) (csOn s₁) s₂) :
    Commands tk page header s (csOff s₂) := by
  obtain ⟨n, hn, hb⟩ := waitReady_spoken h hw
  obtain ⟨rest, hr⟩ := hc hn.idle hb
  exact Or.inr ⟨hp, n, rest, hn.session hr⟩

end DataFlashAux

namespace DataFlash

open DataFlashAux

variable {tk : DFToken} {page offset size : Nat} {w : DFBuff} {s s' : Spi}

theorem tokenCheck_cases (tk : DFToken) (page : Nat) :
    (tokenCheck tk page < 0 ∧ tk.size ≤ page) ∨ (¬tokenCheck tk page < 0 ∧ page < tk.size) := by
  rcases Nat.lt_or_ge page tk.size with hp | hp
  · exact Or.inr ⟨accepted hp, hp⟩
  · exact Or.inl ⟨(tokenCheck_neg_iff tk page).mpr hp, hp⟩

theorem readPageDirect_commands {dest dest' : Bytes} (h : s.Idle)
    (he : readPageDirect tk page offset size dest s = some (dest', s')) :
    let p := (page + tk.firstPage) % 65536
    Commands tk page [0xD2, .ofNat (p >>> 6), .ofNat ((p <<< 2) ||| (offset >>> 8)), .ofNat offset, 0, 0, 0, 0] s s' := by
  intro p
  rw [readPageDirect] at he
  rcases tokenCheck_cases tk page with ⟨hc, hp⟩ | ⟨hc, hp⟩
  · rw [if_pos hc] at he
    cases he
    exact Or.inl ⟨hp, rfl⟩
  · simp only [if_neg hc, Option.bind_eq_bind, Option.bind_eq_some_iff] at he
    obtain ⟨s₁, hw, ⟨d, s₂⟩, hl, he⟩ := he
    cases he
    exact commands_of_session h hp hw fun hi hb => (clocked_send hi hb _ _).readLoop _ hl

theorem bufferRead_commands {dest dest' : Bytes} (h : s.Idle) (he : bufferRead tk page offset size w dest s = some (dest', s')) :
    Commands tk page [if w = .buffer1 then 0xD4 else 0xD6, 0, .ofNat (offset >>> 8), .ofNat offset, 0] s s' := by
  rw [bufferRead] at he
  rcases tokenCheck_cases tk page with ⟨hc, hp⟩ | ⟨hc, hp⟩
  · rw [if_pos hc] at he
    cases he
    exact Or.inl ⟨hp, rfl⟩
  · simp only [if_neg hc, Option.bind_eq_bind, Option.bind_eq_some_iff] at he
    obtain ⟨s₁, hw, ⟨d, s₂⟩, hl, he⟩ := he
    cases he
    exact commands_of_session h hp hw fun hi hb => (clocked_send hi hb _ _).readLoop _ hl

theorem bufferWrite_commands {src : Bytes} (h : s.Idle) (he : bufferWrite tk page offset size w src s = some s') :
    Commands tk page [if w = .buffer1 then 0x84 else 0x87, 0, .ofNat (offset >>> 8), .ofNat offset] s s' := by
  rw [bufferWrite] at he
  rcases tokenCheck_cases tk page with ⟨hc, hp⟩ | ⟨hc, hp⟩
  · rw [if_pos hc] at he
    cases he
    exact Or.inl ⟨hp, rfl⟩
  · simp only [if_neg hc, Option.bind_eq_bind, Option.bind_eq_some_iff] at he
    obtain ⟨s₁, hw, s₂, hl, he⟩ := he
    cases he
    exact commands_of_session h hp hw fun hi hb => (clocked_send hi hb _ _).writeLoop _ hl

theorem writeBufferToFlash_commands (h : s.Idle) (he : writeBufferToFlash tk page w s = some s') :
    let p := (page + tk.firstPage) % 65536
    Commands tk page [if w = .buffer1 then 0x83 else 0x86, .ofNat (p >>> 6), .ofNat ((p <<< 2) + 0), 0] s s' := by
  intro p
  rw [writeBufferToFlash] at he
  rcases tokenCheck_cases tk page with ⟨hc, hp⟩ | ⟨hc, hp⟩
  · rw [if_pos hc] at he
    cases he
    exact Or.inl ⟨hp, rfl⟩
  · simp only [if_neg hc, Option.bind_eq_bind, Option.bind_eq_some_iff] at he
    obtain ⟨s₁, hw, he⟩ := he
    cases he
    exact commands_of_session h hp hw fun hi hb => ⟨[], clocked_send hi hb _ _⟩

theorem readFlashToBuffer_commands (h : s.Idle) (he : readFlashToBuffer tk page w s = some s') :
    let p := (page + tk.firstPage) % 65536
    Commands tk page [if w = .buffer1 then 0x53 else 0x55, .ofNat (p >>> 6), .ofNat ((p <<< 2) + 0), 0] s s' := by
  intro p
  rw [readFlashToBuffer] at he
  rcases tokenCheck_cases tk page with ⟨hc, hp⟩ | ⟨hc, hp⟩
  · rw [if_pos hc] at he
    cases he
    exact Or.inl ⟨hp, rfl⟩
  · simp only [if_neg hc, Option.bind_eq_bind, Option.bind_eq_some_iff] at he
    obtain ⟨s₁, hw, he⟩ := he
    cases he
    exact commands_of_session h hp hw fun hi hb => ⟨[], clocked_send hi hb _ _⟩

theorem readChipID_spoken {r : UInt8} (h : s.Idle) (he : readChipID s = some (r, s')) :
    ∃ n, Spoken (List.replicate n statusRead ++ [[0x9F, 0, 0]]) s s' := by
  simp only [readChipID, Option.bind_eq_bind, Option.bind_eq_some_iff] at he
  obtain ⟨s₁, hw, he⟩ := he
  cases he
  obtain ⟨n, hn, hb⟩ := waitReady_spoken h hw
  exact ⟨n, hn.session ((clocked_send hn.idle hb 0x9F [0]).transfer 0)⟩

end DataFlash

/-! ## The converters -/

namespace AD7787

/-- `s'` is `s` but for the bytes the converters have shifted out. -/
structure SameFlash (s s' : Spi) : Prop where
  csPin : s'.csPin = s.csPin
  low : s'.low = s.low
  chip : s'.chip = s.chip

theorem SameFlash.trans {s s' s'' : Spi} (h : SameFlash s s') (h' : SameFlash s' s'') : SameFlash s s'' :=
  ⟨h'.csPin.trans h.csPin, h'.low.trans h.low, h'.chip.trans h.chip⟩

/-- A transfer while the flash is not selected. -/
theorem transfer_sameFlash {s : Spi} (h : s.low .PA17 = false) (b : UInt8) : SameFlash s (s.transfer b).2 := by
  refine ⟨?_, ?_, ?_⟩ <;> simp [Spi.transfer, h]

theorem send_sameFlash (bs : List UInt8) : ∀ {s : Spi}, s.low .PA17 = false → SameFlash s (s.send bs) := by
  induction bs with
  | nil => exact fun _ => ⟨rfl, rfl, rfl⟩
  | cons b bs ih =>
    intro s h
    have hb := transfer_sameFlash h b
    exact hb.trans (ih (by rw [hb.low]; exact h))

/-- What a converter's pin is low for leaves the bus idle and the flash alone. -/
theorem selected_idle {p : Pin} (hp : p ≠ .PA17) {s s' : Spi} (h : s.Idle) (hs : SameFlash (s.codr p) s') :
    (s'.sodr p).Idle ∧ (s'.sodr p).chip = s.chip := by
  have hchip : (s'.sodr p).chip = s.chip := by
    simp only [Spi.sodr, hp, false_and, if_false]
    exact hs.chip
  refine ⟨⟨hs.csPin.trans h.csPin, ?_, by rw [hchip]; exact h.pos⟩, hchip⟩
  simp only [Spi.sodr, hs.low, Spi.codr, h.low, Function.update_idem]
  exact Function.update_eq_self p _

theorem codr_low {p : Pin} (hp : p ≠ .PA17) {s : Spi} (h : s.Idle) : (s.codr p).low .PA17 = false := by
  simp [Spi.codr, h.low, Ne.symm hp]

/-- `AD7787_Init` leaves the flash alone. -/
theorem init_spec {p : Pin} (hp : p ≠ .PA17) {s : Spi} (h : s.Idle) : (init p s).Idle ∧ (init p s).chip = s.chip := by
  have hsodr : (s.sodr p).Idle ∧ (s.sodr p).chip = s.chip := by
    refine ⟨⟨h.csPin, ?_, ?_⟩, ?_⟩ <;> simp [Spi.sodr, hp, h.low, h.pos]
  obtain ⟨hi, hc⟩ := selected_idle hp hsodr.1 (send_sameFlash (List.replicate 8 0xFF) (codr_low hp hsodr.1))
  exact ⟨hi, hc.trans hsodr.2⟩

/-- `AD7787_Run` leaves the flash alone. -/
theorem run_spec {p : Pin} (hp : p ≠ .PA17) (ch : AD7787Chanel) {s : Spi} (h : s.Idle) :
    (run p ch s).2.Idle ∧ (run p ch s).2.chip = s.chip := by
  have h₁ := send_sameFlash [if ch = .AD_CH_1 then 0x10 else 0x11, 0x82] (codr_low hp h)
  have h₂ := h₁.trans (send_sameFlash [if ch = .AD_CH_1 then 0x38 else 0x39] (by rw [h₁.low]; exact codr_low hp h))
  have h₃ := h₂.trans (transfer_sameFlash (by rw [h₂.low]; exact codr_low hp h) 0)
  have h₄ := h₃.trans (transfer_sameFlash (by rw [h₃.low]; exact codr_low hp h) 0)
  have h₅ := h₄.trans (transfer_sameFlash (by rw [h₄.low]; exact codr_low hp h) 0)
  exact selected_idle hp h h₅

/-- A session with the converter at the pin `p` in which the bytes `bs` have been transferred. -/
structure Clocked (p : Pin) (bs : List UInt8) (s s' : Spi) : Prop where
  transfers : Transfers p bs s s'
  low : s'.low = Function.update (fun _ => false) p true

theorem clocked_codr {p : Pin} {s : Spi} (h : s.Idle) : Clocked p [] (s.codr p) (s.codr p) :=
  ⟨.refl _, by simp only [Spi.codr, h.low]⟩

/-- A transfer while a converter is selected is none of the flash's. -/
theorem Clocked.transfer {p : Pin} (hp : p ≠ .PA17) {bs : List UInt8} {s s' : Spi} (h : Clocked p bs s s') (b : UInt8) :
    Clocked p (bs ++ [b]) s (s'.transfer b).2 := by
  have hlow : s'.low .PA17 = false := by rw [h.low, Function.update_of_ne (Ne.symm hp)]
  refine ⟨h.transfers.transfer b (lows_eq h.low) fun ht => ?_, ?_⟩
  · rw [hlow] at ht
    cases ht
  · simp only [Spi.transfer, hlow]
    exact h.low

/-- `AD7787_Run` is one session. -/
theorem run_sessions {p : Pin} (hp : p ≠ .PA17) (ch : AD7787Chanel) {s : Spi} (h : s.Idle) :
    ∃ bs, Sessions p [bs] s (run p ch s).2 := by
  have h₁ := (clocked_codr (p := p) h).transfer hp (if ch = .AD_CH_1 then 0x10 else 0x11)
  have h₂ := (h₁.transfer hp 0x82).transfer hp (if ch = .AD_CH_1 then 0x38 else 0x39)
  have h₃ := ((h₂.transfer hp 0).transfer hp 0).transfer hp 0
  exact ⟨_, (Sessions.refl s).session h₃.transfers⟩

end AD7787

end PowerMonitor
