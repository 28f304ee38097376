import PowerMonitor.Firmware.DataFlash

/-!
# The driver refines the device

Each driver function is a whole command on the bus; on an idle bus and for a page of the token it returns, leaves the bus idle,
and does to the device what its name says: `readPageDirect` nothing, `bufferWrite` a `load`, `writeBufferToFlash` a `program`,
`readFlashToBuffer` a `fetch`. For a page outside the token it does nothing at all.
-/

namespace PowerMonitor

/-- Between two commands: DataFlash.c drives the flash's pin, every select pin is high and no command is under way. -/
structure Spi.Idle (s : Spi) : Prop where
  csPin : s.csPin = .PA17
  low : s.low = fun _ => false
  pos : s.chip.pos = 0

/-- During a command: the flash's pin alone is low. -/
structure Spi.Selected (s : Spi) : Prop where
  csPin : s.csPin = .PA17
  low : s.low = Function.update (fun _ => false) .PA17 true

/-- A token whose pages are all pages of the chip (13 bits of page). -/
def DFToken.Fits (tk : DFToken) : Prop := tk.firstPage + tk.size ≤ 8192

/-- `size` bytes of `src` are written to an SRAM buffer from `offset` on. -/
def Device.load (d : Device) (w : DFBuff) (offset size : Nat) (src : Bytes) : Device :=
  { d with buf := Function.update d.buf w fun i =>
      if offset ≤ i ∧ i < offset + size then src (i - offset) else d.buf w i }

namespace DataFlashAux

/-! ## The pins -/

theorem reset_idle (dev : Device) (busy : Nat) (delays : List Nat) (id : UInt8) (adcIn : List UInt8) :
    (Spi.reset dev busy delays id adcIn).Idle :=
  ⟨rfl, rfl, rfl⟩

theorem csOn_selected {s : Spi} (h : s.Idle) : (DataFlash.csOn s).Selected :=
  ⟨h.csPin, by simp [DataFlash.csOn, Spi.codr, h.csPin, h.low]⟩

@[simp] theorem csOn_chip (s : Spi) : (DataFlash.csOn s).chip = s.chip := rfl

/-- Deselecting ends the command. -/
theorem csOff_chip {s : Spi} (h : s.Selected) : (DataFlash.csOff s).chip = s.chip.deselect := by
  simp [DataFlash.csOff, Spi.sodr, h.csPin, h.low]

@[simp] theorem deselect_pos (c : Chip) : c.deselect.pos = 0 := by
  unfold Chip.deselect Chip.start
  split
  · split <;> rfl
  · rfl

theorem csOff_idle {s : Spi} (h : s.Selected) : (DataFlash.csOff s).Idle :=
  ⟨h.csPin, by simp [DataFlash.csOff, Spi.sodr, h.csPin, h.low], by simp [csOff_chip h]⟩

/-- `DataFlash_Init` on an idle bus leaves it idle, and the chip as it is. -/
theorem init_spec {s : Spi} (h : s.Idle) :
    (DataFlash.init .PA17 s).Idle ∧ (DataFlash.init .PA17 s).chip = s.chip := by
  refine ⟨⟨rfl, ?_, ?_⟩, ?_⟩ <;> simp [DataFlash.init, DataFlash.csOff, Spi.sodr, h.low, h.pos]

/-! ## One transfer -/

theorem transfer_selected {s : Spi} (h : s.Selected) (b : UInt8) : (s.transfer b).2.Selected := by
  have hl : s.low .PA17 = true := by simp [h.low]
  exact ⟨by simp [Spi.transfer, hl, h.csPin], by simp [Spi.transfer, hl, h.low]⟩

theorem transfer_fst {s : Spi} (h : s.Selected) (b : UInt8) : (s.transfer b).1 = (s.chip.clock b).1 := by
  simp [Spi.transfer, h.low]

theorem transfer_chip {s : Spi} (h : s.Selected) (b : UInt8) : (s.transfer b).2.chip = (s.chip.clock b).2 := by
  simp [Spi.transfer, h.low]

theorem send_selected {s : Spi} (h : s.Selected) (bs : List UInt8) : (s.send bs).Selected := by
  induction bs generalizing s with
  | nil => exact h
  | cons b bs ih => exact ih (transfer_selected h b)

/-- Sending bytes clocks them into the chip. -/
theorem send_chip {s : Spi} (h : s.Selected) (bs : List UInt8) :
    (s.send bs).chip = bs.foldl (fun c b => (c.clock b).2) s.chip := by
  induction bs generalizing s with
  | nil => rfl
  | cons b bs ih =>
    have e : (s.send (b :: bs)) = (s.transfer b).2.send bs := rfl
    rw [e, ih (transfer_selected h b), transfer_chip h, List.foldl_cons]

/-- The chip with a complete header latched. -/
def header (c : Chip) (op a1 a2 a3 : UInt8) : Chip := { c with op := op, a1 := a1, a2 := a2, a3 := a3, pos := 4 }

/-- The first four bytes of a command other than the status read only fill the latches. -/
theorem clock_header (c : Chip) (hp : c.pos = 0) (op a1 a2 a3 : UInt8) (hop : Opcode.ofByte op ≠ .status) :
    [op, a1, a2, a3].foldl (fun c b => (c.clock b).2) c = header c op a1 a2 a3 := by
  cases h : Opcode.ofByte op with
  | status => exact absurd h hop
  | _ => simp [Chip.clock, Chip.latch, header, hp, h]

/-- The header of a command with one address byte. -/
theorem clock_id (c : Chip) (hp : c.pos = 0) :
    [0x9F, 0].foldl (fun c b => (c.clock b).2) c = { c with op := 0x9F, a1 := 0, pos := 2 } := by
  simp [Chip.clock, Chip.latch, hp, Opcode.ofByte]

/-- Past the header, a byte only moves the position. -/
theorem latch_past (c : Chip) (b : UInt8) (hp : 4 ≤ c.pos) : c.latch b = { c with pos := c.pos + 1 } := by
  obtain ⟨n, hn⟩ : ∃ n, c.pos = n + 4 := ⟨c.pos - 4, by omega⟩
  simp [Chip.latch, hn]

/-- Past the header, a byte of a page read or of a buffer read only moves the position. -/
theorem clock_past (c : Chip) (b : UInt8) (hp : 4 ≤ c.pos)
    (hop : Opcode.ofByte c.op = .pageRead ∨ ∃ w, Opcode.ofByte c.op = .bufferRead w) :
    (c.clock b).2 = { c with pos := c.pos + 1 } := by
  have hne : c.pos ≠ 0 := by omega
  rcases hop with h | ⟨w, h⟩ <;> simp [Chip.clock, h, hne, latch_past c b hp]

/-- Don't-care bytes of a read only move the position. -/
theorem clock_pad (c : Chip) (pad : List UInt8) (hp : 4 ≤ c.pos)
    (hop : Opcode.ofByte c.op = .pageRead ∨ ∃ w, Opcode.ofByte c.op = .bufferRead w) :
    pad.foldl (fun c b => (c.clock b).2) c = { c with pos := c.pos + pad.length } := by
  induction pad generalizing c with
  | nil => rfl
  | cons b pad ih =>
    rw [List.foldl_cons, clock_past c b hp hop, ih { c with pos := c.pos + 1 } (by simp; omega) hop]
    simp only [List.length_cons, Chip.mk.injEq, and_true, true_and]
    omega

/-! ## Waiting for the chip -/

/-- One status poll: the answer is whether the chip was ready, and only the count of busy polls goes down. -/
theorem isFlashReady_spec {s : Spi} (h : s.Idle) :
    (DataFlash.isFlashReady s).2.Idle ∧ ((DataFlash.isFlashReady s).1 = true ↔ s.chip.busy = 0) ∧
      (DataFlash.isFlashReady s).2.chip.dev = s.chip.dev ∧ (DataFlash.isFlashReady s).2.chip.id = s.chip.id ∧
      (DataFlash.isFlashReady s).2.chip.busy = s.chip.busy - 1 := by
  have h1 := csOn_selected h
  have h2 := transfer_selected h1 0xD7
  have h3 := transfer_selected h2 0xFF
  have hst : Opcode.ofByte 0xD7 = .status := by decide
  simp only [DataFlash.isFlashReady, csOff_chip h3, transfer_chip h2, transfer_fst h2, transfer_chip h1]
  refine ⟨csOff_idle h3, ?_, ?_, ?_, ?_⟩
  · by_cases hb : s.chip.busy = 0 <;> simp [Chip.clock, Chip.latch, h.pos, hst, hb]
  all_goals simp [Chip.clock, Chip.latch, Chip.deselect, h.pos, hst]

/-- With enough polls the wait for the chip ends, and it ends with the chip ready. -/
theorem pollReady_spec (fuel : Nat) {s : Spi} (h : s.Idle) (hf : s.chip.busy < fuel) :
    ∃ s', DataFlash.pollReady fuel s = some s' ∧ s'.Idle ∧ s'.chip.dev = s.chip.dev ∧ s'.chip.id = s.chip.id ∧
      s'.chip.busy = 0 := by
  induction fuel generalizing s with
  | zero => omega
  | succ fuel ih =>
    obtain ⟨hi, hr, hd, hid, hb⟩ := isFlashReady_spec h
    by_cases h0 : s.chip.busy = 0
    · exact ⟨_, by simp [DataFlash.pollReady, hr.2 h0], hi, hd, hid, by omega⟩
    · obtain ⟨s', he, hi', hd', hid', hb'⟩ := ih hi (by omega)
      have hne : (DataFlash.isFlashReady s).1 ≠ true := fun e => h0 (hr.1 e)
      exact ⟨s', by simp [DataFlash.pollReady, hne, he], hi', hd'.trans hd, hid'.trans hid, hb'⟩

/-- The wait for the chip always ends. -/
theorem waitReady_spec {s : Spi} (h : s.Idle) :
    ∃ s', DataFlash.waitReady s = some s' ∧ s'.Idle ∧ s'.chip.dev = s.chip.dev ∧ s'.chip.id = s.chip.id ∧
      s'.chip.busy = 0 :=
  pollReady_spec _ h (Nat.lt_succ_self _)

/-! ## The data loops -/

/-- A read loop on a selected chip that answers `f m` to the `m`-th byte from position `p` on stores those answers. -/
theorem readLoop_spec (c : Chip) (p : Nat) (f : Nat → UInt8)
    (hc : ∀ m, ({ c with pos := p + m } : Chip).clock 0 = (f m, { c with pos := p + m + 1 }))
    (n : Nat) : ∀ (fuel i k : Nat) (dest : Bytes) (s : Spi), s.Selected → s.chip = { c with pos := p + k } →
      n < fuel → i + n < 65536 →
      ∃ s', DataFlash.readLoop fuel i (i + n) k dest s =
          some (fun j => if k ≤ j ∧ j < k + n then f j else dest j, s') ∧
        s'.Selected ∧ s'.chip = { c with pos := p + k + n } := by
  induction n with
  | zero =>
    intro fuel i k dest s hs hk hf _
    obtain ⟨fuel, rfl⟩ : ∃ m, fuel = m + 1 := ⟨fuel - 1, by omega⟩
    refine ⟨s, ?_, hs, hk⟩
    simp only [DataFlash.readLoop, Nat.add_zero, Nat.lt_irrefl, if_false, Option.some.injEq, Prod.mk.injEq, and_true]
    funext j
    rw [if_neg (by omega)]
  | succ n ih =>
    intro fuel i k dest s hs hk hf hi
    obtain ⟨fuel, rfl⟩ : ∃ m, fuel = m + 1 := ⟨fuel - 1, by omega⟩
    have hclk := hc k
    rw [← hk] at hclk
    have hchip : (s.transfer 0).2.chip = { c with pos := p + (k + 1) } := by rw [transfer_chip hs, hclk, Nat.add_assoc]
    obtain ⟨s', he, hs', hk'⟩ := ih fuel (i + 1) (k + 1) (Function.update dest k (f k)) _ (transfer_selected hs 0) hchip
      (by omega) (by omega)
    have hmod : (i + 1) % 65536 = i + 1 := Nat.mod_eq_of_lt (by omega)
    have hbound : i + (n + 1) = i + 1 + n := by omega
    refine ⟨s', ?_, hs', by rw [hk']; congr 1; omega⟩
    have hlt : i < i + 1 + n := by omega
    simp only [DataFlash.readLoop, hbound, hlt, if_true, transfer_fst hs, hclk, hmod, he, Option.some.injEq,
      Prod.mk.injEq, and_true]
    funext j
    by_cases hj : j = k
    · subst hj
      simp
    · simp only [Function.update_of_ne hj]
      by_cases hb : k + 1 ≤ j ∧ j < k + 1 + n
      · rw [if_pos hb, if_pos (by omega)]
      · rw [if_neg hb, if_neg (by omega)]

/-- A whole read command up to its rising edge: what the chip answers past the header and the don't-care bytes is stored, and
the device keeps its state. -/
theorem readCommand_spec {s : Spi} (h : s.Idle) (op a1 a2 a3 : UInt8) (pad : List UInt8) (f : Nat → UInt8)
    (hop : Opcode.ofByte op = .pageRead ∨ ∃ w, Opcode.ofByte op = .bufferRead w)
    (hf : ∀ m, (({ header s.chip op a1 a2 a3 with pos := 4 + pad.length + m } : Chip).clock 0).1 = f m)
    (offset size : Nat) (hsz : offset + size < 65536) (dest : Bytes) :
    ∃ s', DataFlash.readLoop DataFlash.loopFuel offset (offset + size) 0 dest
          ((DataFlash.csOn s).send (op :: a1 :: a2 :: a3 :: pad)) =
          some (fun j => if j < size then f j else dest j, s') ∧
      (DataFlash.csOff s').Idle ∧ (DataFlash.csOff s').chip.dev = s.chip.dev ∧ (DataFlash.csOff s').chip.id = s.chip.id := by
  have hsel := csOn_selected h
  have hst : Opcode.ofByte op ≠ .status := by rcases hop with h | ⟨w, h⟩ <;> simp [h]
  have hchip : ((DataFlash.csOn s).send (op :: a1 :: a2 :: a3 :: pad)).chip =
      { header s.chip op a1 a2 a3 with pos := 4 + pad.length + 0 } := by
    have e : op :: a1 :: a2 :: a3 :: pad = [op, a1, a2, a3] ++ pad := rfl
    rw [send_chip hsel, e, List.foldl_append, csOn_chip, clock_header _ h.pos _ _ _ _ hst,
      clock_pad _ _ (Nat.le_refl 4) hop]
    rfl
  have hclk : ∀ m, ({ header s.chip op a1 a2 a3 with pos := 4 + pad.length + m } : Chip).clock 0 =
      (f m, { header s.chip op a1 a2 a3 with pos := 4 + pad.length + m + 1 }) := by
    intro m
    exact Prod.ext (hf m) (clock_past _ 0 (by simp; omega) hop)
  obtain ⟨s', hl, hs', hc'⟩ := readLoop_spec _ _ f hclk size DataFlash.loopFuel offset 0 dest _ (send_selected hsel _) hchip
    (by unfold DataFlash.loopFuel; omega) hsz
  have hdes : (DataFlash.csOff s').chip.dev = s.chip.dev ∧ (DataFlash.csOff s').chip.id = s.chip.id := by
    rw [csOff_chip hs', hc']
    rcases hop with h | ⟨w, h⟩ <;> simp only [Chip.deselect, header, h] <;> split <;> exact ⟨rfl, rfl⟩
  refine ⟨s', ?_, csOff_idle hs', hdes⟩
  rw [hl]
  simp

/-- Loading one byte more. -/
theorem load_succ (d : Device) (w : DFBuff) (off m : Nat) (src : Bytes) :
    (d.load w off m src).store w (off + m) (src m) = d.load w off (m + 1) src := by
  simp only [Device.load, Device.store, Function.update_self, Function.update_idem, Device.mk.injEq, and_true, true_and]
  congr 1
  funext i
  by_cases hi : i = off + m
  · subst hi
    simp
  · simp only [Function.update_of_ne hi]
    by_cases hb : off ≤ i ∧ i < off + m
    · rw [if_pos hb, if_pos (by omega)]
    · rw [if_neg hb, if_neg (by omega)]

theorem load_zero (d : Device) (w : DFBuff) (off : Nat) (src : Bytes) : d.load w off 0 src = d := by
  have : (fun i => if off ≤ i ∧ i < off + 0 then src (i - off) else d.buf w i) = d.buf w := by
    funext i
    rw [if_neg (by omega)]
  rw [Device.load, this, Function.update_eq_self]

/-- A write loop on a selected chip that is taking a buffer write loads the bytes into the buffer. -/
theorem writeLoop_spec (c : Chip) (d : Device) (w : DFBuff) (off : Nat) (src : Bytes)
    (hop : Opcode.ofByte c.op = .bufferWrite w) (hb : c.busy = 0) (hbyte : c.byte = off) (n : Nat) :
    ∀ (fuel i k : Nat) (s : Spi), s.Selected → s.chip = { c with dev := d.load w off k src, pos := 4 + k } →
      n < fuel → i + n < 65536 → off + k + n ≤ 528 →
      ∃ s', DataFlash.writeLoop fuel i (i + n) k src s = some s' ∧ s'.Selected ∧
        s'.chip = { c with dev := d.load w off (k + n) src, pos := 4 + k + n } := by
  induction n with
  | zero =>
    intro fuel i k s hs hk hf _ _
    obtain ⟨fuel, rfl⟩ : ∃ m, fuel = m + 1 := ⟨fuel - 1, by omega⟩
    exact ⟨s, by simp [DataFlash.writeLoop], hs, hk⟩
  | succ n ih =>
    intro fuel i k s hs hk hf hi hoff
    obtain ⟨fuel, rfl⟩ : ∃ m, fuel = m + 1 := ⟨fuel - 1, by omega⟩
    have hbyte' : s.chip.byte = off := by rw [hk]; exact hbyte
    have hchip : (s.transfer (src k)).2.chip = { c with dev := d.load w off (k + 1) src, pos := 4 + (k + 1) } := by
      have hpos : s.chip.pos = k + 4 := by rw [hk]; exact Nat.add_comm 4 k
      have hidx : (s.chip.byte + (s.chip.pos - 4)) % 528 = off + k := by
        rw [hbyte', hpos]
        exact Nat.mod_eq_of_lt (by omega)
      have hop' : Opcode.ofByte s.chip.op = .bufferWrite w := by rw [hk]; exact hop
      have hb' : s.chip.busy = 0 := by rw [hk]; exact hb
      have hne : s.chip.pos ≠ 0 := by omega
      have h4 : 4 ≤ s.chip.pos := by omega
      rw [transfer_chip hs]
      simp only [Chip.clock, hop', hidx, hb', hne, h4, and_self, if_true, if_false, latch_past _ _ h4]
      simp only [hk, hb, load_succ, Nat.add_assoc]
    obtain ⟨s', he, hs', hk'⟩ := ih fuel (i + 1) (k + 1) _ (transfer_selected hs (src k)) hchip (by omega) (by omega)
      (by omega)
    have hmod : (i + 1) % 65536 = i + 1 := Nat.mod_eq_of_lt (by omega)
    have hbound : i + (n + 1) = i + 1 + n := by omega
    have hlt : i < i + 1 + n := by omega
    refine ⟨s', by simp only [DataFlash.writeLoop, hbound, hlt, if_true, hmod, he], hs', ?_⟩
    rw [hk', Nat.add_right_comm k 1 n, show 4 + (k + 1) + n = 4 + k + (n + 1) by omega, Nat.add_assoc k n 1]

/-! ## Addresses -/

theorem toNat_ofNat (n : Nat) : (UInt8.ofNat n).toNat = n % 256 := by simp

/-- The address of a page command: the page, at the byte given. -/
theorem page_address {page offset : Nat} (hp : page < 8192) (ho : offset < 1024) :
    (UInt8.ofNat (page >>> 6)).toNat * 65536 + (UInt8.ofNat ((page <<< 2) ||| (offset >>> 8))).toNat * 256 +
      (UInt8.ofNat offset).toNat = page * 1024 + offset := by
  have hor : (page <<< 2) ||| (offset >>> 8) = page * 4 + offset / 256 := by
    have hlt : offset / 2 ^ 8 < 2 ^ 2 := by omega
    rw [Nat.shiftLeft_eq, Nat.shiftRight_eq_div_pow, Nat.mul_comm page]
    exact (Nat.two_pow_add_eq_or_of_lt hlt page).symm.trans (by omega)
  rw [hor, Nat.shiftRight_eq_div_pow]
  simp only [toNat_ofNat]
  omega

/-- The address of a page command without a byte offset. -/
theorem page_address' {page : Nat} (hp : page < 8192) :
    (UInt8.ofNat (page >>> 6)).toNat * 65536 + (UInt8.ofNat ((page <<< 2) + 0)).toNat * 256 + (0 : UInt8).toNat =
      page * 1024 := by
  rw [Nat.shiftLeft_eq, Nat.shiftRight_eq_div_pow]
  simp only [toNat_ofNat, Nat.add_zero, UInt8.toNat_zero]
  omega

/-- The address of a buffer command: the byte given. -/
theorem buffer_address {offset : Nat} (ho : offset < 1024) :
    (0 : UInt8).toNat * 65536 + (UInt8.ofNat (offset >>> 8)).toNat * 256 + (UInt8.ofNat offset).toNat = offset := by
  rw [Nat.shiftRight_eq_div_pow]
  simp only [toNat_ofNat, UInt8.toNat_zero]
  omega

end DataFlashAux

/-! ## The driver functions -/

open DataFlashAux

namespace DataFlash

theorem tokenCheck_neg_iff (tk : DFToken) (page : Nat) : tokenCheck tk page < 0 ↔ tk.size ≤ page := by
  unfold tokenCheck
  split <;> simp <;> omega

theorem accepted {tk : DFToken} {page : Nat} (hp : page < tk.size) : ¬tokenCheck tk page < 0 :=
  (tokenCheck_neg_iff tk page).not.mpr (Nat.not_le.mpr hp)

/-- A page of a token that fits is a page of the chip, and the 16-bit sum that names it does not wrap. -/
theorem physical_page {tk : DFToken} (hf : tk.Fits) {page : Nat} (hp : page < tk.size) :
    (page + tk.firstPage) % 65536 = tk.firstPage + page ∧ tk.firstPage + page < 8192 := by
  unfold DFToken.Fits at hf
  omega

/-- The driver does nothing for a page outside the token. -/
theorem refused (tk : DFToken) {page : Nat} (hp : tk.size ≤ page) (offset size : Nat) (w : DFBuff) (mem : Bytes) (s : Spi) :
    readPageDirect tk page offset size mem s = some (mem, s) ∧ readFlashToBuffer tk page w s = some s ∧
      writeBufferToFlash tk page w s = some s ∧ bufferRead tk page offset size w mem s = some (mem, s) ∧
      bufferWrite tk page offset size w mem s = some s := by
  have h := (tokenCheck_neg_iff tk page).2 hp
  simp [readPageDirect, readFlashToBuffer, writeBufferToFlash, bufferRead, bufferWrite, h]

/-- `DFS_ReadPageDirect` stores the bytes of the page in the caller's memory and leaves the device as it is. -/
theorem readPageDirect_spec {tk : DFToken} (hf : tk.Fits) {page offset size : Nat} (hp : page < tk.size)
    (ho : offset + size ≤ 528) (dest : Bytes) {s : Spi} (h : s.Idle) :
    ∃ s', readPageDirect tk page offset size dest s =
        some (fun j => if j < size then s.chip.dev.pages (tk.firstPage + page) (offset + j) else dest j, s') ∧
      s'.Idle ∧ s'.chip.dev = s.chip.dev ∧ s'.chip.id = s.chip.id := by
  obtain ⟨s₁, hw, hi, hd, hid, hb⟩ := waitReady_spec h
  obtain ⟨hpage, hlt⟩ := physical_page hf hp
  have hck := accepted hp
  have hop : Opcode.ofByte 0xD2 = .pageRead := by decide
  have haddr := page_address hlt (show offset < 1024 by omega)
  obtain ⟨s₂, hl, hi₂, hd₂, hid₂⟩ := readCommand_spec hi 0xD2 (.ofNat ((tk.firstPage + page) >>> 6))
    (.ofNat (((tk.firstPage + page) <<< 2) ||| (offset >>> 8))) (.ofNat offset) [0, 0, 0, 0]
    (fun m => s.chip.dev.pages (tk.firstPage + page) ((offset + m) % 528)) (.inl hop)
    (by
      intro m
      simp only [Chip.clock, header, hop, hb, hd, Chip.page, Chip.byte, Chip.address, haddr]
      simp [show ((tk.firstPage + page) * 1024 + offset) / 1024 % 8192 = tk.firstPage + page by omega,
        show ((tk.firstPage + page) * 1024 + offset) % 1024 = offset by omega])
    offset size (by omega) dest
  refine ⟨csOff s₂, ?_, hi₂, hd₂.trans hd, hid₂.trans hid⟩
  simp only [readPageDirect, hck, if_false, hw, hpage, Option.bind_eq_bind, Option.bind_some, hl, Option.some.injEq,
    Prod.mk.injEq, and_true]
  funext j
  by_cases hj : j < size
  · rw [if_pos hj, if_pos hj, Nat.mod_eq_of_lt (by omega)]
  · rw [if_neg hj, if_neg hj]

/-- `DFS_BufferRead` stores the bytes of the SRAM buffer in the caller's memory and leaves the device as it is. -/
theorem bufferRead_spec {tk : DFToken} {page offset size : Nat} (hp : page < tk.size) (ho : offset + size ≤ 528)
    (w : DFBuff) (dest : Bytes) {s : Spi} (h : s.Idle) :
    ∃ s', bufferRead tk page offset size w dest s =
        some (fun j => if j < size then s.chip.dev.buf w (offset + j) else dest j, s') ∧
      s'.Idle ∧ s'.chip.dev = s.chip.dev ∧ s'.chip.id = s.chip.id := by
  obtain ⟨s₁, hw, hi, hd, hid, hb⟩ := waitReady_spec h
  have hck := accepted hp
  have hop : Opcode.ofByte (if w = .buffer1 then 0xD4 else 0xD6) = .bufferRead w := by cases w <;> decide
  have haddr := buffer_address (show offset < 1024 by omega)
  obtain ⟨s₂, hl, hi₂, hd₂, hid₂⟩ := readCommand_spec hi (if w = .buffer1 then 0xD4 else 0xD6) 0 (.ofNat (offset >>> 8))
    (.ofNat offset) [0] (fun m => s.chip.dev.buf w ((offset + m) % 528)) (.inr ⟨w, hop⟩)
    (by
      intro m
      simp only [Chip.clock, header, hop, hb, hd, Chip.byte, Chip.address, haddr]
      simp [Nat.mod_eq_of_lt (show offset < 1024 by omega)])
    offset size (by omega) dest
  refine ⟨csOff s₂, ?_, hi₂, hd₂.trans hd, hid₂.trans hid⟩
  simp only [bufferRead, hck, if_false, hw, Option.bind_eq_bind, Option.bind_some, hl, Option.some.injEq,
    Prod.mk.injEq, and_true]
  funext j
  by_cases hj : j < size
  · rw [if_pos hj, if_pos hj, Nat.mod_eq_of_lt (by omega)]
  · rw [if_neg hj, if_neg hj]

/-- `DFS_BufferWrite` loads the bytes into the SRAM buffer. -/
theorem bufferWrite_spec {tk : DFToken} {page offset size : Nat} (hp : page < tk.size) (ho : offset + size ≤ 528)
    (w : DFBuff) (src : Bytes) {s : Spi} (h : s.Idle) :
    ∃ s', bufferWrite tk page offset size w src s = some s' ∧ s'.Idle ∧
      s'.chip.dev = s.chip.dev.load w offset size src ∧ s'.chip.id = s.chip.id := by
  obtain ⟨s₁, hw, hi, hd, hid, hb⟩ := waitReady_spec h
  have hck := accepted hp
  have hop : Opcode.ofByte (if w = .buffer1 then 0x84 else 0x87) = .bufferWrite w := by cases w <;> decide
  have hsel := csOn_selected hi
  have hchip : ((csOn s₁).send [if w = .buffer1 then 0x84 else 0x87, 0, .ofNat (offset >>> 8), .ofNat offset]).chip =
      { header s₁.chip (if w = .buffer1 then 0x84 else 0x87) 0 (.ofNat (offset >>> 8)) (.ofNat offset) with
        dev := s.chip.dev.load w offset 0 src, pos := 4 + 0 } := by
    rw [send_chip hsel, csOn_chip, clock_header _ hi.pos _ _ _ _ (by simp [hop]), load_zero, ← hd]
    rfl
  have hbyte : (header s₁.chip (if w = .buffer1 then 0x84 else 0x87) 0 (.ofNat (offset >>> 8)) (.ofNat offset)).byte =
      offset := by
    simp only [Chip.byte, Chip.address, header, buffer_address (show offset < 1024 by omega)]
    exact Nat.mod_eq_of_lt (by omega)
  obtain ⟨s₂, hl, hs₂, hc₂⟩ := writeLoop_spec
    (header s₁.chip (if w = .buffer1 then 0x84 else 0x87) 0 (.ofNat (offset >>> 8)) (.ofNat offset)) s.chip.dev w offset
    src hop hb hbyte size loopFuel offset 0 _ (send_selected hsel _) hchip (by unfold loopFuel; omega) (by omega) (by omega)
  refine ⟨csOff s₂, ?_, csOff_idle hs₂, ?_⟩
  · simp only [bufferWrite, hck, if_false, hw, Option.bind_eq_bind, Option.bind_some, hl]
  · rw [csOff_chip hs₂, hc₂, Nat.zero_add]
    simp only [Chip.deselect, header, hop]
    split <;> exact ⟨rfl, hid⟩

/-- A command without data that starts an internal operation. -/
theorem startCommand_spec {s : Spi} (h : s.Idle) (hb : s.chip.busy = 0) (op : UInt8) {page : Nat} (hlt : page < 8192)
    (w : DFBuff) (d : Device)
    (hop : (Opcode.ofByte op = .program w ∧ d = s.chip.dev.program w page) ∨
      (Opcode.ofByte op = .pageToBuffer w ∧ d = s.chip.dev.fetch w page)) :
    (csOff ((csOn s).send [op, .ofNat (page >>> 6), .ofNat ((page <<< 2) + 0), 0])).Idle ∧
      (csOff ((csOn s).send [op, .ofNat (page >>> 6), .ofNat ((page <<< 2) + 0), 0])).chip.dev = d ∧
      (csOff ((csOn s).send [op, .ofNat (page >>> 6), .ofNat ((page <<< 2) + 0), 0])).chip.id = s.chip.id := by
  have hsel := csOn_selected h
  have hst : Opcode.ofByte op ≠ .status := by rcases hop with ⟨h, -⟩ | ⟨h, -⟩ <;> simp [h]
  have hs := send_selected hsel [op, .ofNat (page >>> 6), .ofNat ((page <<< 2) + 0), 0]
  have hpg : (header s.chip op (.ofNat (page >>> 6)) (.ofNat ((page <<< 2) + 0)) 0).page = page := by
    simp only [Chip.page, Chip.address, header, page_address' hlt]
    omega
  refine ⟨csOff_idle hs, ?_⟩
  rw [csOff_chip hs, send_chip hsel, csOn_chip, clock_header _ h.pos _ _ _ _ hst]
  simp only [Chip.deselect, hpg]
  rcases hop with ⟨hop, rfl⟩ | ⟨hop, rfl⟩ <;> simp [header, hop, hb, Chip.start]

/-- `DFS_WriteBufferToFlash` programs the page from the SRAM buffer. -/
theorem writeBufferToFlash_spec {tk : DFToken} (hf : tk.Fits) {page : Nat} (hp : page < tk.size) (w : DFBuff) {s : Spi}
    (h : s.Idle) :
    ∃ s', writeBufferToFlash tk page w s = some s' ∧ s'.Idle ∧
      s'.chip.dev = s.chip.dev.program w (tk.firstPage + page) ∧ s'.chip.id = s.chip.id := by
  obtain ⟨s₁, hw, hi, hd, hid, hb⟩ := waitReady_spec h
  obtain ⟨hpage, hlt⟩ := physical_page hf hp
  have hck := accepted hp
  obtain ⟨hi₂, hd₂, hid₂⟩ := startCommand_spec hi hb (if w = .buffer1 then 0x83 else 0x86) hlt w _
    (.inl ⟨by cases w <;> decide, rfl⟩)
  refine ⟨_, ?_, hi₂, hd₂.trans (by rw [hd]), hid₂.trans hid⟩
  simp only [writeBufferToFlash, hck, if_false, hw, hpage, Option.bind_eq_bind, Option.bind_some]

/-- `DFS_ReadFlashToBuffer` copies the page into the SRAM buffer. -/
theorem readFlashToBuffer_spec {tk : DFToken} (hf : tk.Fits) {page : Nat} (hp : page < tk.size) (w : DFBuff) {s : Spi}
    (h : s.Idle) :
    ∃ s', readFlashToBuffer tk page w s = some s' ∧ s'.Idle ∧
      s'.chip.dev = s.chip.dev.fetch w (tk.firstPage + page) ∧ s'.chip.id = s.chip.id := by
  obtain ⟨s₁, hw, hi, hd, hid, hb⟩ := waitReady_spec h
  obtain ⟨hpage, hlt⟩ := physical_page hf hp
  have hck := accepted hp
  obtain ⟨hi₂, hd₂, hid₂⟩ := startCommand_spec hi hb (if w = .buffer1 then 0x53 else 0x55) hlt w _
    (.inr ⟨by cases w <;> decide, rfl⟩)
  refine ⟨_, ?_, hi₂, hd₂.trans (by rw [hd]), hid₂.trans hid⟩
  simp only [readFlashToBuffer, hck, if_false, hw, hpage, Option.bind_eq_bind, Option.bind_some]

/-- `DFS_ReadChipID` returns the identification and leaves the device as it is. -/
theorem readChipID_spec {s : Spi} (h : s.Idle) :
    ∃ s', readChipID s = some (s.chip.id, s') ∧ s'.Idle ∧ s'.chip.dev = s.chip.dev ∧ s'.chip.id = s.chip.id := by
  obtain ⟨s₁, hw, hi, hd, hid, hb⟩ := waitReady_spec h
  have hsel := csOn_selected hi
  have hs := send_selected hsel [0x9F, 0]
  have hchip := (send_chip hsel [0x9F, 0]).trans (clock_id _ hi.pos)
  have hop : Opcode.ofByte 0x9F = .deviceId := by decide
  have hs' := transfer_selected hs 0
  refine ⟨_, ?_, csOff_idle hs', ?_⟩
  · simp only [readChipID, hw, Option.bind_eq_bind, Option.bind_some, transfer_fst hs, hchip, Option.some.injEq,
      Prod.mk.injEq, and_true]
    simp [Chip.clock, hop, hid]
  · rw [csOff_chip hs', transfer_chip hs, hchip]
    simp [Chip.clock, Chip.latch, Chip.deselect, hop, hd, hid]

/-! ## Calls with any token

A token may name pages that the chip does not have; the address is cut to one that it has, and the calls of the cache return all the
same.
-/

/-- `DFS_ReadPageDirect` returns. -/
theorem readPageDirect_idle (tk : DFToken) (page : Nat) {offset size : Nat} (ho : offset + size ≤ 528) (dest : Bytes) {s : Spi}
    (h : s.Idle) : ∃ d s', readPageDirect tk page offset size dest s = some (d, s') ∧ s'.Idle := by
  by_cases hp : page < tk.size
  · obtain ⟨s₁, hw, hi, -⟩ := waitReady_spec h
    have hop : Opcode.ofByte 0xD2 = .pageRead := by decide
    generalize hpage : (page + tk.firstPage) % 65536 = p
    obtain ⟨d, s₂, hl, hi₂⟩ : ∃ d s₂, readLoop loopFuel offset (offset + size) 0 dest ((csOn s₁).send [0xD2, .ofNat (p >>> 6),
        .ofNat ((p <<< 2) ||| (offset >>> 8)), .ofNat offset, 0, 0, 0, 0]) = some (d, s₂) ∧ (csOff s₂).Idle := by
      obtain ⟨s₂, hl, hi₂, -⟩ := readCommand_spec hi 0xD2 (.ofNat (p >>> 6)) (.ofNat ((p <<< 2) ||| (offset >>> 8))) (.ofNat offset)
        [0, 0, 0, 0] _ (.inl hop) (fun _ => rfl) offset size (by omega) dest
      exact ⟨_, s₂, hl, hi₂⟩
    refine ⟨d, csOff s₂, ?_, hi₂⟩
    simp only [readPageDirect, accepted hp, if_false, hw, hpage, Option.bind_eq_bind, Option.bind_some, hl]
  · exact ⟨dest, s, (refused tk (Nat.le_of_not_lt hp) offset size .buffer2 dest s).1, h⟩

/-- `DFS_BufferWrite` returns. -/
theorem bufferWrite_idle (tk : DFToken) (page : Nat) {offset size : Nat} (ho : offset + size ≤ 528) (w : DFBuff) (src : Bytes) {s : Spi}
    (h : s.Idle) : ∃ s', bufferWrite tk page offset size w src s = some s' ∧ s'.Idle := by
  by_cases hp : page < tk.size
  · obtain ⟨s', he, hi, -⟩ := bufferWrite_spec hp ho w src h
    exact ⟨s', he, hi⟩
  · exact ⟨s, (refused tk (Nat.le_of_not_lt hp) offset size w src s).2.2.2.2, h⟩

/-- `DFS_WriteBufferToFlash` returns. -/
theorem writeBufferToFlash_idle (tk : DFToken) (page : Nat) (w : DFBuff) {s : Spi} (h : s.Idle) :
    ∃ s', writeBufferToFlash tk page w s = some s' ∧ s'.Idle := by
  by_cases hp : page < tk.size
  · obtain ⟨s₁, hw, hi, -⟩ := waitReady_spec h
    have he : ∃ bs, writeBufferToFlash tk page w s = some (csOff ((csOn s₁).send bs)) := by
      simp only [writeBufferToFlash, accepted hp, if_false, hw, Option.bind_eq_bind, Option.bind_some]
      exact ⟨_, rfl⟩
    obtain ⟨bs, he⟩ := he
    exact ⟨_, he, csOff_idle (send_selected (csOn_selected hi) bs)⟩
  · exact ⟨s, (refused tk (Nat.le_of_not_lt hp) 0 0 w (fun _ => 0) s).2.2.1, h⟩

end DataFlash
end PowerMonitor
