import PowerMonitor.Theorems.SpiBus

/-!
# The flash driver page by page

What is written through an SRAM buffer is read back from the page, and a page read through a buffer is the page read directly.
Every command names its page and its byte in three address bytes, and a page outside the token is not asked for at all.
-/

namespace PowerMonitor

open DataFlashAux

/-- The page that three address bytes name: 13 bits behind one that does not matter. -/
def pageField (a1 a2 a3 : UInt8) : Nat := (a1.toNat * 65536 + a2.toNat * 256 + a3.toNat) / 1024 % 8192

/-- The byte that three address bytes name: the last 10 bits. -/
def byteField (a1 a2 a3 : UInt8) : Nat := (a1.toNat * 65536 + a2.toNat * 256 + a3.toNat) % 1024

/-- A call sends one command behind status reads: its opcode is one for `op`, and its address names the page and the byte that are
given. No page other than `phys` changes. -/
structure Performs (op : Opcode) (page byte : Option Nat) (phys : Nat) (s s' : Spi) : Prop where
  sent : ∃ es n b a1 a2 a3 rest, s'.trace = s.trace ++ es ∧
    commands .PA17 es = List.replicate n statusRead ++ [b :: a1 :: a2 :: a3 :: rest] ∧ Opcode.ofByte b = op ∧
    (∀ p ∈ page, pageField a1 a2 a3 = p) ∧ ∀ o ∈ byte, byteField a1 a2 a3 = o
  frame : ∀ p, p ≠ phys → s'.chip.dev.pages p = s.chip.dev.pages p

/-- What the driver does for a page of the token. -/
structure FlashLaw (tk : DFToken) (page offset size : Nat) (w : DFBuff) (src dest : Bytes) (s : Spi) : Prop where
  written : ∃ s₁ s₂ s₃,
    DataFlash.bufferWrite tk page offset size w src s = some s₁ ∧
      Performs (.bufferWrite w) none (some offset) (tk.firstPage + page) s s₁ ∧
    DataFlash.writeBufferToFlash tk page w s₁ = some s₂ ∧
      Performs (.program w) (some (tk.firstPage + page)) none (tk.firstPage + page) s₁ s₂ ∧
    DataFlash.readPageDirect tk page offset size dest s₂ = some (fun j => if j < size then src j else dest j, s₃) ∧
      Performs .pageRead (some (tk.firstPage + page)) (some offset) (tk.firstPage + page) s₂ s₃
  fetched : ∃ s₁ s₂ s₃ read,
    DataFlash.readFlashToBuffer tk page w s = some s₁ ∧
      Performs (.pageToBuffer w) (some (tk.firstPage + page)) none (tk.firstPage + page) s s₁ ∧
    DataFlash.bufferRead tk page offset size w dest s₁ = some (read, s₂) ∧
      Performs (.bufferRead w) none (some offset) (tk.firstPage + page) s₁ s₂ ∧
    DataFlash.readPageDirect tk page offset size dest s = some (read, s₃) ∧
      Performs .pageRead (some (tk.firstPage + page)) (some offset) (tk.firstPage + page) s s₃

/-- What the driver does for a page outside the token: nothing. -/
structure Refuses (tk : DFToken) (page offset size : Nat) (w : DFBuff) (src dest : Bytes) (s : Spi) : Prop where
  readPageDirect : DataFlash.readPageDirect tk page offset size dest s = some (dest, s)
  readFlashToBuffer : DataFlash.readFlashToBuffer tk page w s = some s
  writeBufferToFlash : DataFlash.writeBufferToFlash tk page w s = some s
  bufferRead : DataFlash.bufferRead tk page offset size w dest s = some (dest, s)
  bufferWrite : DataFlash.bufferWrite tk page offset size w src s = some s

namespace Performs

variable {tk : DFToken} {page offset : Nat} {phys : Nat} {s s' : Spi} {op : Opcode}

/-- A command whose address bytes name what they should. -/
theorem of_commands {b a1 a2 a3 : UInt8} {pad : List UInt8} {pg byte : Option Nat} (hp : page < tk.size)
    (hc : Commands tk page (b :: a1 :: a2 :: a3 :: pad) s s') (hop : Opcode.ofByte b = op)
    (hpg : ∀ p ∈ pg, pageField a1 a2 a3 = p) (hby : ∀ o ∈ byte, byteField a1 a2 a3 = o)
    (hframe : ∀ p, p ≠ phys → s'.chip.dev.pages p = s.chip.dev.pages p) : Performs op pg byte phys s s' := by
  rcases hc with ⟨hle, -⟩ | ⟨-, n, rest, hs⟩
  · omega
  · obtain ⟨es, he, -, hcmd, -⟩ := hs.sessions.trace
    exact ⟨⟨es, n, b, a1, a2, a3, pad ++ rest, he, hcmd, hop, hpg, hby⟩, hframe⟩

end Performs

section Fields

variable {page offset : Nat}

theorem fields_page (hp : page < 8192) (ho : offset < 1024) :
    pageField (.ofNat (page >>> 6)) (.ofNat ((page <<< 2) ||| (offset >>> 8))) (.ofNat offset) = page ∧
      byteField (.ofNat (page >>> 6)) (.ofNat ((page <<< 2) ||| (offset >>> 8))) (.ofNat offset) = offset := by
  rw [pageField, byteField, page_address hp ho]
  omega

theorem field_page (hp : page < 8192) : pageField (.ofNat (page >>> 6)) (.ofNat ((page <<< 2) + 0)) 0 = page := by
  rw [pageField, page_address' hp]
  omega

theorem field_byte (ho : offset < 1024) : byteField 0 (.ofNat (offset >>> 8)) (.ofNat offset) = offset := by
  rw [byteField, buffer_address ho]
  omega

end Fields

namespace Device

theorem program_page (d : Device) (w : DFBuff) (p : Nat) : (d.program w p).pages p = d.buf w := by
  simp only [program, Function.update_self]

theorem fetch_buf (d : Device) (w : DFBuff) (p : Nat) : (d.fetch w p).buf w = d.pages p := by
  simp only [fetch, Function.update_self]

theorem load_buf (d : Device) (w : DFBuff) {offset size j : Nat} (src : Bytes) (hj : j < size) :
    (d.load w offset size src).buf w (offset + j) = src j := by
  have h : (d.load w offset size src).buf w = fun i => if offset ≤ i ∧ i < offset + size then src (i - offset) else d.buf w i :=
    Function.update_self w _ d.buf
  rw [h]
  dsimp only
  rw [if_pos (by omega), Nat.add_sub_cancel_left]

end Device

namespace DataFlash

variable {tk : DFToken} {page offset size : Nat} {w : DFBuff} {s : Spi}

theorem readPageDirect_performs (hf : tk.Fits) (hp : page < tk.size) (ho : offset + size ≤ 528) (dest : Bytes) (h : s.Idle) :
    ∃ s', readPageDirect tk page offset size dest s =
        some (fun j => if j < size then s.chip.dev.pages (tk.firstPage + page) (offset + j) else dest j, s') ∧
      Performs .pageRead (some (tk.firstPage + page)) (some offset) (tk.firstPage + page) s s' := by
  obtain ⟨s', he, -, hd, -⟩ := readPageDirect_spec hf hp ho dest h
  obtain ⟨hphys, hlt⟩ := physical_page hf hp
  have hc := readPageDirect_commands h he
  rw [hphys] at hc
  obtain ⟨hpg, hby⟩ := fields_page hlt (show offset < 1024 by omega)
  exact ⟨s', he, .of_commands hp hc rfl (by simpa using hpg) (by simpa using hby) fun p _ => by rw [hd]⟩

theorem bufferRead_performs (hp : page < tk.size) (ho : offset + size ≤ 528) (w : DFBuff) (dest : Bytes)
    (h : s.Idle) (phys : Nat) :
    ∃ s', bufferRead tk page offset size w dest s =
        some (fun j => if j < size then s.chip.dev.buf w (offset + j) else dest j, s') ∧
      Performs (.bufferRead w) none (some offset) phys s s' := by
  obtain ⟨s', he, -, hd, -⟩ := bufferRead_spec hp ho w dest h
  have hby := field_byte (show offset < 1024 by omega)
  exact ⟨s', he, .of_commands hp (bufferRead_commands h he) (by cases w <;> rfl) (by simp)
    (by simpa using hby) fun p _ => by rw [hd]⟩

theorem bufferWrite_performs (hp : page < tk.size) (ho : offset + size ≤ 528) (w : DFBuff) (src : Bytes)
    (h : s.Idle) (phys : Nat) :
    ∃ s', bufferWrite tk page offset size w src s = some s' ∧ s'.Idle ∧ s'.chip.dev = s.chip.dev.load w offset size src ∧
      Performs (.bufferWrite w) none (some offset) phys s s' := by
  obtain ⟨s', he, hi, hd, -⟩ := bufferWrite_spec hp ho w src h
  have hby := field_byte (show offset < 1024 by omega)
  refine ⟨s', he, hi, hd, ?_⟩
  exact .of_commands hp (bufferWrite_commands h he) (by cases w <;> rfl) (by simp) (by simpa using hby) fun p _ => by rw [hd]; rfl

theorem writeBufferToFlash_performs (hf : tk.Fits) (hp : page < tk.size) (w : DFBuff) (h : s.Idle) :
    ∃ s', writeBufferToFlash tk page w s = some s' ∧ s'.Idle ∧ s'.chip.dev = s.chip.dev.program w (tk.firstPage + page) ∧
      Performs (.program w) (some (tk.firstPage + page)) none (tk.firstPage + page) s s' := by
  obtain ⟨s', he, hi, hd, -⟩ := writeBufferToFlash_spec hf hp w h
  obtain ⟨hphys, hlt⟩ := physical_page hf hp
  have hc := writeBufferToFlash_commands h he
  rw [hphys] at hc
  refine ⟨s', he, hi, hd, .of_commands hp hc (by cases w <;> rfl) (by simpa using field_page hlt) (by simp) ?_⟩
  intro p hne
  rw [hd]
  exact Function.update_of_ne hne _ _

theorem readFlashToBuffer_performs (hf : tk.Fits) (hp : page < tk.size) (w : DFBuff) (h : s.Idle) :
    ∃ s', readFlashToBuffer tk page w s = some s' ∧ s'.Idle ∧ s'.chip.dev = s.chip.dev.fetch w (tk.firstPage + page) ∧
      Performs (.pageToBuffer w) (some (tk.firstPage + page)) none (tk.firstPage + page) s s' := by
  obtain ⟨s', he, hi, hd, -⟩ := readFlashToBuffer_spec hf hp w h
  obtain ⟨hphys, hlt⟩ := physical_page hf hp
  have hc := readFlashToBuffer_commands h he
  rw [hphys] at hc
  exact ⟨s', he, hi, hd, .of_commands hp hc (by cases w <;> rfl) (by simpa using field_page hlt)
    (by simp) fun p _ => by rw [hd]; rfl⟩

/-- The law for a page of the token, on an idle bus. -/
theorem flashLaw (hf : tk.Fits) (hp : page < tk.size) (ho : offset + size ≤ 528) (w : DFBuff) (src dest : Bytes) (h : s.Idle) :
    FlashLaw tk page offset size w src dest s := by
  constructor
  · obtain ⟨s₁, he₁, hi₁, hd₁, hp₁⟩ := bufferWrite_performs hp ho w src h (tk.firstPage + page)
    obtain ⟨s₂, he₂, hi₂, hd₂, hp₂⟩ := writeBufferToFlash_performs hf hp w hi₁
    obtain ⟨s₃, he₃, hp₃⟩ := readPageDirect_performs hf hp ho dest hi₂
    refine ⟨s₁, s₂, s₃, he₁, hp₁, he₂, hp₂, ?_, hp₃⟩
    have hpage : ∀ j < size, s₂.chip.dev.pages (tk.firstPage + page) (offset + j) = src j := by
      intro j hj
      rw [hd₂, hd₁, Device.program_page, Device.load_buf _ w src hj]
    rw [he₃]
    refine congrArg (fun d => some (d, s₃)) (funext fun j => ?_)
    by_cases hj : j < size
    · rw [if_pos hj, if_pos hj, hpage j hj]
    · rw [if_neg hj, if_neg hj]
  · obtain ⟨s₁, he₁, hi₁, hd₁, hp₁⟩ := readFlashToBuffer_performs hf hp w h
    obtain ⟨s₂, he₂, hp₂⟩ := bufferRead_performs hp ho w dest hi₁ (tk.firstPage + page)
    obtain ⟨s₃, he₃, hp₃⟩ := readPageDirect_performs hf hp ho dest h
    refine ⟨s₁, s₂, s₃, _, he₁, hp₁, he₂, hp₂, ?_, hp₃⟩
    rw [he₃, hd₁, Device.fetch_buf]

theorem refuses (hp : tk.size ≤ page) (offset size : Nat) (w : DFBuff) (src dest : Bytes) (s : Spi) :
    Refuses tk page offset size w src dest s := by
  obtain ⟨h₁, h₂, h₃, h₄, -⟩ := refused tk hp offset size w dest s
  obtain ⟨-, -, -, -, h₅⟩ := refused tk hp offset size w src s
  exact ⟨h₁, h₂, h₃, h₄, h₅⟩

end DataFlash

/-- After any run of driver calls: for a page of the token, what is written through a buffer is read back, a page read through a
buffer is the page read directly, every command's address bytes name the page and the offset, and no other page changes. For a
page outside the token nothing is sent. -/
theorem flash_reads_back (dev : Device) (busy : Nat) (delays : List Nat) (id : UInt8) (adcIn : List UInt8) (cs : List BusCall)
    {s : Spi} (hcs : Spi.calls cs (Spi.boardInit dev busy delays id adcIn) = some s) (tk : DFToken)
    (hf : tk.firstPage + tk.size ≤ 8192) (page offset size : Nat) (w : DFBuff) (src dest : Bytes) :
    (page < tk.size → offset + size ≤ 528 → FlashLaw tk page offset size w src dest s) ∧
      (tk.size ≤ page → Refuses tk page offset size w src dest s) := by
  have hi := calls_idle cs (boardInit_idle dev busy delays id adcIn).1 hcs
  exact ⟨fun hp ho => DataFlash.flashLaw hf hp ho w src dest hi, fun hp => DataFlash.refuses hp offset size w src dest s⟩

/-- The last byte of the last page of the chip, after a converter was run. -/
theorem flash_reads_back_last_byte :
    let dev : Device := { pages := fun _ _ => 0xFF, buf := fun _ _ => 0, programs := [] }
    let tk : DFToken := { firstPage := 8188, size := 4 }
    ∃ s, Spi.calls [.runSec .AD_CH_1] (Spi.boardInit dev 1 [3] 0 []) = some s ∧
      FlashLaw tk 3 527 1 .buffer2 (fun _ => 0x5A) (fun _ => 0) s ∧ Refuses tk 4 0 1 .buffer2 (fun _ => 0x5A) (fun _ => 0) s := by
  intro dev tk
  have h := flash_reads_back dev 1 [3] 0 [] [.runSec .AD_CH_1] rfl tk (by decide)
  exact ⟨_, rfl, (h 3 527 1 .buffer2 (fun _ => 0x5A) fun _ => 0).1 (by decide) (by decide),
    (h 4 0 1 .buffer2 (fun _ => 0x5A) fun _ => 0).2 (by decide)⟩

end PowerMonitor
