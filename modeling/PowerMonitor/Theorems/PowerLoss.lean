import PowerMonitor.Lemmas.Programs
import PowerMonitor.Theorems.MultiByte

/-!
# A write within one page and a loss of power

While a call writes within a page, a miss programs other pages only, so that the page in flash stays as it is. Later the page is
programmed as a whole, with what is seen there, and so with all that the call wrote. A loss of power leaves the flash after some
of the programs: a fresh cache reads either what the flash held before the call or what the call wrote.
-/

namespace PowerMonitor

open LittleEndian

/-- The calls that write several bytes. -/
inductive WriteCall where
  | write2 (addr data : Nat)
  | write4 (addr data : Nat)
  | write (addr : Nat) (buf : List UInt8)
  | writeString (addr : Nat) (buf : List UInt8) (size : Nat)
  deriving DecidableEq, Repr

namespace WriteCall

/-- The call on a state. -/
def run : WriteCall → EE → Option EE
  | .write2 a v, s => s.write2 a v
  | .write4 a v, s => s.write4 a v
  | .write a buf, s => s.write a buf
  | .writeString a buf n, s => s.writeString a buf n

/-- The address the call writes from. -/
def addr : WriteCall → Nat
  | .write2 a _ => a
  | .write4 a _ => a
  | .write a _ => a
  | .writeString a _ _ => a

/-- The bytes the call writes. -/
def bytes : WriteCall → List UInt8
  | .write2 _ v => encode 2 v
  | .write4 _ v => encode 4 v
  | .write _ buf => buf
  | .writeString _ buf n => (buf ++ [0]).take (min (buf.length + 1) n)

end WriteCall

/-- The call writes none of `n` bytes from `addr` on. -/
def EEOp.Spares (addr n : Nat) : EEOp → Prop
  | .write1 a _ => EE.cutAddress a < addr ∨ addr + n ≤ EE.cutAddress a
  | .read1 _ => True
  | .cacheCheck => True
  | .cacheFlush => True

/-- Every call is a write of its bytes. -/
theorem WriteCall.run_eq (c : WriteCall) (s : EE) : c.run s = s.write c.addr c.bytes := by
  cases c with
  | write2 a v => exact EE.write2_eq s a v
  | write4 a v => exact EE.write4_eq s a v
  | write a buf => rfl
  | writeString a buf n =>
    have hlen : (buf ++ [0]).length = buf.length + 1 := List.length_append
    rw [run, EE.writeString_eq, addr, bytes, ← hlen, Nat.min_comm, ← List.take_eq_take_min]

namespace EE

/-- The bytes `bs` are seen from `addr` on. -/
def Sees (s : EE) (addr : Nat) (bs : List UInt8) : Prop := ∀ i (h : i < bs.length), s.value (addr + i) = bs[i]

/-- The bytes from `addr` on, as they are in the page that holds them. -/
def Carries (data : Bytes) (addr : Nat) (bs : List UInt8) : Prop := ∀ i (h : i < bs.length), data (offsetOf (addr + i)) = bs[i]

/-- A program of a page has the bytes that are seen in it. -/
theorem Saves.byte {s : EE} {w : Nat × Bytes} {a : Nat} (h : Saves s w (pageOf a)) : w.2 (offsetOf a) = s.value a :=
  congrFun h.data ⟨offsetOf a, offsetOf_lt a⟩

/-- A write is not seen at any address but the one its own is cut to. -/
theorem write1_value_of_ne {s s' : EE} (h : s.Wf) {a b : Nat} {d : UInt8} (he : s.write1 a d = some s')
    (hb : b < 512 * s.token.size) (hne : b ≠ cutAddress a) : s'.value b = s.value b := by
  by_cases hp : pageOf a < s.token.size
  · obtain ⟨t, het, -, -, -, hv⟩ := write1_value h (cutAddress_lt hp) d
    rw [write1_cutAddress, he] at het
    obtain rfl := Option.some.inj het
    rw [hv b hb, if_neg hne]
  · obtain ⟨t, het, -, -, -, hv⟩ := write1_spec h a d
    rw [he] at het
    obtain rfl := Option.some.inj het
    rw [if_neg hp] at hv
    rw [value, value, hv]

/-- While bytes of page `p` are written, other pages are programmed. -/
theorem write_programs {p : Nat} (bs : List UInt8) : ∀ {s s' : EE} {addr : Nat}, s.Wf → addr + bs.length ≤ 512 * s.token.size →
    (∀ i, i < bs.length → pageOf (addr + i) = p) → s.write addr bs = some s' →
    ∃ new, Programmed s s' new ∧ ∀ w ∈ new, w.1 ≠ s.token.firstPage + p := by
  induction bs with
  | nil =>
    intro s s' addr _ _ _ he
    cases he
    exact ⟨[], .of_eq rfl, fun w hw => absurd hw List.not_mem_nil⟩
  | cons c bs ih =>
    intro s s' addr h hfit hpage he
    rw [List.length_cons] at hfit hpage
    have hsz : s.token.size ≤ 8192 := Nat.le_trans (Nat.le_add_left _ _) h.fits
    obtain ⟨t, ht, hwf, htok, -⟩ := write1_spec h addr c
    obtain ⟨new, hprog, hsaves, -⟩ := EEOp.run_programs (.write1 addr c) h ht
    have hmod : (addr + 1) % 2 ^ 32 = addr + 1 := Nat.mod_eq_of_lt (by omega)
    simp only [write, ht, hmod, Option.bind_eq_bind, Option.bind_some] at he
    obtain ⟨new', hprog', hother⟩ := ih hwf (by rw [htok]; omega)
      (fun i hi => by rw [Nat.add_assoc, Nat.add_comm 1 i]; exact hpage (i + 1) (by omega)) he
    refine ⟨new ++ new', hprog.trans hprog', fun w hw => ?_⟩
    rcases List.mem_append.mp hw with hw | hw
    · obtain ⟨q, hne, hq⟩ := hsaves w hw
      have hqp : q ≠ p := by
        rw [← hpage 0 (Nat.zero_lt_succ _)]
        exact hne addr c rfl
      rw [hq.page]
      omega
    · rw [← htok]
      exact hother w hw

end EE

namespace EEOp

open EE

/-- A call that spares bytes of the token does not change what is seen of them. -/
theorem run_sees {op : EEOp} {s s' : EE} (h : s.Wf) (he : op.run s = some s') {addr : Nat} {bs : List UInt8}
    (hop : op.Spares addr bs.length) (hfit : addr + bs.length ≤ 512 * s.token.size) (hs : s.Sees addr bs) : s'.Sees addr bs := by
  intro i hi
  rw [← hs i hi]
  cases op with
  | write1 a d =>
    refine write1_value_of_ne h he (by omega) ?_
    unfold Spares at hop
    omega
  | read1 a =>
    obtain ⟨v, t, hr, hu, -⟩ := read1_spec h a
    simp only [run, hr, Option.map_some, Option.some.injEq] at he
    exact he ▸ hu.value _
  | cacheCheck =>
    obtain ⟨r, t, hr, hu⟩ := cacheCheck_spec h
    simp only [run, hr, Option.map_some, Option.some.injEq] at he
    exact he ▸ hu.value _
  | cacheFlush =>
    obtain ⟨t, hr, hu, -⟩ := cacheFlush_spec h
    rw [run, hr, Option.some.injEq] at he
    exact he ▸ hu.value _

/-- As long as the bytes of a page are spared, every program of the page has all of them. -/
theorem runAll_carries {addr : Nat} {bs : List UInt8} {p : Nat} (hpage : ∀ i, i < bs.length → pageOf (addr + i) = p)
    (later : List EEOp) : ∀ {s : EE}, s.Wf → addr + bs.length ≤ 512 * s.token.size → s.Sees addr bs →
      (∀ op ∈ later, op.Spares addr bs.length) →
      ∃ t new, runAll later s = some t ∧ Programmed s t new ∧ ∀ w ∈ new, w.1 = s.token.firstPage + p → Carries w.2 addr bs := by
  induction later with
  | nil =>
    intro s _ _ _ _
    exact ⟨s, [], rfl, .of_eq rfl, fun w hw => absurd hw List.not_mem_nil⟩
  | cons op later ih =>
    intro s h hfit hs hlater
    obtain ⟨t, he, hwf, ht, -⟩ := run_spec op h
    obtain ⟨new, hprog, hsaves, -⟩ := run_programs op h he
    obtain ⟨u, new', he', hprog', hcar⟩ := ih hwf (by rw [ht]; exact hfit) (run_sees h he (hlater op List.mem_cons_self) hfit hs)
      fun o ho => hlater o (List.mem_cons_of_mem _ ho)
    refine ⟨u, new ++ new', by rw [runAll, he, Option.bind_some, he'], hprog.trans hprog', fun w hw hwp => ?_⟩
    rcases List.mem_append.mp hw with hw | hw
    · obtain ⟨q, -, hq⟩ := hsaves w hw
      have hqp : q = p := by
        have := hq.page
        omega
      intro i hi
      rw [hqp, ← hpage i hi] at hq
      rw [hq.byte, hs i hi]
    · exact hcar w hw (by rw [ht]; exact hwp)

end EEOp

namespace EE

/-- A fresh cache shows the flash. -/
theorem shows_init {tk : DFToken} (hf : tk.Fits) {n : Nat} (hn : 1 ≤ n) {spi : Spi} (hi : spi.Idle) :
    Shows tk (fun a => spi.chip.dev.pages (tk.firstPage + pageOf a) (offsetOf a)) (init tk n spi) :=
  ⟨(init_wf hf hn hi).1, rfl, fun a _ => (init_wf hf hn hi).2 a⟩

/-- After programs that all have the bytes, or none of them for this page, a fresh cache reads the bytes as they were before, or
all of them. -/
theorem read_after_programs {tk : DFToken} (hf : tk.Fits) {m : Nat} (hm : 1 ≤ m) {spi : Spi} (hi : spi.Idle) {pages : Nat → Bytes}
    {ws : List (Nat × Bytes)} (hflash : spi.chip.dev.pages = Cells.apply ws pages) {addr p : Nat} {bs : List UInt8}
    (hfit : addr + bs.length ≤ 512 * tk.size) (hpage : ∀ i, i < bs.length → pageOf (addr + i) = p)
    (hws : ∀ w ∈ ws, w.1 = tk.firstPage + p → Carries w.2 addr bs) :
    ∃ out u, EE.read bs.length addr (init tk m spi) = some (out, u) ∧
      (out = (List.range' addr bs.length).map (fun a => pages (tk.firstPage + pageOf a) (offsetOf a)) ∨ out = bs) := by
  obtain ⟨u, hu, -⟩ := (shows_init hf hm hi).read bs.length hfit
  refine ⟨_, u, hu, ?_⟩
  have hbyte : ∀ i, i < bs.length → spi.chip.dev.pages (tk.firstPage + pageOf (addr + i)) (offsetOf (addr + i)) =
      Cells.apply ws pages (tk.firstPage + p) (offsetOf (addr + i)) := by
    intro i hi
    rw [hflash, hpage i hi]
  -- the page is as before, or as one of the programs left it
  rcases Cells.apply_cases ws pages (tk.firstPage + p) with hold | ⟨w, hw, hwp, hnew⟩
  · left
    refine List.ext_getElem (by simp) fun i hi _ => ?_
    rw [List.length_map, List.length_range'] at hi
    rw [List.getElem_map, List.getElem_map, List.getElem_range', Nat.one_mul, hbyte i hi, hold, hpage i hi]
  · right
    refine List.ext_getElem (by simp) fun i _ hi => ?_
    rw [List.getElem_map, List.getElem_range', Nat.one_mul, hbyte i hi, hnew, hws w hw hwp i hi]

end EE

/-- In every state a run reaches, a call that writes bytes of one page of the token leaves that page in flash as it is at every
point during the call. When the power is lost after any number of the programs of the call and of any later run that does not
rewrite the bytes, a fresh cache of any size reads them all as they were in flash before the call, or all as the call wrote
them. -/
theorem page_write_atomic (tk : DFToken) (hf : tk.firstPage + tk.size ≤ 8192) (n : Nat) (hn : 1 ≤ n) (spi : Spi) (hi : spi.Idle)
    (ops : List EEOp) (call : WriteCall) (p : Nat) (hp : p < tk.size) (hlo : 512 * p ≤ call.addr)
    (hhi : call.addr + call.bytes.length ≤ 512 * (p + 1)) :
    ∃ s s' during, EEOp.runAll ops (EE.init tk n spi) = some s ∧ call.run s = some s' ∧ s.Programmed s' during ∧
      (∀ j, Cells.apply (during.take j) s.spi.chip.dev.pages (tk.firstPage + p) = s.spi.chip.dev.pages (tk.firstPage + p)) ∧
      ∀ later : List EEOp, (∀ op ∈ later, op.Spares call.addr call.bytes.length) →
        ∃ t after, EEOp.runAll later s' = some t ∧ s'.Programmed t after ∧
          ∀ j m spi', 1 ≤ m → spi'.Idle →
            spi'.chip.dev.pages = Cells.apply ((during ++ after).take j) s.spi.chip.dev.pages →
            ∃ bs u, EE.read call.bytes.length call.addr (EE.init tk m spi') = some (bs, u) ∧
              (bs = (List.range' call.addr call.bytes.length).map s.flashByte ∨ bs = call.bytes) := by
  obtain ⟨s, he, hwf, ht, -⟩ := EEOp.runAll_spec ops (EE.init_wf hf hn hi).1
  have htk : s.token = tk := ht
  have hsz : tk.size ≤ 8192 := by omega
  have hfit : call.addr + call.bytes.length ≤ 512 * tk.size := by omega
  have hpage : ∀ i, i < call.bytes.length → EE.pageOf (call.addr + i) = p := by
    intro i hi
    rw [EE.pageOf, Nat.shiftRight_eq_div_pow]
    omega
  obtain ⟨s', hw, hs'⟩ := EE.Shows.write call.bytes (EE.Shows.self hwf) (a := call.addr) (by rw [htk]; exact hfit)
  rw [htk] at hs'
  obtain ⟨during, hprog, hother⟩ := EE.write_programs call.bytes hwf (by rw [htk]; exact hfit) hpage hw
  rw [htk] at hother
  have hkeep : ∀ j, Cells.apply (during.take j) s.spi.chip.dev.pages (tk.firstPage + p) =
      s.spi.chip.dev.pages (tk.firstPage + p) :=
    fun j => Cells.apply_of_not_mem (fun w hw => hother w (List.mem_of_mem_take hw)) _
  refine ⟨s, s', during, he, (call.run_eq s).trans hw, hprog, hkeep, fun later hlater => ?_⟩
  have hsees : s'.Sees call.addr call.bytes := fun i hi => by
    rw [hs'.value _ (by omega), Cells.put_of_lt _ _ hi]
  obtain ⟨t, after, he', hprog', hcar⟩ := EEOp.runAll_carries hpage later hs'.wf (by rw [hs'.token]; exact hfit) hsees hlater
  rw [hs'.token] at hcar
  refine ⟨t, after, he', hprog', fun j m spi' hm hi' hflash => ?_⟩
  have hws : ∀ w ∈ (during ++ after).take j, w.1 = tk.firstPage + p → EE.Carries w.2 call.addr call.bytes := by
    intro w hw hwp
    rcases List.mem_append.mp (List.mem_of_mem_take hw) with hd | ha
    · exact absurd hwp (hother w hd)
    · exact hcar w ha hwp
  have hbefore : s.flashByte = fun a => s.spi.chip.dev.pages (tk.firstPage + EE.pageOf a) (EE.offsetOf a) := by
    funext a
    rw [EE.flashByte, htk]
  rw [hbefore]
  exact EE.read_after_programs hf hm hi' hflash hfit hpage hws

/-- A word in page 1 with one slot, which is then used for another page. -/
theorem page_write_atomic_one_slot :
    let call := WriteCall.write4 600 0x12345678
    ∃ s s' during, EEOp.runAll [.write1 3 9]
        (EE.init ⟨3, 4⟩ 1 (Spi.reset ⟨fun _ _ => 0xFF, fun _ _ => 0, []⟩ 5 [2, 0] 0x25 [])) = some s ∧
      call.run s = some s' ∧ s.Programmed s' during ∧
      (∀ j, Cells.apply (during.take j) s.spi.chip.dev.pages (3 + 1) = s.spi.chip.dev.pages (3 + 1)) ∧
      ∀ later : List EEOp, (∀ op ∈ later, op.Spares 600 4) →
        ∃ t after, EEOp.runAll later s' = some t ∧ s'.Programmed t after ∧
          ∀ j m spi', 1 ≤ m → spi'.Idle →
            spi'.chip.dev.pages = Cells.apply ((during ++ after).take j) s.spi.chip.dev.pages →
            ∃ bs u, EE.read 4 600 (EE.init ⟨3, 4⟩ m spi') = some (bs, u) ∧
              (bs = (List.range' 600 4).map s.flashByte ∨ bs = [0x78, 0x56, 0x34, 0x12]) :=
  page_write_atomic ⟨3, 4⟩ (by decide) 1 (by decide) _ (DataFlashAux.reset_idle _ _ _ _ _) [.write1 3 9]
    (.write4 600 0x12345678) 1 (by decide) (by decide) (by decide)

end PowerMonitor
