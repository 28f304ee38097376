import PowerMonitor.Lib.CString
import PowerMonitor.Theorems.MultiByte
import Mathlib.Data.List.TakeWhile

/-!
# Stored strings

`EE_ReadString` stores the characters it reads, a NUL where the string ended, and one more NUL behind what it has stored: at most
`size` bytes in all, unless `size` is 0. The first stores are made only through a pointer that is not NULL, the last one through
any pointer. `EE_WriteString` stores the NUL of its string if it fits, so that a string is read back with the size it was stored
with, whatever stands behind it.
-/

namespace PowerMonitor

/-- A buffer after stores into it. A store through NULL does not meet it. -/
def landed (stores : List (Ptr × UInt8)) (mem : Bytes) : Bytes :=
  stores.foldl (fun mem st => match st.1 with | some i => Function.update mem i st.2 | none => mem) mem

namespace EE

/-- A stored byte that does not end a string. -/
def isChar (c : UInt8) : Bool := c ≠ 0 && c ≠ 0xFF

/-- The bytes from an address on, as they are stored. Behind the token nothing is stored. -/
def HoldsAt (s : EE) (addr : Nat) (bs : List UInt8) : Prop :=
  ∀ i (h : i < bs.length), addr + i < 512 * s.token.size → s.Reads (addr + i) bs[i]

/-- The stores of consecutive bytes through a pointer that may be NULL. -/
def storesAt : Ptr → List UInt8 → List (Ptr × UInt8)
  | none, _ => []
  | some _, [] => []
  | some p, c :: cs => (some p, c) :: storesAt (some (p + 1)) cs

/-- What the loop of `EE_ReadString` stores of at most `n` bytes: the characters, and a NUL if they ended before. -/
def copied (n : Nat) (cs : List UInt8) : List UInt8 := cs ++ if cs.length < n then [0] else []

/-! ## Stores -/

theorem storesAt_cons (dest : Ptr) (c : UInt8) (cs : List UInt8) :
    storesAt dest (c :: cs) = (if dest ≠ none then [(dest, c)] else []) ++ storesAt (dest.map (· + 1)) cs := by
  cases dest with
  | none => simp [storesAt]
  | some p => rfl

theorem storesAt_snoc (p : Nat) (cs : List UInt8) (c : UInt8) :
    storesAt (some p) cs ++ [(some (p + cs.length), c)] = storesAt (some p) (cs ++ [c]) := by
  induction cs generalizing p with
  | nil => rfl
  | cons d cs ih =>
    rw [List.cons_append, storesAt, storesAt, List.cons_append, ← ih, List.length_cons, Nat.add_right_comm, Nat.add_assoc]

theorem mem_storesAt {p : Nat} {cs : List UInt8} {st : Ptr × UInt8} (h : st ∈ storesAt (some p) cs) :
    ∃ i, i < p + cs.length ∧ st.1 = some i := by
  induction cs generalizing p with
  | nil => cases h
  | cons c cs ih =>
    rw [List.length_cons]
    rcases List.mem_cons.mp h with rfl | h
    · exact ⟨p, by omega, rfl⟩
    · obtain ⟨i, hi, he⟩ := ih h
      exact ⟨i, by omega, he⟩

/-- Consecutive stores put a row of bytes into the buffer. -/
theorem landed_storesAt (p : Nat) (cs : List UInt8) (mem : Bytes) : landed (storesAt (some p) cs) mem = Cells.put mem p cs := by
  induction cs generalizing p mem with
  | nil => exact (Cells.put_nil mem p).symm
  | cons c cs ih =>
    rw [Cells.put_cons, ← ih]
    rfl

theorem copied_cons (n : Nat) (c : UInt8) (cs : List UInt8) : copied (n + 1) (c :: cs) = c :: copied n cs := by
  simp [copied]

theorem copied_length_le {n : Nat} {cs : List UInt8} (h : cs.length ≤ n) : (copied n cs).length ≤ n := by
  rw [copied, List.length_append]
  split
  · rw [List.length_singleton]
    omega
  · exact h

/-! ## Reading -/

/-- The bytes that are stored behind a byte that has been read. -/
theorem holdsAt_cons {s t : EE} (h : s.Wf) (hu : Unseen s t) {addr : Nat} {c : UInt8} {bs : List UInt8}
    (hc : addr < 512 * s.token.size → s.Reads addr c) (hbs : t.HoldsAt (addr + 1) bs) : s.HoldsAt addr (c :: bs) := by
  intro i hi ha
  cases i with
  | zero => exact hc ha
  | succ i =>
    have ha' : addr + 1 + i < 512 * s.token.size := by omega
    have hr := (reads_iff hu.wf (by rw [hu.token]; exact ha') _).mp (hbs i (by simpa using hi) (by rw [hu.token]; exact ha'))
    rw [hu.value] at hr
    rw [show addr + (i + 1) = addr + 1 + i by omega]
    exact (reads_iff h ha' _).mpr hr

/-- In every state there are bytes stored from an address on. -/
theorem exists_holdsAt {s : EE} (h : s.Wf) (addr n : Nat) : ∃ bs : List UInt8, bs.length = n ∧ s.HoldsAt addr bs := by
  refine ⟨(List.range n).map fun i => s.value (addr + i), by simp, fun i hi ha => ?_⟩
  rw [reads_iff h ha, List.getElem_map, List.getElem_range]

/-- The loop of `EE_ReadString`: the bytes up to the end of the string are counted, and stored unless the pointer is NULL. -/
theorem readStringLoop_spec (n : Nat) : ∀ {s : EE} (_ : s.Wf) (addr : Nat) (_ : addr + n < 2 ^ 32) (len : Nat) (dest : Ptr),
    ∃ bs s', bs.length = n ∧ s.HoldsAt addr bs ∧ Unseen s s' ∧
      readStringLoop n len addr dest s =
        some ({ len := len + (bs.takeWhile isChar).length, stores := storesAt dest (copied n (bs.takeWhile isChar)) },
          dest.map (· + (copied n (bs.takeWhile isChar)).length), s') := by
  induction n with
  | zero =>
    intro s h addr _ len dest
    refine ⟨[], s, rfl, fun i hi => absurd hi (Nat.not_lt_zero i), Unseen.refl h, ?_⟩
    cases dest <;> rfl
  | succ n ih =>
    intro s h addr haddr len dest
    obtain ⟨v, t, he, hu, -⟩ := read1_spec h addr
    have hv : addr < 512 * s.token.size → s.Reads addr v := fun _ => ⟨t, he⟩
    by_cases hc : isChar v = true
    · have hne : v ≠ 0xFF ∧ v ≠ 0 := by simpa [isChar, and_comm] using hc
      obtain ⟨bs, s', hlen, hbs, hu', hloop⟩ := ih hu.wf (addr + 1) (by omega) (len + 1) (dest.map (· + 1))
      refine ⟨v :: bs, s', by rw [List.length_cons, hlen], holdsAt_cons h hu hv hbs, hu.trans hu', ?_⟩
      have hmod : (addr + 1) % 2 ^ 32 = addr + 1 := Nat.mod_eq_of_lt (by omega)
      rw [List.takeWhile_cons_of_pos hc, copied_cons, storesAt_cons]
      simp only [readStringLoop, he, hne, if_false, hmod, hloop, Option.bind_eq_bind, Option.bind_some, Option.map_map,
        List.length_cons]
      refine congrArg some (Prod.ext ?_ (Prod.ext ?_ rfl))
      · exact congrArg₂ StringRead.mk (by omega) rfl
      · cases dest with
        | none => rfl
        | some p => exact congrArg some (show p + 1 + _ = p + (_ + 1) by omega)
    · have hzero : (if v = 0xFF then 0 else v) = 0 := by
        have hv' : v = 0 ∨ v = 0xFF := by simpa [isChar, or_iff_not_imp_left] using hc
        rcases hv' with rfl | rfl <;> rfl
      obtain ⟨bs, hlen, hbs⟩ := exists_holdsAt hu.wf (addr + 1) n
      refine ⟨v :: bs, t, by rw [List.length_cons, hlen], holdsAt_cons h hu hv hbs, hu, ?_⟩
      rw [List.takeWhile_cons_of_neg hc]
      simp only [readStringLoop, he, hzero, if_true, Option.bind_eq_bind, Option.bind_some, copied, List.nil_append,
        List.length_nil, Nat.zero_lt_succ, storesAt_cons, Nat.add_zero]
      cases dest <;> rfl

/-- `EE_ReadString`: as its loop, and a NUL through the pointer behind what it has stored. -/
theorem readString_spec {s : EE} (h : s.Wf) (addr size : Nat) (haddr : addr + (size - 1) < 2 ^ 32) (dest : Ptr) :
    ∃ bs s', bs.length = size - 1 ∧ s.HoldsAt addr bs ∧ Unseen s s' ∧
      s.readString addr dest size =
        some ({ len := (bs.takeWhile isChar).length
                stores := storesAt dest (copied (size - 1) (bs.takeWhile isChar)) ++
                  [(dest.map (· + (copied (size - 1) (bs.takeWhile isChar)).length), 0)] }, s') := by
  obtain ⟨bs, s', hlen, hbs, hu, hloop⟩ := readStringLoop_spec (size - 1) h addr haddr 0 dest
  refine ⟨bs, s', hlen, hbs, hu, ?_⟩
  simp only [readString, hloop, Option.bind_eq_bind, Option.bind_some, Nat.zero_add]

/-- The call counts the bytes before the first 0x00 or 0xFF, at most `size - 1`, stores only in a buffer of `size` bytes that it
was given, and ends what it leaves there with a NUL. -/
structure RespectsDest (s : EE) (addr : Nat) (dest : Ptr) (size : Nat) (r : StringRead) : Prop where
  len : ∃ bs : List UInt8, bs.length = size - 1 ∧ s.HoldsAt addr bs ∧ r.len = (bs.takeWhile isChar).length
  inside : ∀ st ∈ r.stores, ∃ i, i < size ∧ st.1 = some i
  ended : 0 < size → dest ≠ none → ∀ mem, ∃ i, i < size ∧ landed r.stores mem i = 0

/-- What `EE_ReadString` leaves in a buffer: what its loop copied, and a NUL. -/
theorem landed_copied (n : Nat) (cs : List UInt8) (mem : Bytes) :
    landed (storesAt (some 0) (copied n cs) ++ [((some 0 : Ptr).map (· + (copied n cs).length), 0)]) mem =
      Cells.put mem 0 (copied n cs ++ [0]) := by
  rw [Option.map_some, storesAt_snoc, landed_storesAt]

/-- A buffer of at least one byte is respected. -/
theorem respectsDest_buffer {s : EE} {addr size : Nat} (hsize : 0 < size) {bs : List UInt8} (hlen : bs.length = size - 1)
    (hbs : s.HoldsAt addr bs) :
    RespectsDest s addr (some 0) size
      { len := (bs.takeWhile isChar).length
        stores := storesAt (some 0) (copied (size - 1) (bs.takeWhile isChar)) ++
          [((some 0 : Ptr).map (· + (copied (size - 1) (bs.takeWhile isChar)).length), 0)] } := by
  have hle : (bs.takeWhile isChar).length ≤ size - 1 := hlen ▸ (List.takeWhile_prefix _).length_le
  have hfit := copied_length_le hle
  refine ⟨⟨bs, hlen, hbs, rfl⟩, ?_, ?_⟩
  · intro st hst
    rw [Option.map_some, storesAt_snoc] at hst
    obtain ⟨i, hi, he⟩ := mem_storesAt hst
    rw [List.length_append, List.length_singleton] at hi
    exact ⟨i, by omega, he⟩
  · intro _ _ mem
    refine ⟨(copied (size - 1) (bs.takeWhile isChar)).length, by omega, ?_⟩
    rw [landed_copied, Cells.put_zero_of_lt mem (by simp), List.getElem_concat_length rfl]

/-- The call respects its destination exactly when that is a buffer and the size is not 0. -/
theorem respectsDest_iff {s : EE} (h : s.Wf) {addr size : Nat} (haddr : addr + (size - 1) < 2 ^ 32) {dest : Ptr}
    (hdest : dest ∈ [none, some 0]) :
    ∃ r t, s.readString addr dest size = some (r, t) ∧ (RespectsDest s addr dest size r ↔ dest ≠ none ∧ 0 < size) := by
  obtain ⟨bs, t, hlen, hbs, -, he⟩ := readString_spec h addr size haddr dest
  refine ⟨_, t, he, fun hr => ?_, ?_⟩
  · -- the last store is made in any case
    obtain ⟨i, hi, hst⟩ := hr.inside _ (List.mem_append_right _ List.mem_cons_self)
    refine ⟨?_, Nat.zero_lt_of_lt hi⟩
    rintro rfl
    cases hst
  · rintro ⟨hne, hsize⟩
    obtain rfl : dest = some 0 := by
      rcases List.mem_cons.mp hdest with rfl | hd
      · exact absurd rfl hne
      · exact List.mem_singleton.mp hd
    exact respectsDest_buffer hsize hlen hbs

/-! ## Writing and reading back -/

/-- The characters of what was written in front of stale bytes: the string, cut to what is read of it. -/
theorem takeWhile_stored {str : List UInt8} (hstr : ∀ c ∈ str, isChar c = true) {n : Nat} {bs : List UInt8} (hlen : bs.length = n)
    (h : ∀ i (hi : i < bs.length) (hi' : i < (str ++ [0]).length), bs[i] = (str ++ [0])[i]) :
    bs.takeWhile isChar = str.take n := by
  have htake : bs.take (str.length + 1) = (str ++ [0]).take n := by
    refine List.ext_getElem (by simp; omega) fun i hi hi' => ?_
    rw [List.getElem_take, List.getElem_take]
    rw [List.length_take] at hi hi'
    exact h i (by omega) (by omega)
  have hsplit := List.take_append_drop (str.length + 1) bs
  rw [htake] at hsplit
  by_cases hn : str.length < n
  · rw [List.take_of_length_le (by simp; omega), List.append_assoc] at hsplit
    rw [← hsplit, List.take_of_length_le (Nat.le_of_lt hn)]
    exact CString.takeWhile_append_stop hstr (by decide) _
  · have hall : bs = str.take n := by
      rw [← hsplit, List.drop_eq_nil_of_le (by omega), List.append_nil, List.take_append_of_le_length (by omega)]
    rw [← hall]
    exact List.takeWhile_eq_self_iff.mpr fun c hc => hstr c (List.mem_of_mem_take (hall ▸ hc))

/-- `EE_ReadString` of a string that `EE_WriteString` stored with the same size: its length, its characters and a NUL. -/
theorem readString_stored {s : EE} (h : s.Wf) {addr n : Nat} (hn : 0 < n) (hfit : addr + n ≤ 512 * s.token.size)
    {str : List UInt8} (hstr : ∀ c ∈ str, isChar c = true) {f : Nat → UInt8}
    (hs : Shows s.token (Cells.put f addr ((str ++ [0]).take n)) s) :
    ∃ r t, s.readString addr (some 0) n = some (r, t) ∧ r.len = min str.length (n - 1) ∧
      (∀ mem, (∀ i (hi : i < str.length), i < n - 1 → landed r.stores mem i = str[i]) ∧
        landed r.stores mem (min str.length (n - 1)) = 0) ∧
      ∀ st ∈ r.stores, ∃ i, i < n ∧ st.1 = some i := by
  have hsize := hs.size_le
  obtain ⟨bs, t, hlen, hbs, -, he⟩ := readString_spec h addr n (by omega) (some 0)
  have hresp := respectsDest_buffer hn hlen hbs
  have hbytes : ∀ i (hi : i < bs.length) (hi' : i < (str ++ [0]).length), bs[i] = (str ++ [0])[i] := by
    intro i hi hi'
    have hin : addr + i < 512 * s.token.size := by omega
    have hv := (reads_iff h hin _).mp (hbs i hi hin)
    rw [hs.value _ hin, Cells.put_of_lt f addr (by rw [List.length_take]; omega), List.getElem_take] at hv
    exact hv
  have hcs := takeWhile_stored hstr hlen hbytes
  rw [hcs] at he hresp
  refine ⟨_, t, he, by rw [List.length_take, Nat.min_comm], fun mem => ?_, hresp.inside⟩
  rw [landed_copied]
  have hrow : ∃ l, copied (n - 1) (str.take (n - 1)) ++ [0] = str.take (n - 1) ++ 0 :: l := by
    rw [copied]
    split
    · exact ⟨[0], by simp⟩
    · exact ⟨[], by simp⟩
  obtain ⟨l, hl⟩ := hrow
  rw [hl]
  constructor
  · intro i hi hin
    have hlt : i < (str.take (n - 1)).length := by rw [List.length_take]; omega
    rw [Cells.put_zero_of_lt mem (by rw [List.length_append]; omega), List.getElem_append_left hlt, List.getElem_take]
  · have hmin : min str.length (n - 1) = (str.take (n - 1)).length := by rw [List.length_take, Nat.min_comm]
    rw [hmin, Cells.put_zero_of_lt mem (by simp), List.getElem_append_right (Nat.le_refl _)]
    simp

end EE

/-- In every state a run reaches, a string that is stored with a size is read back with it: the store changes the bytes of the
string and of its NUL that fit and no others, and the load returns as many characters as fit before a NUL, with the NUL behind
them, and stores nothing outside its buffer. -/
theorem string_round_trip (tk : DFToken) (hf : tk.firstPage + tk.size ≤ 8192) (k : Nat) (hk : 1 ≤ k) (spi : Spi) (hi : spi.Idle)
    (ops : List EEOp) (str : List UInt8) (h0 : (0 : UInt8) ∉ str) (hFF : (0xFF : UInt8) ∉ str) (n : Nat) (hn : 1 ≤ n)
    (addr : Nat) (hfit : addr + n ≤ 512 * tk.size) :
    ∃ s s', EEOp.runAll ops (EE.init tk k spi) = some s ∧ s.writeString addr str n = some s' ∧
      (∀ a, a < 512 * tk.size → a < addr ∨ addr + min (str.length + 1) n ≤ a → ∃ v, s.Reads a v ∧ s'.Reads a v) ∧
      ∃ r t, s'.readString addr (some 0) n = some (r, t) ∧ r.len = min str.length (n - 1) ∧
        (∀ mem, (∀ i (hi : i < str.length), i < n - 1 → landed r.stores mem i = str[i]) ∧
          landed r.stores mem (min str.length (n - 1)) = 0) ∧
        ∀ st ∈ r.stores, ∃ i, i < n ∧ st.1 = some i := by
  obtain ⟨s, he, hwf, ht, -⟩ := EEOp.runAll_spec ops (EE.init_wf hf hk hi).1
  have htk : s.token = tk := ht
  have hlen : ((str ++ [0]).take n).length = min (str.length + 1) n := by
    rw [List.length_take, List.length_append, List.length_singleton, Nat.min_comm]
  obtain ⟨s', hw, hs'⟩ := EE.Shows.write ((str ++ [0]).take n) (EE.Shows.self hwf) (a := addr) (by rw [hlen, htk]; omega)
  have hst := (EE.Shows.self hwf).stores hs' (by rw [hlen, htk]; omega)
  have hstr : ∀ c ∈ str, EE.isChar c = true := by
    intro c hc
    have h0' : c ≠ 0 := fun e => h0 (e ▸ hc)
    have hFF' : c ≠ 0xFF := fun e => hFF (e ▸ hc)
    simp [EE.isChar, h0', hFF']
  refine ⟨s, s', he, (EE.writeString_eq s addr str n).trans hw, ?_, ?_⟩
  · intro a ha hout
    exact hst.others a (by rw [htk]; exact ha) (by rw [hlen]; exact hout)
  · exact EE.readString_stored hs'.wf hn (by rw [hs'.token, htk]; exact hfit) hstr (hs'.token.symm ▸ hs')

/-- "pump" stored in four bytes over two pages, with one slot: "pum" is read back. -/
theorem string_round_trip_cut :
    ∃ s s', EEOp.runAll [.write1 514 9]
        (EE.init ⟨3, 4⟩ 1 (Spi.reset ⟨fun _ _ => 0xFF, fun _ _ => 0, []⟩ 5 [2, 0] 0x25 [])) = some s ∧
      s.writeString 510 (CString.bytes "pump") 4 = some s' ∧
      (∀ a, a < 512 * 4 → a < 510 ∨ 510 + min 5 4 ≤ a → ∃ v, s.Reads a v ∧ s'.Reads a v) ∧
      ∃ r t, s'.readString 510 (some 0) 4 = some (r, t) ∧ r.len = 3 ∧
        (∀ mem, (∀ i (hi : i < (CString.bytes "pump").length), i < 3 → landed r.stores mem i = (CString.bytes "pump")[i]) ∧
          landed r.stores mem 3 = 0) ∧
        ∀ st ∈ r.stores, ∃ i, i < 4 ∧ st.1 = some i :=
  string_round_trip ⟨3, 4⟩ (by decide) 1 (by decide) _ (DataFlashAux.reset_idle _ _ _ _ _) _ (CString.bytes "pump") (by decide)
    (by decide) 4 (by decide) 510 (by decide)

/-- In every state a run reaches, for every address of the token and every size, `EE_ReadString` respects a destination that is
NULL or a buffer of that size exactly when it is a buffer and the size is not 0. -/
theorem read_string_respects_iff (tk : DFToken) (hf : tk.firstPage + tk.size ≤ 8192) (n : Nat) (hn : 1 ≤ n) (spi : Spi)
    (hi : spi.Idle) (ops : List EEOp) :
    ∃ s, EEOp.runAll ops (EE.init tk n spi) = some s ∧ s.token = tk ∧
      ∀ addr size dest, addr < 512 * tk.size → size < 2 ^ 16 → dest ∈ [none, some 0] →
        ∃ r t, s.readString addr dest size = some (r, t) ∧ (s.RespectsDest addr dest size r ↔ dest ≠ none ∧ 0 < size) := by
  obtain ⟨s, he, hwf, ht, -⟩ := EEOp.runAll_spec ops (EE.init_wf hf hn hi).1
  refine ⟨s, he, ht, fun addr size dest haddr hsize hdest => ?_⟩
  have hsz : tk.size ≤ 8192 := by omega
  exact EE.respectsDest_iff hwf (by omega) hdest

/-- A read across a page boundary into a buffer of eight bytes. -/
theorem read_string_respects_iff_buffer :
    ∃ s, EEOp.runAll [.write1 512 65]
        (EE.init ⟨3, 4⟩ 2 (Spi.reset ⟨fun _ _ => 0xFF, fun _ _ => 0, []⟩ 5 [2, 0] 0x25 [])) = some s ∧
      ∃ r t, s.readString 510 (some 0) 8 = some (r, t) ∧ s.RespectsDest 510 (some 0) 8 r := by
  obtain ⟨s, he, -, h⟩ := read_string_respects_iff ⟨3, 4⟩ (by decide) 2 (by decide)
    (Spi.reset ⟨fun _ _ => 0xFF, fun _ _ => 0, []⟩ 5 [2, 0] 0x25 []) (DataFlashAux.reset_idle _ _ _ _ _) [.write1 512 65]
  obtain ⟨r, t, hr, hiff⟩ := h 510 8 (some 0) (by decide) (by decide) (by decide)
  exact ⟨s, he, r, t, hr, hiff.mpr ⟨by decide, by decide⟩⟩

/-- On an erased token a read of no bytes stores a NUL behind the buffer, and a read through NULL stores it through NULL. -/
theorem read_string_stores_outside :
    let s := EE.init ⟨3, 4⟩ 2 (Spi.reset ⟨fun _ _ => 0xFF, fun _ _ => 0, []⟩ 5 [2, 0] 0x25 [])
    (∃ r t, s.readString 0 (some 0) 0 = some (r, t) ∧ r.stores = [(some 0, 0)] ∧ ¬ s.RespectsDest 0 (some 0) 0 r) ∧
      ∃ r t, s.readString 0 none 8 = some (r, t) ∧ r.stores = [(none, 0)] ∧ ¬ s.RespectsDest 0 none 8 r := by
  intro s
  have hfit : DFToken.Fits ⟨3, 4⟩ := by unfold DFToken.Fits; decide
  obtain ⟨hwf, -⟩ := EE.init_wf hfit (show 1 ≤ 2 by decide)
    (DataFlashAux.reset_idle ⟨fun _ _ => 0xFF, fun _ _ => 0, []⟩ 5 [2, 0] 0x25 [])
  constructor
  · obtain ⟨bs, t, hlen, -, -, he⟩ := EE.readString_spec hwf 0 0 (by decide) (some 0)
    obtain rfl := List.length_eq_zero_iff.mp hlen
    refine ⟨_, t, he, rfl, fun hr => ?_⟩
    obtain ⟨i, hi, -⟩ := hr.inside (some 0, 0) List.mem_cons_self
    exact absurd hi (Nat.not_lt_zero i)
  · obtain ⟨bs, t, -, -, -, he⟩ := EE.readString_spec hwf 0 8 (by decide) none
    refine ⟨_, t, he, by simp [EE.storesAt], fun hr => ?_⟩
    obtain ⟨i, -, hst⟩ := hr.inside (none, 0) (List.mem_append_right _ List.mem_cons_self)
    cases hst

end PowerMonitor
