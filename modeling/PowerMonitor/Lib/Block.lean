import PowerMonitor.Lib.CString

/-!
# Programs on a block of memory

A program reads and writes the bytes of a block, and has no result once it gets outside of the block. What such a program does on a
block it does on every longer block too, and the bytes behind it stay (`Local`); programs made of local ones are local.

The string functions of the C library are local programs. On a string that ends within the block they have the results that
`CString` gives them.
-/

namespace PowerMonitor

/-- A program on a block: its result and the block it leaves. -/
abbrev Block (β : Type) := StateT (List UInt8) Option β

namespace Block

open CString

variable {β γ : Type}

/-- A program that stays inside the block it is given: it keeps the block's length, and does the same with more bytes behind it. -/
structure Local (f : Block β) : Prop where
  length : ∀ {mem b mem'}, f mem = some (b, mem') → mem'.length = mem.length
  append : ∀ {mem b mem'}, f mem = some (b, mem') → ∀ m, f (mem ++ m) = some (b, mem' ++ m)

/-- The string at an index ends within the block. -/
def Terminated (mem : List UInt8) (ptr : Nat) : Prop := (0 : UInt8) ∈ mem.drop ptr

/-! ## Accesses -/

/-- Reads the byte at an index. -/
def read (i : Nat) : Block UInt8 := fun mem => mem[i]?.map fun c => (c, mem)

/-- Writes the byte at an index. -/
def write (i : Nat) (c : UInt8) : Block Unit := fun mem => if i < mem.length then some ((), mem.set i c) else none

/-- Reads `n` bytes. -/
def load (ptr n : Nat) : Block (List UInt8) := fun mem =>
  if ptr + n ≤ mem.length then some ((mem.drop ptr).take n, mem) else none

/-- Writes the bytes of a list. -/
def store (ptr : Nat) (data : List UInt8) : Block Unit := fun mem =>
  if ptr + data.length ≤ mem.length then some ((), CString.store mem ptr data) else none

/-- The number of bytes a list begins with that satisfy a test; there is none if the list ends before a byte that does not. -/
def count (p : UInt8 → Bool) : List UInt8 → Option Nat
  | [] => none
  | c :: l => if p c then (count p l).map (· + 1) else some 0

/-- `while (p(*ptr)) ++ptr;` -/
def skip (p : UInt8 → Bool) (ptr : Nat) : Block Nat := fun mem => (count p (mem.drop ptr)).map fun n => (ptr + n, mem)

/-! ## String functions -/

/-- `strlen`. -/
def strlen (ptr : Nat) : Block Nat := do
  let stop ← skip (· ≠ 0) ptr
  pure (stop - ptr)

/-- `strchr`. -/
def strchr (ptr : Nat) (c : UInt8) : Block (Option Nat) := do
  let i ← skip (fun b => b ≠ 0 && b ≠ c) ptr
  let b ← read i
  pure (if b = c then some i else none)

/-- `strncmp` of a string outside the block with one inside. -/
def strncmp : (s : List UInt8) → (ptr n : Nat) → Block Int
  | _, _, 0 => pure 0
  | [], ptr, _ + 1 => do
    let b ← read ptr
    pure (-b.toNat)
  | a :: s, ptr, n + 1 => do
    let b ← read ptr
    if a = b then if a = 0 then pure 0 else strncmp s (ptr + 1) n else pure (a.toNat - b.toNat)

/-- `memmove`. -/
def memmove (dst src n : Nat) : Block Unit := do
  let data ← load src n
  store dst data

/-- The string that a function gets a pointer to. -/
def string (ptr : Nat) : Block (List UInt8) := do
  let n ← strlen ptr
  load ptr n

/-! ## Local programs -/

theorem bind_eq {f : Block β} {mem mem' : List UInt8} {b : β} (h : f mem = some (b, mem')) (g : β → Block γ) :
    (f >>= g) mem = g b mem' := by
  show (f mem).bind _ = _
  rw [h]
  rfl

theorem bind_eq_some {f : Block β} {g : β → Block γ} {mem mem' : List UInt8} {c : γ} (h : (f >>= g) mem = some (c, mem')) :
    ∃ b mem₁, f mem = some (b, mem₁) ∧ g b mem₁ = some (c, mem') := by
  obtain ⟨⟨b, mem₁⟩, hf, hg⟩ := Option.bind_eq_some_iff.mp h
  exact ⟨b, mem₁, hf, hg⟩

theorem Local.pure (b : β) : Local (pure b : Block β) := by
  constructor
  · rintro mem c mem' ⟨⟩
    rfl
  · rintro mem c mem' ⟨⟩ m
    rfl

theorem Local.bind {f : Block β} {g : β → Block γ} (hf : Local f) (hg : ∀ b, Local (g b)) : Local (f >>= g) := by
  constructor
  · intro mem c mem' h
    obtain ⟨b, mem₁, h₁, h₂⟩ := bind_eq_some h
    exact ((hg b).length h₂).trans (hf.length h₁)
  · intro mem c mem' h m
    obtain ⟨b, mem₁, h₁, h₂⟩ := bind_eq_some h
    rw [bind_eq (hf.append h₁ m)]
    exact (hg b).append h₂ m

theorem Local.ite {c : Prop} [Decidable c] {f g : Block β} (hf : Local f) (hg : Local g) : Local (if c then f else g) := by
  split
  · exact hf
  · exact hg

theorem Local.failure : Local (failure : Block β) := by
  constructor
  · rintro mem b mem' ⟨⟩
  · rintro mem b mem' ⟨⟩

/-- Cells that are read in front of the end of the block are in front of the end of a longer one. -/
theorem Local.reads {f : List UInt8 → Option γ} (h : ∀ {mem c}, f mem = some c → ∀ m, f (mem ++ m) = some c) (g : γ → β) :
    Local (fun mem => (f mem).map fun c => (g c, mem) : Block β) := by
  constructor
  · intro mem b mem' he
    obtain ⟨c, -, hc⟩ := Option.map_eq_some_iff.mp he
    cases hc
    rfl
  · intro mem b mem' he m
    obtain ⟨c, hf, hc⟩ := Option.map_eq_some_iff.mp he
    cases hc
    rw [h hf m, Option.map_some]

/-- An access whose bounds are tested first. -/
theorem Local.guarded {c : List UInt8 → Prop} [DecidablePred c] {g : List UInt8 → β × List UInt8}
    (hlen : ∀ {mem}, c mem → (g mem).2.length = mem.length)
    (happ : ∀ {mem}, c mem → ∀ m, c (mem ++ m) ∧ g (mem ++ m) = ((g mem).1, (g mem).2 ++ m)) :
    Local (fun mem => if c mem then some (g mem) else none : Block β) := by
  have hcond : ∀ {mem r}, (if c mem then some (g mem) else none) = some r → c mem ∧ g mem = r := by
    intro mem r h
    split at h
    · next hc => exact ⟨hc, Option.some.inj h⟩
    · cases h
  constructor
  · intro mem b mem' h
    obtain ⟨hc, hg⟩ := hcond h
    rw [← hlen hc, hg]
  · intro mem b mem' h m
    obtain ⟨hc, hg⟩ := hcond h
    obtain ⟨hc', hg'⟩ := happ hc m
    show (if c (mem ++ m) then some (g (mem ++ m)) else none) = _
    rw [if_pos hc', hg', hg]

theorem read_local (i : Nat) : Local (read i) := by
  refine .reads (fun {mem c} hi m => ?_) id
  obtain ⟨hlt, -⟩ := List.getElem?_eq_some_iff.mp hi
  rw [List.getElem?_append_left hlt, hi]

theorem write_local (i : Nat) (c : UInt8) : Local (write i c) := by
  refine .guarded (fun _ => List.length_set) fun {mem} hlt m => ⟨?_, ?_⟩
  · rw [List.length_append]
    omega
  · rw [List.set_append_left _ _ hlt]

theorem load_local (ptr n : Nat) : Local (load ptr n) := by
  refine .guarded (fun _ => rfl) fun {mem} hle m => ⟨?_, ?_⟩
  · rw [List.length_append]
    omega
  · rw [List.drop_append_of_le_length (by omega), List.take_append_of_le_length (by rw [List.length_drop]; omega)]

theorem store_local (ptr : Nat) (data : List UInt8) : Local (store ptr data) := by
  refine .guarded (fun hle => store_length hle) fun {mem} hle m => ⟨?_, ?_⟩
  · rw [List.length_append]
    omega
  · unfold CString.store
    rw [List.take_append_of_le_length (by omega), List.drop_append_of_le_length hle, List.append_assoc _ _ m]

theorem count_append {p : UInt8 → Bool} {l : List UInt8} {n : Nat} (h : count p l = some n) (m : List UInt8) :
    count p (l ++ m) = some n := by
  induction l generalizing n with
  | nil => cases h
  | cons c l ih =>
    rw [List.cons_append]
    unfold count at h ⊢
    split at h
    · next hc =>
      obtain ⟨k, hk, rfl⟩ := Option.map_eq_some_iff.mp h
      rw [if_pos hc, ih hk, Option.map_some]
    · next hc => rw [if_neg hc, h]

theorem skip_local (p : UInt8 → Bool) (ptr : Nat) : Local (skip p ptr) := by
  refine .reads (fun {mem n} hc m => ?_) (ptr + ·)
  have hle : ptr ≤ mem.length := by
    by_contra hgt
    rw [List.drop_eq_nil_of_le (by omega)] at hc
    cases hc
  rw [List.drop_append_of_le_length hle, count_append hc m]

theorem strlen_local (ptr : Nat) : Local (strlen ptr) := (skip_local _ ptr).bind fun _ => .pure _

theorem strchr_local (ptr : Nat) (c : UInt8) : Local (strchr ptr c) :=
  (skip_local _ ptr).bind fun i => (read_local i).bind fun _ => .pure _

theorem strncmp_local (s : List UInt8) : ∀ ptr n, Local (strncmp s ptr n) := by
  induction s with
  | nil =>
    intro ptr n
    cases n with
    | zero => exact .pure _
    | succ n => exact (read_local ptr).bind fun _ => .pure _
  | cons a s ih =>
    intro ptr n
    cases n with
    | zero => exact .pure _
    | succ n => exact (read_local ptr).bind fun _ => .ite (.ite (.pure _) (ih _ n)) (.pure _)

theorem memmove_local (dst src n : Nat) : Local (memmove dst src n) := (load_local src n).bind fun data => store_local dst data

theorem string_local (ptr : Nat) : Local (string ptr) := (strlen_local ptr).bind fun n => load_local ptr n

/-! ## Strings that end within the block -/

variable {mem : List UInt8} {ptr : Nat}

theorem Terminated.lt (h : Terminated mem ptr) : ptr < mem.length := by
  by_contra hge
  rw [Terminated, List.drop_eq_nil_of_le (by omega)] at h
  cases h

/-- A string that ends within the block has a NUL at an index of the block. -/
theorem terminated_iff : Terminated mem ptr ↔ ∃ z, ptr ≤ z ∧ mem[z]? = some 0 := by
  rw [Terminated, List.mem_iff_getElem?]
  constructor
  · rintro ⟨i, hi⟩
    rw [List.getElem?_drop] at hi
    exact ⟨ptr + i, Nat.le_add_right ptr i, hi⟩
  · rintro ⟨z, hz, he⟩
    obtain ⟨i, rfl⟩ := Nat.exists_eq_add_of_le hz
    exact ⟨i, by rw [List.getElem?_drop, he]⟩

/-- A NUL ends the strings that begin at it or before it. -/
theorem Terminated.set (h : Terminated mem ptr) (i : Nat) : Terminated (mem.set i 0) ptr := by
  obtain ⟨z, hz, he⟩ := terminated_iff.mp h
  refine terminated_iff.mpr ⟨z, hz, ?_⟩
  obtain ⟨hlt, -⟩ := List.getElem?_eq_some_iff.mp he
  by_cases hzi : i = z
  · rw [hzi, List.getElem?_set_self hlt]
  · rw [List.getElem?_set_ne hzi, he]

theorem terminated_set {i : Nat} (hi : i < mem.length) (h : ptr ≤ i) : Terminated (mem.set i 0) ptr :=
  terminated_iff.mpr ⟨i, h, List.getElem?_set_self hi⟩

theorem Terminated.mono {q : Nat} (h : Terminated mem q) (hle : ptr ≤ q) : Terminated mem ptr := by
  obtain ⟨z, hz, he⟩ := terminated_iff.mp h
  exact terminated_iff.mpr ⟨z, Nat.le_trans hle hz, he⟩

theorem read_eq {i : Nat} {c : UInt8} (h : mem[i]? = some c) : read i mem = some (c, mem) := by rw [read, h, Option.map_some]

theorem write_eq {i : Nat} (h : i < mem.length) (c : UInt8) : write i c mem = some ((), mem.set i c) := if_pos h

/-- Up to its NUL, a string is its first byte and the string behind it. -/
theorem Terminated.cases (h : Terminated mem ptr) :
    (mem[ptr]? = some 0 ∧ text (mem.drop ptr) = []) ∨
      ∃ c, c ≠ 0 ∧ mem[ptr]? = some c ∧ text (mem.drop ptr) = c :: text (mem.drop (ptr + 1)) ∧ Terminated mem (ptr + 1) := by
  have hlt := h.lt
  have hdrop := List.drop_eq_getElem_cons hlt
  have hget := List.getElem?_eq_getElem hlt
  by_cases hc : mem[ptr] = 0
  · refine Or.inl ⟨by rw [hget, hc], ?_⟩
    rw [hdrop, text, List.takeWhile_cons_of_neg (by simp [hc])]
  · refine Or.inr ⟨mem[ptr], hc, hget, ?_, ?_⟩
    · conv_lhs => rw [hdrop, text, List.takeWhile_cons_of_pos (by simp [hc])]
      rfl
    · rw [Terminated, hdrop] at h
      exact (List.mem_cons.mp h).resolve_left (Ne.symm hc)

theorem count_eq {p : UInt8 → Bool} (hp : p 0 = false) {l : List UInt8} (h : (0 : UInt8) ∈ l) :
    count p l = some (l.takeWhile p).length := by
  induction l with
  | nil => cases h
  | cons c l ih =>
    unfold count
    by_cases hc : p c = true
    · have hne : c ≠ 0 := by
        rintro rfl
        rw [hp] at hc
        cases hc
      rw [if_pos hc, ih ((List.mem_cons.mp h).resolve_left (Ne.symm hne)), List.takeWhile_cons_of_pos hc]
      rfl
    · rw [if_neg hc, List.takeWhile_cons_of_neg hc]
      rfl

theorem skip_eq {p : UInt8 → Bool} (hp : p 0 = false) (h : Terminated mem ptr) :
    skip p ptr mem = some (ptr + ((mem.drop ptr).takeWhile p).length, mem) := by
  rw [skip, count_eq hp h, Option.map_some]

theorem strlen_eq (h : Terminated mem ptr) : strlen ptr mem = some (CString.strlen mem ptr, mem) := by
  unfold strlen
  rw [bind_eq (skip_eq (by simp) h), Nat.add_sub_cancel_left]
  rfl

/-- The first byte of a list with a NUL that is a NUL or `c`. -/
theorem first_of_two {c : UInt8} (hc : c ≠ 0) {l : List UInt8} (h : (0 : UInt8) ∈ l) :
    ∃ b, l[(l.takeWhile fun b => b ≠ 0 && b ≠ c).length]? = some b ∧
      (text l).idxOf? c = if b = c then some (l.takeWhile fun b => b ≠ 0 && b ≠ c).length else none := by
  induction l with
  | nil => cases h
  | cons b l ih =>
    by_cases hb : b = 0
    · subst hb
      exact ⟨0, by simp, by simp [text, Ne.symm hc]⟩
    · by_cases hbc : b = c
      · subst hbc
        exact ⟨b, by simp, by simp [text, hb, List.idxOf?_cons]⟩
      · obtain ⟨d, hd, hi⟩ := ih ((List.mem_cons.mp h).resolve_left (Ne.symm hb))
        have htext : text (b :: l) = b :: text l := by simp [text, hb]
        have htake : (b :: l).takeWhile (fun b => b ≠ 0 && b ≠ c) = b :: l.takeWhile fun b => b ≠ 0 && b ≠ c := by
          simp [hb, hbc]
        refine ⟨d, ?_, ?_⟩
        · rw [htake, List.length_cons, List.getElem?_cons_succ, hd]
        · rw [htext, htake, List.idxOf?_cons, if_neg (by simpa using hbc), hi, List.length_cons]
          split <;> rfl

theorem strchr_eq (h : Terminated mem ptr) {c : UInt8} (hc : c ≠ 0) : strchr ptr c mem = some (CString.strchr mem ptr c, mem) := by
  obtain ⟨b, hb, hi⟩ := first_of_two hc h
  rw [List.getElem?_drop] at hb
  unfold strchr
  rw [bind_eq (skip_eq (by simp) h), bind_eq (read_eq hb), CString.strchr, hi]
  split <;> rfl

theorem strncmp_eq (s : List UInt8) : ∀ {ptr : Nat}, Terminated mem ptr → ∀ n,
    strncmp s ptr n mem = some (CString.strncmp s (text (mem.drop ptr)) n, mem) := by
  induction s with
  | nil =>
    intro ptr h n
    cases n with
    | zero => rfl
    | succ n =>
      unfold strncmp
      rcases h.cases with ⟨hr, ht⟩ | ⟨c, -, hr, ht, -⟩
      · rw [bind_eq (read_eq hr), ht]
        rfl
      · rw [bind_eq (read_eq hr), ht]
        rfl
  | cons a s ih =>
    intro ptr h n
    cases n with
    | zero => rfl
    | succ n =>
      unfold strncmp
      rcases h.cases with ⟨hr, ht⟩ | ⟨c, hc, hr, ht, hn⟩
      · rw [bind_eq (read_eq hr), ht]
        by_cases ha : a = 0
        · subst ha
          rfl
        · rw [if_neg ha]
          exact congrArg (fun v : Int => some (v, mem)) (by simp [CString.strncmp])
      · rw [bind_eq (read_eq hr), ht]
        by_cases hac : a = c
        · rw [if_pos hac, if_neg (hac ▸ hc), ih hn n, CString.strncmp, if_pos hac]
        · rw [if_neg hac, CString.strncmp, if_neg hac]
          rfl

theorem string_eq (h : Terminated mem ptr) : string ptr mem = some (text (mem.drop ptr), mem) := by
  have htake : (mem.drop ptr).take (text (mem.drop ptr)).length = text (mem.drop ptr) :=
    (List.prefix_iff_eq_take.mp (List.takeWhile_prefix _)).symm
  have hle := text_length_le (mem.drop ptr)
  rw [List.length_drop] at hle
  unfold string
  rw [bind_eq (strlen_eq h), load, if_pos (by have := h.lt; rw [CString.strlen]; omega), CString.strlen, htake]

theorem memmove_eq {dst src n : Nat} (hs : src + n ≤ mem.length) (hd : dst + n ≤ mem.length) :
    memmove dst src n mem = some ((), CString.memmove mem dst src n) := by
  have hlen : ((mem.drop src).take n).length = n := by
    rw [List.length_take, List.length_drop]
    omega
  have hload : load src n mem = some ((mem.drop src).take n, mem) := if_pos hs
  unfold memmove
  rw [bind_eq hload, store, if_pos (by omega), CString.memmove]

/-! ## Places in a string -/

/-- What is skipped ends before the NUL. -/
theorem Terminated.skip (h : Terminated mem ptr) {p : UInt8 → Bool} (hp : p 0 = false) :
    Terminated mem (ptr + ((mem.drop ptr).takeWhile p).length) := by
  have hsplit := List.takeWhile_append_dropWhile (p := p) (l := mem.drop ptr)
  have hskipped : (0 : UInt8) ∉ (mem.drop ptr).takeWhile p := by
    intro h0
    rw [List.all_eq_true.mp List.all_takeWhile 0 h0] at hp
    cases hp
  unfold Terminated at h ⊢
  rw [← List.drop_drop]
  generalize (mem.drop ptr).takeWhile p = a at hsplit hskipped ⊢
  rw [← hsplit] at h ⊢
  rw [List.drop_left]
  exact (List.mem_append.mp h).resolve_left hskipped

/-- The NUL of a string. -/
theorem Terminated.nul (h : Terminated mem ptr) : mem[ptr + CString.strlen mem ptr]? = some 0 := by
  obtain ⟨r, hr⟩ := exists_text_append h
  rw [← List.getElem?_drop, CString.strlen]
  generalize text (mem.drop ptr) = t at hr ⊢
  rw [hr, List.getElem?_append_right (Nat.le_refl _), Nat.sub_self, List.getElem?_cons_zero]

theorem Terminated.strlen_lt (h : Terminated mem ptr) : ptr + CString.strlen mem ptr < mem.length :=
  (List.getElem?_eq_some_iff.mp h.nul).1

/-- A byte that is found is in front of the NUL. -/
theorem Terminated.strchr (h : Terminated mem ptr) {c : UInt8} {i : Nat} (hi : CString.strchr mem ptr c = some i) :
    ptr ≤ i ∧ mem[i]? = some c ∧ Terminated mem (i + 1) := by
  have hpre : text (mem.drop ptr) <+: mem.drop ptr := List.takeWhile_prefix _
  obtain ⟨j, hj, rfl⟩ := Option.map_eq_some_iff.mp hi
  rw [List.idxOf?, List.findIdx?_eq_some_iff_getElem] at hj
  obtain ⟨hlt, hc, -⟩ := hj
  refine ⟨Nat.le_add_right ptr j, ?_, terminated_iff.mpr ⟨ptr + CString.strlen mem ptr, ?_, h.nul⟩⟩
  · rw [← List.getElem?_drop, List.prefix_iff_getElem?.mp hpre j hlt, beq_iff_eq.mp hc]
  · rw [CString.strlen]
    omega

end Block

end PowerMonitor
