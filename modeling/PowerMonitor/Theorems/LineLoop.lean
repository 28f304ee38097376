import PowerMonitor.Lemmas.Daemon

/-!
# The line loop

The daemon calls `CmdParse_ProcessString` until a call returns a negative value. A call without a carriage return in the text does, and
every other call takes one out of the text, whatever stays in front of it; so there is at most one call more than there are carriage
returns. Every access of every call is in front of the NUL the buffer had at the start, or at it.
-/

namespace PowerMonitor

open CString Block

namespace CmdParse

variable {σ : Type}

/-! ## Accesses inside the block -/

theorem scanIn_local (table : List (CmdFunc σ)) (fd : Int) (cmd : Nat) (arg : Option (List UInt8)) (st : σ) :
    Local (scanIn fd cmd arg st table) := by
  induction table with
  | nil => exact .pure _
  | cons element table ih => exact (strncmp_local _ _ _).bind fun _ => .ite (.pure _) ih

theorem cutArgIn_local (ptr : Nat) : Local (cutArgIn ptr) := by
  refine (strchr_local ptr colon).bind fun o => ?_
  cases o with
  | none => exact .pure _
  | some a => exact (write_local a 0).bind fun _ => (read_local (a + 1)).bind fun _ => .pure _

theorem argIn_local (a : Option Nat) : Local (argIn a) := by
  cases a with
  | none => exact .pure _
  | some a => exact (string_local a).bind fun _ => .pure _

theorem lookupIn_local (table : List (CmdFunc σ)) (fd : Int) (cmd : Nat) (arg : Option Nat) (st : σ) :
    Local (lookupIn table fd cmd arg st) := by
  refine (strlen_local cmd).bind fun n => .ite ?_ (.pure _)
  exact (string_local cmd).bind fun _ => (argIn_local arg).bind fun _ => (scanIn_local table fd cmd _ st).bind fun _ => .pure _

theorem processStringIn_local (table : List (CmdFunc σ)) (fd : Int) (st : σ) : Local (processStringIn table fd st) := by
  refine (strchr_local 0 cr).bind fun o => ?_
  cases o with
  | none => exact .pure _
  | some e =>
    refine (write_local e 0).bind fun _ => (read_local 0).bind fun c => (skip_local _ _).bind fun cmd => ?_
    refine (cutArgIn_local _).bind fun arg => (lookupIn_local table fd cmd arg st).bind fun r => ?_
    exact (strlen_local _).bind fun n => (memmove_local _ _ _).bind fun _ => .pure _

theorem lineLoop_local (table : List (CmdFunc σ)) (fd : Int) (fuel : Nat) :
    ∀ (rv : Int) (st : σ), Local (lineLoop table fd fuel rv st) := by
  induction fuel with
  | zero => exact fun rv st => .ite .failure (.pure _)
  | succ fuel ih =>
    exact fun rv st => .ite ((processStringIn_local table fd st).bind fun r => (ih r.1 r.2.1).bind fun _ => .pure _) (.pure _)

/-! ## The same call -/

theorem scanIn_eq {mem : List UInt8} {cmd : Nat} (h : Terminated mem cmd) (fd : Int) (arg : Option (List UInt8)) (st : σ)
    (table : List (CmdFunc σ)) :
    scanIn fd cmd arg st table mem = some (scan fd (text (mem.drop cmd)) arg st table, mem) := by
  induction table with
  | nil => rfl
  | cons element table ih =>
    unfold scanIn scan
    rw [bind_eq (strncmp_eq element.cmd h element.cmd.length)]
    split
    · rfl
    · exact ih

/-- The colon cut: the argument is the string behind the colon, and the strings of the block still end within it. -/
theorem cutArgIn_eq {mem : List UInt8} {ptr : Nat} (h : Terminated mem ptr) :
    ∃ a, cutArgIn ptr mem = some (a, (cutArg mem ptr).1) ∧
      argIn a (cutArg mem ptr).1 = some ((cutArg mem ptr).2, (cutArg mem ptr).1) ∧
      (cutArg mem ptr).1.length = mem.length ∧ ∀ q, Terminated mem q → Terminated (cutArg mem ptr).1 q := by
  unfold cutArgIn cutArg
  rw [bind_eq (strchr_eq h (by decide))]
  cases hs : CString.strchr mem ptr colon with
  | none => exact ⟨none, rfl, rfl, rfl, fun _ hq => hq⟩
  | some a =>
    obtain ⟨-, ha, hbehind⟩ := h.strchr hs
    have hlt : a < mem.length := (List.getElem?_eq_some_iff.mp ha).1
    have hread : (mem.set a 0)[a + 1]? = some ((mem.set a 0).getD (a + 1) 0) := by
      rw [List.getD_eq_getElem?_getD, List.getElem?_eq_getElem (hbehind.set a).lt, Option.getD_some]
    dsimp only
    rw [bind_eq (write_eq hlt 0), bind_eq (read_eq hread)]
    refine ⟨_, rfl, ?_, List.length_set, fun q hq => hq.set a⟩
    split
    · rfl
    · exact bind_eq (string_eq (hbehind.set a)) _

theorem lookupIn_eq {mem : List UInt8} {cmd : Nat} (h : Terminated mem cmd) {a : Option Nat} {arg : Option (List UInt8)}
    (ha : argIn a mem = some (arg, mem)) (table : List (CmdFunc σ)) (fd : Int) (st : σ) :
    lookupIn table fd cmd a st mem =
      some (if CString.strlen mem cmd > 0 then
        ((scan fd (text (mem.drop cmd)) arg st table).1, (scan fd (text (mem.drop cmd)) arg st table).2,
          some (text (mem.drop cmd), arg))
        else (-1, st, none), mem) := by
  unfold lookupIn
  rw [bind_eq (strlen_eq h)]
  split
  · rw [bind_eq (string_eq h), bind_eq ha, bind_eq (scanIn_eq h fd arg st table)]
    rfl
  · rfl

/-- The command begins behind the leading spaces. -/
theorem skipSpace_offset (l : List UInt8) :
    (l.takeWhile isspace).length = (text l).length - (skipSpace (text l)).length := by
  have htake : (text l).takeWhile isspace = l.takeWhile isspace := by
    rw [text, List.takeWhile_takeWhile]
    refine congrArg (fun q => l.takeWhile q) (funext fun c => ?_)
    by_cases hc : c = 0
    · subst hc
      rfl
    · simp [hc]
  have hlen := congrArg List.length (List.takeWhile_append_dropWhile (p := isspace) (l := text l))
  rw [List.length_append, htake] at hlen
  unfold skipSpace
  omega

/-- On a string that ends within the block, every access is inside the block, and the call does what `processString` says. -/
theorem processStringIn_eq {mem : List UInt8} (h : (0 : UInt8) ∈ mem) (table : List (CmdFunc σ)) (fd : Int) (st : σ) :
    let p := processString table mem fd st
    processStringIn table fd st mem = some ((p.rv, p.st, p.lookup), p.string) := by
  intro p
  have h0 : Terminated mem 0 := h
  have hp : p = processString table mem fd st := rfl
  unfold processString at hp
  unfold processStringIn
  rw [bind_eq (strchr_eq h0 (by decide))]
  cases hs : CString.strchr mem 0 cr with
  | none =>
    rw [hs] at hp
    rw [hp]
    rfl
  | some e =>
    rw [hs] at hp
    obtain ⟨-, he, hstop⟩ := h0.strchr hs
    have hlt : e < mem.length := (List.getElem?_eq_some_iff.mp he).1
    dsimp only at hp ⊢
    generalize hmem : mem.set e 0 = mem₁ at hp ⊢
    have hlen : mem₁.length = mem.length := by rw [← hmem, List.length_set]
    have hread : mem₁[0]? = some (mem₁.getD 0 0) := by
      rw [List.getD_eq_getElem?_getD, List.getElem?_eq_getElem (by omega), Option.getD_some]
    rw [bind_eq (write_eq hlt 0), hmem, bind_eq (read_eq hread)]
    -- a line feed at the start is in front of the carriage return
    have hptr : (if mem₁.getD 0 0 = lf then 1 else 0) ≤ e := by
      split
      · next hlf =>
        by_contra hge
        obtain rfl : e = 0 := by omega
        rw [← hmem, List.getD_eq_getElem?_getD, List.getElem?_set_self hlt] at hlf
        exact absurd hlf (by decide)
      · exact Nat.zero_le e
    generalize (if mem₁.getD 0 0 = lf then 1 else 0) = ptr at hp hptr ⊢
    have hline : Terminated mem₁ ptr := hmem ▸ terminated_set hlt hptr
    obtain ⟨a, hcut, harg, hlen₂, hkeep⟩ := cutArgIn_eq hline
    have hcmd := hkeep _ (hline.skip (p := isspace) rfl)
    have hrest := hkeep _ (hmem ▸ hstop.set e)
    have hmove := hrest.strlen_lt
    rw [bind_eq (skip_eq rfl hline), bind_eq hcut, bind_eq (lookupIn_eq hcmd harg table fd st), bind_eq (strlen_eq hrest),
      bind_eq (memmove_eq (by omega) (by omega))]
    rw [← skipSpace_offset] at hp
    rw [hp]
    split <;> rfl

/-! ## The loop -/

/-- Step lemma: a call takes the first carriage return out of the text. -/
theorem processString_count (table : List (CmdFunc σ)) {mem : List UInt8} (hz : (0 : UInt8) ∈ mem) (hcr : cr ∈ text mem)
    (fd : Int) (st : σ) :
    (text (processString table mem fd st).string).count cr + 1 = (text mem).count cr ∧ 0 ∈ (processString table mem fd st).string := by
  obtain ⟨l, r, ht, hl⟩ := exists_first hcr
  obtain ⟨-, htext, -, hnul⟩ := processString_line table hz ht hl fd st
  have hres : (residue l).count cr = 0 := by
    rcases residue_cases l with h | h <;> rw [h] <;> rfl
  refine ⟨?_, hnul⟩
  rw [htext, ht, List.count_append, List.count_append, hres, List.count_eq_zero.mpr hl, List.count_cons_self, Nat.zero_add,
    Nat.zero_add]

theorem processString_nul (table : List (CmdFunc σ)) {mem : List UInt8} (hz : (0 : UInt8) ∈ mem) (fd : Int) (st : σ) :
    0 ∈ (processString table mem fd st).string := by
  by_cases hcr : cr ∈ text mem
  · exact (processString_count table hz hcr fd st).2
  · rw [processString_none table hcr fd st]
    exact hz

theorem lineLoop_neg (table : List (CmdFunc σ)) (fd : Int) (fuel : Nat) {rv : Int} (h : ¬rv ≥ 0) (st : σ) (mem : List UInt8) :
    lineLoop table fd fuel rv st mem = some ((0, st), mem) := by
  cases fuel <;> unfold lineLoop <;> rw [if_neg h] <;> rfl

/-- A call of the loop. -/
theorem lineLoop_succ (table : List (CmdFunc σ)) (fd : Int) (fuel : Nat) {rv : Int} (h : rv ≥ 0) (st : σ) {mem : List UInt8}
    (hz : (0 : UInt8) ∈ mem) :
    lineLoop table fd (fuel + 1) rv st mem =
      (lineLoop table fd fuel (processString table mem fd st).rv (processString table mem fd st).st
        (processString table mem fd st).string).map fun q => ((q.1.1 + 1, q.1.2), q.2) := by
  rw [lineLoop, if_pos h, bind_eq (processStringIn_eq hz table fd st)]
  exact (Option.map_eq_bind ..).symm

/-- Run lemma: with `k` carriage returns in the text there are at most `k + 1` calls. -/
theorem lineLoop_ends (table : List (CmdFunc σ)) (fd : Int) (k : Nat) : ∀ {mem : List UInt8}, (0 : UInt8) ∈ mem →
    (text mem).count cr = k → ∀ (rv : Int) (st : σ),
    ∃ n st' mem', n ≤ k + 1 ∧ ∀ fuel, k < fuel → lineLoop table fd fuel rv st mem = some ((n, st'), mem') := by
  induction k with
  | zero =>
    intro mem hz hk rv st
    by_cases hrv : rv ≥ 0
    · have hnone := processString_none table (List.count_eq_zero.mp hk) fd st
      refine ⟨1, st, mem, Nat.le_refl 1, fun fuel hf => ?_⟩
      obtain ⟨fuel, rfl⟩ := Nat.exists_eq_add_of_lt hf
      rw [Nat.zero_add, lineLoop_succ table fd fuel hrv st hz, hnone, lineLoop_neg table fd fuel (show ¬(-1 : Int) ≥ 0 by decide)]
      rfl
    · exact ⟨0, st, mem, Nat.zero_le _, fun fuel _ => lineLoop_neg table fd fuel hrv st mem⟩
  | succ k ih =>
    intro mem hz hk rv st
    by_cases hrv : rv ≥ 0
    · have hcr : cr ∈ text mem := List.count_pos_iff.mp (by omega)
      obtain ⟨hcount, hnul⟩ := processString_count table hz hcr fd st
      obtain ⟨n, st', mem', hn, hloop⟩ := ih hnul (by omega) (processString table mem fd st).rv (processString table mem fd st).st
      refine ⟨n + 1, st', mem', Nat.succ_le_succ hn, fun fuel hf => ?_⟩
      obtain ⟨fuel, rfl⟩ : ∃ m, fuel = m + 1 := ⟨fuel - 1, by omega⟩
      rw [lineLoop_succ table fd fuel hrv st hz, hloop fuel (by omega), Option.map_some]
    · exact ⟨0, st, mem, Nat.zero_le _, fun fuel _ => lineLoop_neg table fd fuel hrv st mem⟩

end CmdParse

/-- The loop of the daemon is the line loop on its buffer and its table. -/
theorem Daemon.drain_eq_lineLoop (fuel : Nat) : ∀ (rv : Int) {d : Daemon}, (0 : UInt8) ∈ d.readBuf →
    (d.drain fuel rv).map (fun d' => (d'.pmon, d'.readBuf)) =
      (CmdParse.lineLoop PMon.cmdTable d.serialFd fuel rv d.pmon d.readBuf).map fun q => (q.1.2, q.2) := by
  induction fuel with
  | zero =>
    intro rv d _
    unfold drain CmdParse.lineLoop
    split <;> rfl
  | succ fuel ih =>
    intro rv d hz
    by_cases hrv : rv ≥ 0
    · rw [drain, if_pos hrv, CmdParse.lineLoop_succ PMon.cmdTable d.serialFd fuel hrv d.pmon hz, Option.map_map]
      exact ih _ (CmdParse.processString_nul PMon.cmdTable hz d.serialFd d.pmon)
    · rw [drain, if_neg hrv, CmdParse.lineLoop_neg PMon.cmdTable d.serialFd _ hrv]
      rfl

/-- For every text with a NUL behind it and whatever the functions of the table return, the line loop ends after at most one call
more than there are carriage returns in the text. No call gets behind the NUL: what follows it is not read and stays. -/
theorem line_loop_ends {σ : Type} (table : List (CmdFunc σ)) (fd rv : Int) (st : σ) {t : List UInt8} (ht : (0 : UInt8) ∉ t) :
    ∃ n st' buf, n ≤ t.count cr + 1 ∧ buf.length = t.length + 1 ∧ ∀ fuel, t.count cr < fuel →
      CmdParse.lineLoop table fd fuel rv st (t ++ [0]) = some ((n, st'), buf) ∧
        ∀ m, CmdParse.lineLoop table fd fuel rv st (t ++ 0 :: m) = some ((n, st'), buf ++ m) := by
  have hz : (0 : UInt8) ∈ t ++ [0] := List.mem_append_right t List.mem_cons_self
  obtain ⟨n, st', buf, hn, hloop⟩ := CmdParse.lineLoop_ends table fd _ hz rfl rv st
  rw [text_append_nul ht []] at hn hloop
  have hlocal := fun fuel => CmdParse.lineLoop_local table fd fuel rv st
  refine ⟨n, st', buf, hn, ?_, fun fuel hf => ⟨hloop fuel hf, fun m => ?_⟩⟩
  · rw [(hlocal _).length (hloop _ (Nat.lt_succ_self _)), List.length_append, List.length_singleton]
  · rw [List.append_cons]
    exact (hlocal fuel).append (hloop fuel hf) m

/-- A blank line, two replies with the line feeds of those before, and the start of a third one. -/
theorem line_loop_ends_replies :
    let t := bytes "\r\nVoltage: Pri 5\r\nVoltage: Sec 7\r\nVer"
    let st : PMon := { shared := .zero, last := 0, trace := [] }
    ∃ n st' buf, n ≤ t.count cr + 1 ∧ buf.length = t.length + 1 ∧ ∀ fuel, t.count cr < fuel →
      CmdParse.lineLoop PMon.cmdTable 3 fuel 40 st (t ++ [0]) = some ((n, st'), buf) ∧
        ∀ m, CmdParse.lineLoop PMon.cmdTable 3 fuel 40 st (t ++ 0 :: m) = some ((n, st'), buf ++ m) :=
  line_loop_ends PMon.cmdTable 3 40 _ (by decide)

end PowerMonitor
