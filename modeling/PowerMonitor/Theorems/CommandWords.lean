import PowerMonitor.Lemmas.Commands

/-!
# Commands and the words of a line

`CP_Lookup` compares as many bytes as the name of an entry has, and skips the whole first word of the line for the argument. It
calls the entry that the word names, if any, unless the line begins with the name of an earlier entry that is not the word, or
with a name when no entry is the word.
-/

namespace PowerMonitor

open CString

namespace CmdProcessor

variable {ε σ : Type*}

/-- The leading run of bytes that are not blank. -/
def word (line : List UInt8) : List UInt8 := line.takeWhile fun c => !isspace c

/-- A lookup by the full word: the entry whose name is the word gets the text right behind it. -/
def byFullWord (line : List UInt8) (tbl : List (CmdTable ε σ)) (s : σ) : Except ε (Int × CmdResponse × σ) :=
  match tbl.find? fun entry => entry.cmd = word line with
  | some entry => entry.vector (line.drop (word line).length) { buffer := [] } s
  | none => .ok (-1, { buffer := [] }, s)

/-- Commands with these names are recognised in the line by their full word, whatever their handlers. -/
def FullWord (line : List UInt8) (names : List (List UInt8)) : Prop :=
  ∀ (ε σ : Type) (tbl : List (CmdTable ε σ)), tbl.map CmdTable.cmd = names →
    ∀ resp s, lookup line tbl resp s = byFullWord line tbl s

/-- A name that the line begins with is the word of the line or stands behind it. -/
def WordFirst (line : List UInt8) (names : List (List UInt8)) : Prop :=
  ∀ pre e, pre ++ [e] <+: names → e <+: line → word line ∈ pre ++ [e]

theorem word_prefix (line : List UInt8) : word line <+: line := List.takeWhile_prefix _

theorem drop_word (line : List UInt8) : line.drop (word line).length = skipChars line := by
  have hline : word line ++ skipChars line = line := List.takeWhile_append_dropWhile
  conv_lhs => arg 2; rw [← hline]
  exact List.drop_left

theorem WordFirst.head {line e : List UInt8} {names : List (List UInt8)} (h : WordFirst line (e :: names)) (he : e <+: line) :
    e = word line := by
  have hmem := h [] e (by simp) he
  exact (List.mem_singleton.mp hmem).symm

theorem WordFirst.tail {line e : List UInt8} {names : List (List UInt8)} (h : WordFirst line (e :: names))
    (he : e ≠ word line) : WordFirst line names := by
  intro pre x hpre hx
  have hmem := h (e :: pre) x ((List.prefix_cons_inj e).mpr hpre) hx
  exact (List.mem_cons.mp hmem).resolve_left he.symm

/-- Both searches find the same entry. -/
theorem WordFirst.find?_eq {line : List UInt8} {tbl : List (CmdTable ε σ)} (h : WordFirst line (tbl.map CmdTable.cmd)) :
    (tbl.find? fun entry => entry.cmd <+: line) = tbl.find? fun entry => entry.cmd = word line := by
  induction tbl with
  | nil => rfl
  | cons entry tbl ih =>
    by_cases hw : entry.cmd = word line
    · have hp : entry.cmd <+: line := hw ▸ word_prefix line
      rw [List.find?_cons_of_pos (by simpa using hp), List.find?_cons_of_pos (by simpa using hw)]
    · have hp : ¬entry.cmd <+: line := fun hp => hw (h.head hp)
      rw [List.find?_cons_of_neg (by simpa using hp), List.find?_cons_of_neg (by simpa using hw), ih (h.tail hw)]

/-- When both searches of the names agree, an entry that the line begins with does not stand before the word. -/
theorem wordFirst_of_find?_eq {line : List UInt8} {names : List (List UInt8)}
    (h : (names.find? fun e => e <+: line) = names.find? fun e => e = word line) : WordFirst line names := by
  rintro pre e ⟨post, rfl⟩ he
  obtain ⟨x, hx⟩ : ∃ x, (pre ++ [e]).find? (fun e => e <+: line) = some x := by
    rw [← Option.isSome_iff_exists, List.find?_isSome]
    exact ⟨e, by simp, by simpa using he⟩
  have hfull : ((pre ++ [e]) ++ post).find? (fun e => e = word line) = some x := by
    rw [← h, List.find?_append, hx, Option.some_or]
  have hword : x = word line := by simpa using List.find?_some hfull
  exact hword ▸ List.mem_of_find?_eq_some hx

/-- The table whose handlers record the name they were called by. -/
def recorders (names : List (List UInt8)) : List (CmdTable Unit (Option (List UInt8))) :=
  names.map fun e => { cmd := e, vector := fun _ resp _ => .ok (0, resp, some e) }

/-- What a search of the recording table finds. -/
theorem find?_recorders (p : List UInt8 → Bool) (names : List (List UInt8)) :
    (recorders names).find? (fun entry => p entry.cmd) =
      (names.find? p).map fun e => { cmd := e, vector := fun _ resp _ => .ok (0, resp, some e) } :=
  List.find?_map

end CmdProcessor

open CmdProcessor

/-- Commands are recognised by their full word in a line if and only if no name that the line begins with stands before the
line's first word, or without it, in the table. -/
theorem full_word_iff {names : List (List UInt8)} (h : ∀ e ∈ names, (0 : UInt8) ∉ e) (line : List UInt8) :
    FullWord line names ↔ WordFirst line names := by
  constructor
  · intro hfull
    have hcmd : (recorders names).map CmdTable.cmd = names := by
      rw [recorders, List.map_map]
      exact List.map_id names
    have hnul : ∀ entry ∈ recorders names, (0 : UInt8) ∉ entry.cmd :=
      fun entry he => h _ (hcmd ▸ List.mem_map_of_mem he)
    have heq := hfull Unit (Option (List UInt8)) (recorders names) hcmd { buffer := [] } none
    rw [lookup, scan_eq_find? hnul, byFullWord, find?_recorders (fun e => e <+: line),
      find?_recorders (fun e => e = word line)] at heq
    refine wordFirst_of_find?_eq ?_
    -- the state after the call tells which handler was called
    cases hp : names.find? fun e => decide (e <+: line) with
    | none =>
      cases hw : names.find? fun e => decide (e = word line) with
      | none => rfl
      | some e' =>
        rw [hp, hw] at heq
        cases heq
    | some e =>
      cases hw : names.find? fun e => decide (e = word line) with
      | none =>
        rw [hp, hw] at heq
        cases heq
      | some e' =>
        rw [hp, hw] at heq
        exact congrArg (fun r => r.2.2) (Except.ok.inj heq)
  · rintro hfirst ε σ tbl rfl resp s
    have hnul : ∀ entry ∈ tbl, (0 : UInt8) ∉ entry.cmd := fun entry he => h _ (List.mem_map_of_mem he)
    have hscan := scan_eq_find? hnul line { buffer := [] } s
    rw [hfirst.find?_eq] at hscan
    rw [byFullWord, drop_word]
    exact hscan

/-- The firmware's commands and a line that names one of them. -/
theorem full_word_iff_volt :
    let names := (Firmware.systemCommands { date := [], time := [], order4 := .leftFirst, order2 := .leftFirst }).map CmdTable.cmd
    FullWord (bytes "volt pri") names ↔ WordFirst (bytes "volt pri") names :=
  full_word_iff (by decide) (bytes "volt pri")

/-- A word that goes on behind the name of a command is taken for it, and the device restarts. -/
theorem restarting_restarts :
    let b : Build := { date := [], time := [], order4 := .leftFirst, order2 := .leftFirst }
    ¬FullWord (bytes "restarting") ((Firmware.systemCommands b).map CmdTable.cmd) ∧
      ∀ resp fw, lookup (bytes "restarting") (Firmware.systemCommands b) resp fw =
        .error (.restart (fw.putString (bytes "System Restarting\r\n"))) := by
  intro b
  refine ⟨fun h => ?_, fun resp fw => rfl⟩
  have heq := h Unit (Option (List UInt8)) (recorders ((Firmware.systemCommands b).map CmdTable.cmd)) rfl { buffer := [] } none
  exact absurd heq (by decide)

end PowerMonitor
