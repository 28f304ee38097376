import PowerMonitor.Daemon.Cmds
import PowerMonitor.Lemmas.CmdParse

/-!
# One line for one call

`CmdParse_ProcessString` takes the text up to the first carriage return out of the buffer, and moves the rest down to where the
line begins for it: behind a line feed, when the buffer begins with one. What stays is the text behind the line if and only if
there was no line feed to skip.
-/

namespace PowerMonitor

open CString

namespace CmdParse

variable {σ : Type*}

/-- The text behind the first carriage return. -/
def behindLine (t : List UInt8) : List UInt8 := (t.dropWhile (· ≠ cr)).tail

/-- A call takes exactly one line out of the buffer, and without a carriage return changes nothing. -/
structure ConsumesLine (table : List (CmdFunc σ)) (mem : List UInt8) (fd : Int) (st : σ) : Prop where
  line : cr ∈ text mem →
    0 ∈ (processString table mem fd st).string ∧ text (processString table mem fd st).string = behindLine (text mem)
  no_line : cr ∉ text mem → (processString table mem fd st).rv = -1 ∧ (processString table mem fd st).string = mem

theorem behindLine_append {l : List UInt8} (hl : cr ∉ l) (r : List UInt8) : behindLine (l ++ cr :: r) = r := by
  have hne : ∀ a ∈ l, decide (a ≠ cr) = true := by
    intro a ha
    rw [decide_eq_true_eq]
    rintro rfl
    exact hl ha
  rw [behindLine, dropWhile_append_stop hne (by simp), List.tail_cons]

/-- A line feed stays if and only if the text begins with one. -/
theorem residue_eq_nil_iff (l r : List UInt8) : residue l = [] ↔ (l ++ cr :: r).head? ≠ some lf := by
  cases l with
  | nil => simp [residue, cr, lf]
  | cons c l => by_cases hc : c = lf <;> simp [residue, hc]

end CmdParse

/-- A call consumes exactly one line unless there is a line and the text begins with a line feed. -/
theorem processString_consumes_iff {σ : Type*} (table : List (CmdFunc σ)) {mem : List UInt8} (hz : (0 : UInt8) ∈ mem) (fd : Int)
    (st : σ) : CmdParse.ConsumesLine table mem fd st ↔ (cr ∈ text mem → (text mem).head? ≠ some lf) := by
  by_cases hcr : cr ∈ text mem
  · obtain ⟨l, r, ht, hl⟩ := CmdParse.exists_first hcr
    obtain ⟨-, htext, -, hnul⟩ := CmdParse.processString_line table hz ht hl fd st
    have hbehind : CmdParse.behindLine (text mem) = r := by rw [ht, CmdParse.behindLine_append hl]
    have hres := CmdParse.residue_eq_nil_iff l r
    rw [← ht] at hres
    constructor
    · intro h _
      have he := (h.line hcr).2
      rw [htext, hbehind] at he
      exact hres.mp (List.append_left_eq_self.mp he)
    · intro h
      refine ⟨fun _ => ⟨hnul, ?_⟩, fun hno => absurd hcr hno⟩
      rw [htext, hbehind, hres.mpr (h hcr), List.nil_append]
  · have hnone := CmdParse.processString_none table hcr fd st
    exact iff_of_true ⟨fun h => absurd h hcr, fun _ => by rw [hnone]; exact ⟨rfl, rfl⟩⟩ fun h => absurd h hcr

/-- The daemon's buffer with one line and the start of the next. -/
theorem processString_consumes_iff_buffer :
    let mem := bytes "ver\rab\x00"
    let st : PMon := { shared := .zero, last := 0, trace := [] }
    CmdParse.ConsumesLine PMon.cmdTable mem 3 st ↔ (cr ∈ text mem → (text mem).head? ≠ some lf) :=
  processString_consumes_iff PMon.cmdTable (by decide) 3 _

/-- The line feed that ends the reply before stays in front of the text behind the line. -/
theorem processString_keeps_line_feed :
    ¬CmdParse.ConsumesLine PMon.cmdTable (bytes "\nver\rab\x00") 3 { shared := .zero, last := 0, trace := [] } := by
  intro h
  exact absurd (h.line (by decide)).2 (by decide)

end PowerMonitor
