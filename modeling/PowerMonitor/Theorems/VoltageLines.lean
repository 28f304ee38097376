import PowerMonitor.Lemmas.Replies

/-!
# The lines a voltage is published from

`Receive_Voltage` looks at the first bytes of the command and of the channel's name, and takes what `atoi` makes of the text
behind the name's word. A well-formed reply with a number that an `int` can hold is published as it stands. A line that is not
well-formed must not be taken at all, but it is when it begins like a reply: `atoi` makes a number of anything.
-/

namespace PowerMonitor

open CString CmdParse

/-- A reply: behind leading spaces the label, spaces, the channel, spaces and a decimal integer, up to its last digit. -/
inductive WellFormed (ch : Channel) (n : Int) : List UInt8 → Prop where
  | reply {lead gap sep num rest : List UInt8} (hlead : Blank lead) (hgap : Blank gap) (hgap₀ : gap ≠ []) (hsep : Blank sep)
    (hsep₀ : sep ≠ []) (hnum : Numeral num n) (hrest : ∀ c, rest.head? = some c → isdigit c = false) :
    WellFormed ch n (lead ++ bytes "Voltage:" ++ gap ++ ch.name ++ sep ++ num ++ rest)

/-- The line begins like a reply for the channel: the command with the label, the argument with the channel's name. -/
def BeginsLike (ch : Channel) (l : List UInt8) : Prop :=
  bytes "Voltage" <+: nameOf l ∧ ∃ a, argOf l = some a ∧ ch.name <+: skipSpace a

/-- The values a line leaves in the shared memory: a well-formed reply changes one voltage, to its number, and nothing else, and
no other line changes a voltage. -/
structure Publishes (l : List UInt8) (before after : Shared) : Prop where
  reply : ∀ ch n, WellFormed ch n l → after = { before with voltage := Function.update before.voltage ch.index n }
  other : (¬∃ ch n, WellFormed ch n l) → after.voltage = before.voltage

/-! ## Lines -/

/-- A line that does not begin like a reply leaves the voltages. -/
theorem processLine_other {l : List UInt8} (h : ∀ ch, ¬BeginsLike ch l) (fd : Int) (s : PMon) :
    (processLine PMon.cmdTable fd l s).2.1.shared.voltage = s.shared.voltage := by
  rw [processLine]
  split
  · rfl
  · rw [scan_cmdTable]
    by_cases hn : bytes "Voltage" <+: nameOf l
    · rw [if_pos hn]
      exact congrArg Shared.voltage (receiveVoltage_unnamed (fun ch a ha hch => h ch ⟨hn, a, ha, hch⟩) fd s)
    · rw [if_neg hn]
      dsimp only
      split
      · exact receiveCurrent_voltage fd _ s
      · rfl

/-! ## Well-formed replies -/

/-- The command and the argument of a line that has the label in front. -/
theorem label_spec {lead : List UInt8} (hlead : Blank lead) (c : UInt8) (l : List UInt8) :
    nameOf (lead ++ (bytes "Voltage:" ++ c :: l)) = bytes "Voltage" ∧
      argOf (lead ++ (bytes "Voltage:" ++ c :: l)) = some (c :: l) := by
  rw [nameOf_append hlead, argOf_append hlead]
  exact ⟨rfl, rfl⟩

/-- Behind the channel's name and the spaces `Receive_Voltage` finds the number. -/
theorem skip_name {sep : List UInt8} (hsep : Blank sep) (hsep₀ : sep ≠ []) (ch : Channel) (l : List UInt8) :
    skipSpace (skipChars (ch.name ++ (sep ++ l))) = skipSpace l := by
  obtain ⟨c, s, rfl⟩ := List.exists_cons_of_ne_nil hsep₀
  have hall : ch.name.all (fun a => !isspace a) = true := by cases ch <;> rfl
  have hc : (!isspace c) = false := by rw [hsep c List.mem_cons_self]; rfl
  rw [skipChars, List.cons_append, dropWhile_append_stop (List.all_eq_true.mp hall) hc, ← List.cons_append, skipSpace_append hsep]

/-- A well-formed reply begins like one, and its number is read as it stands if and only if an `int` can hold it. -/
theorem WellFormed.spec {ch : Channel} {n : Int} {l : List UInt8} (h : WellFormed ch n l) :
    ∃ a, bytes "Voltage" <+: nameOf l ∧ argOf l = some a ∧ ch.name <+: skipSpace a ∧
      (∃ t r, skipSpace (skipChars (skipSpace a)) = t ++ r ∧ Numeral t n) ∧
      (numberOf a = n ↔ -2 ^ 31 ≤ n ∧ n < 2 ^ 31) := by
  cases h with
  | @reply lead gap sep num rest hlead hgap hgap₀ hsep hsep₀ hnum hrest =>
    obtain ⟨c, g, rfl⟩ := List.exists_cons_of_ne_nil hgap₀
    obtain ⟨hn, ha⟩ := label_spec hlead c (g ++ (ch.name ++ (sep ++ (num ++ rest))))
    have hskip : skipSpace (c :: g ++ (ch.name ++ (sep ++ (num ++ rest)))) = ch.name ++ (sep ++ (num ++ rest)) := by
      rw [skipSpace_append hgap]
      cases ch <;> rfl
    have hnumber : skipSpace (skipChars (ch.name ++ (sep ++ (num ++ rest)))) = num ++ rest := by
      rw [skip_name hsep hsep₀]
      exact hnum.dropWhile_isspace rest
    simp only [List.append_assoc]
    refine ⟨_, hn ▸ List.prefix_refl _, ha, ?_, ?_, ?_⟩
    · rw [← List.cons_append, hskip]
      exact List.prefix_append _ _
    · rw [← List.cons_append, hskip]
      exact ⟨num, rest, hnumber, hnum⟩
    · rw [numberOf, ← List.cons_append, hskip, hnumber]
      exact atoi_numeral_iff hnum hrest

/-- Two values put into one entry. -/
theorem update_voltage_inj {s : Shared} {ch : Channel} {m n : Int}
    (h : ({ s with voltage := Function.update s.voltage ch.index m } : Shared) =
      { s with voltage := Function.update s.voltage ch.index n }) : m = n := by
  have hat := congrFun (congrArg Shared.voltage h) ch.index
  simpa using hat

/-- Voltages are published from well-formed replies only, each as it stands, if and only if an `int` can hold the number of a
well-formed reply and no other line begins like one. -/
theorem voltage_lines_iff {mem l r : List UInt8} (hz : (0 : UInt8) ∈ mem) (ht : text mem = l ++ cr :: r) (hl : cr ∉ l)
    (fd : Int) :
    (∀ st : PMon, Publishes l st.shared (processString PMon.cmdTable mem fd st).st.shared) ↔
      (∀ ch n, WellFormed ch n l → -2 ^ 31 ≤ n ∧ n < 2 ^ 31) ∧
        ((¬∃ ch n, WellFormed ch n l) → ∀ ch, ¬BeginsLike ch l) := by
  have hst : ∀ st : PMon, (processString PMon.cmdTable mem fd st).st = (processLine PMon.cmdTable fd l st).2.1 := fun st =>
    congrArg (fun r => r.2.1) (processString_line PMon.cmdTable hz ht hl fd st).1
  constructor
  · intro h
    refine ⟨fun ch n hw => ?_, fun hno ch ⟨hn, a, ha, hch⟩ => ?_⟩
    · obtain ⟨a, hn, ha, hch, -, hiff⟩ := hw.spec
      have hpub := (h { shared := .zero, last := 0, trace := [] }).reply ch n hw
      rw [hst, processLine_beginsLike hn ha hch] at hpub
      exact hiff.mp (update_voltage_inj hpub)
    · -- an entry with another value is changed
      let st : PMon := { shared := { Shared.zero with voltage := fun _ => numberOf a + 1 }, last := 0, trace := [] }
      have hpub := (h st).other hno
      rw [hst, processLine_beginsLike hn ha hch] at hpub
      have hat : numberOf a = numberOf a + 1 := by simpa [st] using congrFun hpub ch.index
      omega
  · rintro ⟨hfit, hother⟩ st
    rw [hst]
    refine ⟨fun ch n hw => ?_, fun hno => processLine_other (hother hno) fd st⟩
    obtain ⟨a, hn, ha, hch, -, hiff⟩ := hw.spec
    rw [processLine_beginsLike hn ha hch, hiff.mpr (hfit ch n hw)]

/-- The reply of 12000 mV. -/
theorem voltage_lines_iff_reply :
    let mem := bytes "\nVoltage: Pri 12000 mV\r\n\x00"
    let l := bytes "\nVoltage: Pri 12000 mV"
    (∀ st : PMon, Publishes l st.shared (processString PMon.cmdTable mem 3 st).st.shared) ↔
      (∀ ch n, WellFormed ch n l → -2 ^ 31 ≤ n ∧ n < 2 ^ 31) ∧ ((¬∃ ch n, WellFormed ch n l) → ∀ ch, ¬BeginsLike ch l) :=
  voltage_lines_iff (r := [lf]) (by decide) (by decide) (by decide) 3

/-- A reply that is cut off behind the channel is published as 0. -/
theorem truncated_reply_published :
    let mem := bytes "Voltage: Pri\r\n\x00"
    let l := bytes "Voltage: Pri"
    text mem = l ++ cr :: [lf] ∧
      ¬∀ st : PMon, Publishes l st.shared (processString PMon.cmdTable mem 3 st).st.shared := by
  intro mem l
  refine ⟨by decide, fun h => ?_⟩
  have hno : ¬∃ ch n, WellFormed ch n l := by
    rintro ⟨ch, n, hw⟩
    obtain ⟨a, -, ha, -, ⟨t, r, he, hnum⟩, -⟩ := hw.spec
    have hempty : skipSpace (skipChars (skipSpace a)) = [] := by
      obtain rfl : bytes " Pri" = a := Option.some.inj ha
      decide
    obtain ⟨c, t', rfl, -⟩ := hnum.exists_cons
    cases hempty.symm.trans he
  have hpub := (h { shared := { Shared.zero with voltage := fun _ => 12000 }, last := 0, trace := [] }).other hno
  exact absurd (congrFun hpub 0) (by decide)

end PowerMonitor
