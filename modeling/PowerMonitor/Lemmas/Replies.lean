import PowerMonitor.Firmware.Main
import PowerMonitor.Lemmas.Daemon

/-!
# The voltage replies on the wire

The firmware prints a reply between a line feed and a carriage return with a line feed. The daemon cuts at the carriage returns,
so that each of its lines is a reply behind the line feeds around it, which are spaces to its parser (`replies_spec`). What
`Receive_Voltage` does is told by what its argument begins with (`receiveVoltage_named`, `receiveVoltage_unnamed`).
-/

namespace PowerMonitor

open CString CmdParse

/-- What `Run_Config` prints for a line that asks for a voltage. -/
def reply (r : Channel × Nat) : List UInt8 :=
  lf :: (bytes "Voltage: " ++ r.1.name ++ bytes " " ++ (decimal r.2 ++ bytes " mV\r\n"))

/-- The index of a channel in the shared memory. -/
def Channel.index : Channel → Fin 2
  | .pri => ⟨0, Nat.zero_lt_two⟩
  | .sec => ⟨1, Nat.one_lt_two⟩

/-- The voltages after one more reply. -/
def publish (voltage : Fin 2 → Int) (r : Channel × Nat) : Fin 2 → Int := Function.update voltage r.1.index r.2

/-- A reply without the bytes that end lines. -/
def replyLine (r : Channel × Nat) : List UInt8 := bytes "Voltage: " ++ r.1.name ++ bytes " " ++ (decimal r.2 ++ bytes " mV")

theorem reply_eq (r : Channel × Nat) : reply r = lf :: (replyLine r ++ cr :: [lf]) := by
  simp [reply, replyLine, List.append_assoc, show bytes " mV\r\n" = bytes " mV" ++ cr :: [lf] by decide]

/-! ## Numbers -/

theorem not_digit_not_mem {c : UInt8} (hc : isdigit c = false) (n : Nat) : c ∉ decimal n := by
  intro h
  rw [decimal_digits n c h] at hc
  cases hc

/-- `atoi` reads a numeral as it stands if and only if an `int` can hold it. -/
theorem atoi_numeral_iff {t : List UInt8} {n : Int} (h : Numeral t n) {r : List UInt8}
    (hr : ∀ c, r.head? = some c → isdigit c = false) : PMon.atoi (t ++ r) = n ↔ -2 ^ 31 ≤ n ∧ n < 2 ^ 31 := by
  rw [PMon.atoi, strtol_numeral h hr]
  constructor
  · intro he
    have hlow := Int.le_bmod (x := max (-2 ^ (64 - 1)) (min n (2 ^ (64 - 1) - 1))) (m := 2 ^ 32) (by decide)
    have hhigh := Int.bmod_lt (x := max (-2 ^ (64 - 1)) (min n (2 ^ (64 - 1) - 1))) (m := 2 ^ 32) (by decide)
    omega
  · rintro ⟨hlow, hhigh⟩
    rw [show max (-2 ^ (64 - 1)) (min n (2 ^ (64 - 1) - 1)) = n by omega]
    exact Int.bmod_eq_of_le (by omega) (by omega)

/-- The cast leaves what an `int` can hold. -/
theorem int_eq {v : Int} (hlo : -2 ^ 31 ≤ v) (hhi : v < 2 ^ 31) : PMon.int v = v :=
  Int.bmod_eq_of_le (by omega) (by omega)

/-! ## Receive_Voltage -/

/-- The test for a channel's name in `Receive_Voltage`. -/
theorem strncmp_name_iff (ch : Channel) (t : List UInt8) : strncmp t ch.name 3 = 0 ↔ ch.name <+: t := by
  have hnul : (0 : UInt8) ∉ ch.name := by cases ch <;> decide
  have hlen : ch.name.length = 3 := by cases ch <;> rfl
  rw [strncmp_comm, neg_eq_zero, ← strncmp_eq_zero_iff hnul t, hlen]

/-- The number `Receive_Voltage` makes of its argument. -/
def numberOf (a : List UInt8) : Int := PMon.atoi (skipSpace (skipChars (skipSpace a)))

/-- An argument that begins with a channel's name changes the voltage of that channel. -/
theorem receiveVoltage_named {a : List UInt8} {ch : Channel} (h : ch.name <+: skipSpace a) (fd : Int) (s : PMon) :
    (PMon.receiveVoltage fd (some a) s).2.shared =
      { s.shared with voltage := Function.update s.shared.voltage ch.index (numberOf a) } := by
  have hiff := fun ch => strncmp_name_iff ch (skipSpace a)
  unfold PMon.receiveVoltage
  cases ch with
  | pri =>
    have hpri : strncmp (skipSpace a) (bytes "Pri") 3 = 0 := (hiff .pri).mpr h
    simp only [hpri, if_true]
    rfl
  | sec =>
    have hpri : strncmp (skipSpace a) (bytes "Pri") 3 ≠ 0 :=
      mt (hiff .pri).mp fun h' => absurd (List.prefix_of_prefix_length_le h' h (by decide)) (by decide)
    have hsec : strncmp (skipSpace a) (bytes "Sec") 3 = 0 := (hiff .sec).mpr h
    simp only [hpri, hsec, if_true, if_false]
    rfl

/-- Any other argument changes nothing. -/
theorem receiveVoltage_unnamed {arg : Option (List UInt8)} (h : ∀ (ch : Channel) a, arg = some a → ¬ch.name <+: skipSpace a)
    (fd : Int) (s : PMon) : (PMon.receiveVoltage fd arg s).2.shared = s.shared := by
  cases arg with
  | none => rfl
  | some a =>
    have hpri : strncmp (skipSpace a) (bytes "Pri") 3 ≠ 0 := mt (strncmp_name_iff .pri _).mp (h .pri a rfl)
    have hsec : strncmp (skipSpace a) (bytes "Sec") 3 ≠ 0 := mt (strncmp_name_iff .sec _).mp (h .sec a rfl)
    unfold PMon.receiveVoltage
    simp only [hpri, hsec, if_false]

/-- The search of the daemon's table. -/
theorem scan_cmdTable (fd : Int) (cmd : List UInt8) (arg : Option (List UInt8)) (s : PMon) :
    scan fd cmd arg s PMon.cmdTable =
      if bytes "Voltage" <+: cmd then PMon.receiveVoltage fd arg s
      else if bytes "current" <+: cmd then PMon.receiveCurrent fd arg s else (-1, s) := by
  have hv := strncmp_eq_zero_iff (e := bytes "Voltage") (by decide) cmd
  have hc := strncmp_eq_zero_iff (e := bytes "current") (by decide) cmd
  simp only [PMon.cmdTable, scan, hv, hc]

/-- `Receive_Current` leaves the voltages. -/
theorem receiveCurrent_voltage (fd : Int) (arg : Option (List UInt8)) (s : PMon) :
    (PMon.receiveCurrent fd arg s).2.shared.voltage = s.shared.voltage := by
  cases arg <;> rfl

/-- A line that begins like a reply is published, with what `atoi` makes of the text behind the name. -/
theorem processLine_beginsLike {ch : Channel} {l a : List UInt8} (hn : bytes "Voltage" <+: nameOf l) (ha : argOf l = some a)
    (hch : ch.name <+: skipSpace a) (fd : Int) (s : PMon) :
    (processLine PMon.cmdTable fd l s).2.1.shared =
      { s.shared with voltage := Function.update s.shared.voltage ch.index (numberOf a) } := by
  have hne : ¬nameOf l = [] := fun h => absurd (List.prefix_nil.mp (h ▸ hn)) (by decide)
  rw [processLine, if_neg hne, scan_cmdTable, if_pos hn, ha]
  exact receiveVoltage_named hch fd s

/-! ## Lines -/

theorem nameOf_replyLine (r : Channel × Nat) : nameOf (replyLine r) = bytes "Voltage" := by
  obtain ⟨ch, n⟩ := r
  cases ch <;> rfl

theorem argOf_replyLine (r : Channel × Nat) :
    argOf (replyLine r) = some (bytes " " ++ r.1.name ++ bytes " " ++ (decimal r.2 ++ bytes " mV")) := by
  obtain ⟨ch, n⟩ := r
  cases ch <;> rfl

/-- The number of a reply, if an `int` can hold it. -/
theorem numberOf_reply (ch : Channel) {n : Nat} (hn : n < 2 ^ 31) :
    numberOf (bytes " " ++ ch.name ++ bytes " " ++ (decimal n ++ bytes " mV")) = n := by
  have hskip : skipSpace (skipChars (skipSpace (bytes " " ++ ch.name ++ bytes " " ++ (decimal n ++ bytes " mV")))) =
      skipSpace (decimal n ++ bytes " mV") := by cases ch <;> rfl
  have hunit : ∀ c, (bytes " mV").head? = some c → isdigit c = false := by
    intro c hc
    rw [← Option.some.inj hc]
    rfl
  rw [numberOf, hskip, skipSpace, (numeral_decimal n).dropWhile_isspace]
  exact (atoi_numeral_iff (numeral_decimal n) hunit).mpr ⟨by omega, by omega⟩

/-- A line that is a reply behind spaces: it is in the table, and its number is published. -/
theorem handleLine_reply (fd : Int) (s : PMon) {p : List UInt8} (hp : Blank p) (r : Channel × Nat) (hr : r.2 < 2 ^ 31) :
    (Daemon.handleLine fd s (p ++ replyLine r)).shared.voltage = publish s.shared.voltage r ∧
      Daemon.Known (p ++ replyLine r) := by
  have hn : nameOf (p ++ replyLine r) = bytes "Voltage" := by
    rw [nameOf, skipSpace_append hp, ← nameOf_replyLine r, nameOf]
  refine ⟨?_, { cmd := bytes "Voltage", func := PMon.receiveVoltage }, List.mem_cons_self, by rw [hn]⟩
  have hname : r.1.name <+: skipSpace (bytes " " ++ r.1.name ++ bytes " " ++ (decimal r.2 ++ bytes " mV")) := by
    obtain ⟨ch, n⟩ := r
    cases ch <;> exact List.prefix_append _ _
  have hpub := processLine_beginsLike (nameOf_replyLine r ▸ List.prefix_refl _) (argOf_replyLine r) hname fd s
  rw [Daemon.handleLine, processLine_append hp, hpub, numberOf_reply r.1 hr, publish]

/-! ## Streams -/

theorem cr_not_mem_replyLine (r : Channel × Nat) : cr ∉ replyLine r := by
  have hd : cr ∉ decimal r.2 := not_digit_not_mem (by decide) _
  obtain ⟨ch, n⟩ := r
  cases ch <;> simp [replyLine, Channel.name, hd] <;> decide

/-- No byte of a reply is NUL. -/
theorem nul_not_mem_reply (r : Channel × Nat) : (0 : UInt8) ∉ reply r := by
  have hd : (0 : UInt8) ∉ decimal r.2 := not_digit_not_mem (by decide) _
  obtain ⟨ch, n⟩ := r
  cases ch <;> simp [reply, Channel.name, hd] <;> decide

/-- The lines of a stream of replies are in the table, and the numbers are published in their order. -/
theorem replies_spec (fd : Int) (rs : List (Channel × Nat)) (hrs : ∀ r ∈ rs, r.2 < 2 ^ 31) : ∀ (p : List UInt8) (s : PMon),
    Blank p → cr ∉ p →
      ((Daemon.lines (p ++ rs.flatMap reply)).foldl (Daemon.handleLine fd) s).shared.voltage = rs.foldl publish s.shared.voltage ∧
      ∀ l ∈ Daemon.lines (p ++ rs.flatMap reply), Daemon.Known l := by
  induction rs with
  | nil =>
    intro p s _ hcr
    rw [List.flatMap_nil, List.append_nil, Daemon.lines, Lines.pieces_free ((Daemon.free_iff p).mpr hcr)]
    exact ⟨rfl, by simp⟩
  | cons r rs ih =>
    intro p s hp hcr
    have hlf : Blank (p ++ [lf]) := fun c hc => (List.mem_append.mp hc).elim (hp c) (blank_lf c)
    have hcr' : cr ∉ p ++ [lf] ++ replyLine r := by
      simp only [List.mem_append, not_or]
      exact ⟨⟨hcr, by decide⟩, cr_not_mem_replyLine r⟩
    have hstream : p ++ (r :: rs).flatMap reply = (p ++ [lf] ++ replyLine r) ++ cr :: ([lf] ++ rs.flatMap reply) := by
      simp [reply_eq, List.append_assoc]
    have hlines : Daemon.lines (p ++ (r :: rs).flatMap reply) =
        (p ++ [lf] ++ replyLine r) :: Daemon.lines ([lf] ++ rs.flatMap reply) := by
      rw [hstream]
      exact Lines.pieces_stop ((Daemon.free_iff _).mpr hcr') rfl _
    obtain ⟨hv, hk⟩ := handleLine_reply fd s hlf r (hrs r List.mem_cons_self)
    obtain ⟨hvs, hks⟩ := ih (fun x hx => hrs x (List.mem_cons_of_mem r hx)) [lf]
      (Daemon.handleLine fd s (p ++ [lf] ++ replyLine r)) blank_lf (by decide)
    rw [hlines]
    refine ⟨?_, List.forall_mem_cons.mpr ⟨hk, hks⟩⟩
    rw [List.foldl_cons, List.foldl_cons, hvs, hv]

end PowerMonitor
