import PowerMonitor.Theorems.DaemonSession
import PowerMonitor.Theorems.ServerRefinement
import PowerMonitor.Theorems.SharedSegment

/-!
# From the converters to the shared memory

The firmware's end of the wire is the server, and the daemon's end is the publisher. A line on the wire reports a reading only if the
server has reported it, and so does every part of a line that the daemon may take for one (`Sound`). Whatever contiguous part of what
the firmware has sent the daemon reads, it publishes readings of the server, in their order.

The USART is ready whenever it reports, since a byte that the transmit ring refuses leaves a line with a gap. The server writes a
32-bit number, of which the daemon has what an `int` keeps: a reading below 2^31 as it is.
-/

namespace PowerMonitor

open CString CmdParse Outcome

/-! ## Lines that report nothing -/

/-- Neither name of the daemon's table is anywhere in the line. -/
def Mute (l : List UInt8) : Prop := ¬ bytes "Voltage" <:+: l ∧ ¬ bytes "current" <:+: l

instance (l : List UInt8) : Decidable (Mute l) := inferInstanceAs (Decidable (_ ∧ _))

/-- A part at the end of the line reports what the line reports, or nothing. -/
def Sound (l : List UInt8) : Prop := ∀ t, t <:+ l → Reading.ofLine t = none ∨ Reading.ofLine t = Reading.ofLine l

theorem Mute.of_suffix {l t : List UInt8} (h : Mute l) (ht : t <:+ l) : Mute t :=
  ⟨fun hv => h.1 (hv.trans ht.isInfix), fun hc => h.2 (hc.trans ht.isInfix)⟩

theorem Mute.ofLine {l : List UInt8} (h : Mute l) : Reading.ofLine l = none := by
  have hname : nameOf l <:+: l := (List.takeWhile_prefix _).isInfix.trans (List.dropWhile_suffix _).isInfix
  rw [Reading.ofLine, if_neg fun hv => h.1 (hv.isInfix.trans hname), if_neg fun hc => h.2 (hc.isInfix.trans hname)]

theorem Mute.sound {l : List UInt8} (h : Mute l) : Sound l := fun _ ht => Or.inl (h.of_suffix ht).ofLine

/-- A letter of each name is nowhere in the line. -/
theorem mute_of_not_mem {l : List UInt8} {a b : UInt8} (ha : a ∈ bytes "Voltage") (hal : a ∉ l) (hb : b ∈ bytes "current")
    (hbl : b ∉ l) : Mute l :=
  ⟨fun hv => hal (hv.subset ha), fun hc => hbl (hc.subset hb)⟩

/-- Spaces in front of a line do not change what it reports. -/
theorem ofLine_append {p : List UInt8} (hp : Blank p) (l : List UInt8) : Reading.ofLine (p ++ l) = Reading.ofLine l := by
  rw [Reading.ofLine, nameOf_append hp, argOf_append hp, Reading.ofLine]

theorem Sound.append {p l : List UInt8} (hp : Blank p) (h : Sound l) : Sound (p ++ l) := by
  rintro t ⟨q, hq⟩
  rw [ofLine_append hp]
  rcases List.append_eq_append_iff.mp hq with ⟨p', rfl, rfl⟩ | ⟨q', rfl, rfl⟩
  · right
    exact ofLine_append (fun c hc => hp c (List.mem_append_right q hc)) l
  · exact h t (List.suffix_append q' t)

/-! ## The voltage reply -/

/-- No longer text that begins with a letter is in a text that has this letter at its end only. -/
theorem not_infix_concat {v : UInt8} {t r : List UInt8} (hv : v ∉ t) (hr : r ≠ []) : ¬ v :: r <:+: t ++ [v] := by
  rintro ⟨a, z, h⟩
  rw [List.append_assoc] at h
  rcases List.append_eq_append_iff.mp h with ⟨as, rfl, he⟩ | ⟨bs, rfl, he⟩
  · rcases as with _ | ⟨c, as⟩
    · exact hr (List.append_eq_nil_iff.mp (List.cons.inj he).2).1
    · obtain rfl : v = c := (List.cons.inj he).1
      exact hv (List.mem_append_right a List.mem_cons_self)
  · have hlen := congrArg List.length he
    have hpos := List.length_pos_of_ne_nil hr
    simp only [List.length_append, List.length_cons, List.length_nil] at hlen
    omega

/-- A letter is not in a text with a number if it is not in the text around it. -/
theorem not_mem_number {c : UInt8} {a z : List UInt8} (hc : isdigit c = false) (ha : c ∉ a) (n : Nat) (hz : c ∉ z) :
    c ∉ a ++ (decimal n ++ z) := by
  rw [List.mem_append, List.mem_append]
  rintro (h | h | h)
  · exact ha h
  · exact not_digit_not_mem hc n h
  · exact hz h

/-- Behind its first letter a reply does not report anything. -/
theorem mute_tail (ch : Channel) (n : Nat) : Mute (bytes "oltage: " ++ ch.name ++ bytes " " ++ (decimal n ++ bytes " mV")) := by
  have hname : bytes "Voltage" = 86 :: bytes "oltage" := by decide
  have hunit : bytes " mV" = bytes " m" ++ [86] := by decide
  refine ⟨?_, fun hc => ?_⟩
  · rw [hname, hunit, ← List.append_assoc (decimal n), ← List.append_assoc]
    refine not_infix_concat (not_mem_number rfl ?_ n (by decide)) (by decide)
    cases ch <;> decide
  · refine not_mem_number (c := 117) rfl ?_ n (by decide) (hc.subset (by decide))
    cases ch <;> decide

theorem sound_replyLine (r : Channel × Nat) : Sound (replyLine r) := by
  intro t ht
  rcases List.suffix_cons_iff.mp (show t <:+ 86 :: (bytes "oltage: " ++ r.1.name ++ bytes " " ++ (decimal r.2 ++ bytes " mV")) from ht)
    with rfl | ht
  · exact Or.inr rfl
  · exact Or.inl ((mute_tail r.1 r.2).of_suffix ht).ofLine

/-- What an `int` keeps of a reading. -/
def Reading.kept : Reading → Reading
  | .voltage ch n => .voltage ch (PMon.int n)
  | .current n => .current (PMon.int n)

/-- `atoi` makes a signed number of the 32 bits that the firmware prints as an unsigned one. -/
theorem numberOf_word (ch : Channel) (w : BitVec 32) :
    numberOf (bytes " " ++ ch.name ++ bytes " " ++ (decimal w.toNat ++ bytes " mV")) = PMon.int w.toNat := by
  have hskip : skipSpace (skipChars (skipSpace (bytes " " ++ ch.name ++ bytes " " ++ (decimal w.toNat ++ bytes " mV")))) =
      skipSpace (decimal w.toNat ++ bytes " mV") := by cases ch <;> rfl
  have hunit : ∀ c, (bytes " mV").head? = some c → isdigit c = false := by
    intro c hc
    rw [← Option.some.inj hc]
    rfl
  have hlt := w.isLt
  rw [numberOf, hskip, skipSpace, (numeral_decimal w.toNat).dropWhile_isspace, PMon.atoi, strtol_numeral (numeral_decimal w.toNat) hunit,
    show max (-2 ^ (64 - 1)) (min (w.toNat : Int) (2 ^ (64 - 1) - 1)) = w.toNat by omega, PMon.int]

theorem ofLine_replyLine (ch : Channel) (w : BitVec 32) :
    Reading.ofLine (replyLine (ch, w.toNat)) = some (Reading.kept (.voltage ch w.toNat)) := by
  have hch : Reading.channel (bytes " " ++ ch.name ++ bytes " " ++ (decimal w.toNat ++ bytes " mV")) = some ch := by
    cases ch <;> rfl
  rw [Reading.ofLine, nameOf_replyLine, if_pos (List.prefix_refl _), argOf_replyLine, Option.bind_some, hch, Option.map_some,
    numberOf_word, Reading.kept]

/-! ## Replies -/

/-- The date and the time of the build are not taken for a reading, and have no carriage return. -/
structure Build.Plain (b : Build) : Prop where
  mute : Mute (bytes "Ver: Power Monitor Rev0, V0.1, " ++ b.date ++ bytes " " ++ b.time)
  cr : cr ∉ b.date ++ b.time

namespace Server

/-- The reading that the reply to a query has, with the number that the reply shows. -/
def reported : Query → Server → List Reading
  | .report .volt (some ch), s => [.voltage ch (s.millivolts ch).toNat]
  | _, _ => []

/-- The server, with the readings of its replies in place of their texts. -/
def reporter (b : Build) : Transducer Server ServerIn Reading where
  step
    | .line l, s => ((answer b (Query.ofLine l) s).1, reported (Query.ofLine l) s)
    | .sample v, s => ({ s with sample := v }, [])

/-- A text that is one line with its end, and nothing in it is taken for a reading but the reading of the query. -/
def Tells (rs : List Reading) (t : List UInt8) : Prop :=
  ∃ body, t = body ++ cr :: [lf] ∧ cr ∉ body ∧ Sound body ∧ (Reading.ofLine body).toList = rs.map .kept

theorem Tells.of_mute {t l : List UInt8} (ht : t = l ++ cr :: [lf]) (hcr : cr ∉ l) (hm : Mute l) : Tells [] t :=
  ⟨l, ht, hcr, hm.sound, by rw [hm.ofLine]; rfl⟩

theorem hex8_mem {c : UInt8} {n : Nat} (h : c ∈ hex8 n) : 48 ≤ c ∧ c ≤ 70 := by
  obtain ⟨i, -, rfl⟩ := List.mem_map.mp h
  have hlt : n / 16 ^ i % 16 < 16 := Nat.mod_lt _ (by decide)
  generalize n / 16 ^ i % 16 = d at hlt
  revert d
  decide

theorem not_mem_signedDecimal {c : UInt8} (hc : isdigit c = false) (hm : c ≠ 45) (v : Int) : c ∉ signedDecimal v := by
  unfold signedDecimal
  split
  · rw [List.mem_cons, not_or]
    exact ⟨hm, not_digit_not_mem hc _⟩
  · exact not_digit_not_mem hc _

/-- The samples of a supply in hexadecimal and in decimal. -/
theorem rawText_tells (ch : Channel) (n : Nat) :
    Tells [] (bytes "RawV: " ++ ch.name ++ bytes " " ++ (hex8 n ++ bytes ", " ++ decimal n ++ bytes "\r\n")) := by
  have hnot : ∀ c : UInt8, isdigit c = false → (c < 48 ∨ 70 < c) → c ∉ bytes "RawV: " ++ ch.name ++ bytes " " →
      c ∉ bytes ", " → c ∉ bytes "RawV: " ++ ch.name ++ bytes " " ++ (hex8 n ++ bytes ", " ++ decimal n) := by
    intro c hc hrange hname hcomma
    have hhex : c ∉ hex8 n := by
      intro h
      obtain ⟨hlow, hhigh⟩ := hex8_mem h
      rcases hrange with hr | hr
      · exact UInt8.not_le.mpr hr hlow
      · exact UInt8.not_le.mpr hr hhigh
    simp only [List.mem_append, not_or] at hname ⊢
    exact ⟨hname, ⟨hhex, hcomma⟩, not_digit_not_mem hc n⟩
  refine .of_mute (l := bytes "RawV: " ++ ch.name ++ bytes " " ++ (hex8 n ++ bytes ", " ++ decimal n)) ?_ ?_ ?_
  · rw [show bytes "\r\n" = cr :: [lf] by decide]
    simp only [List.append_assoc]
  · cases ch <;> exact hnot cr rfl (Or.inl (by decide)) (by decide) (by decide)
  · refine mute_of_not_mem (a := 111) (b := 117) (by decide) ?_ (by decide) ?_
    · cases ch <;> exact hnot 111 rfl (Or.inr (by decide)) (by decide) (by decide)
    · cases ch <;> exact hnot 117 rfl (Or.inr (by decide)) (by decide) (by decide)

theorem reportText_tells (what : Report) (ch : Channel) (s : Server) :
    Tells (reported (.report what (some ch)) s) (s.reportText what ch) := by
  cases what with
  | current =>
    cases ch
    · exact .of_mute (t := bytes "Current: Pri 0 mA\r\n") (l := bytes "Current: Pri 0 mA") (by decide) (by decide) (by decide)
    · exact .of_mute (t := bytes "Current: Sec 0 mA\r\n") (l := bytes "Current: Sec 0 mA") (by decide) (by decide) (by decide)
  | volt =>
    refine ⟨replyLine (ch, (s.millivolts ch).toNat), (List.cons.inj (reply_eq (ch, (s.millivolts ch).toNat))).2,
      cr_not_mem_replyLine _, sound_replyLine _, ?_⟩
    rw [ofLine_replyLine]
    rfl
  | rawVolt => exact rawText_tells ch (s.sample ch).toNat
  | rawCurrent =>
    cases ch
    · exact .of_mute (t := bytes "RawC: Pri 00000000\r\n") (l := bytes "RawC: Pri 00000000") (by decide) (by decide) (by decide)
    · exact .of_mute (t := bytes "RawC: Sec 00000000\r\n") (l := bytes "RawC: Sec 00000000") (by decide) (by decide) (by decide)

/-- A label of a parameter and its number. -/
theorem labelled_tells (label : List UInt8) {num : List UInt8} (hcr : cr ∉ label) (hg : 103 ∉ label)
    (hu : 117 ∉ label) (hnum : ∀ c, isdigit c = false → c ≠ 45 → c ∉ num) : Tells [] (label ++ num ++ bytes "\r\n") := by
  have hnot : ∀ c : UInt8, isdigit c = false → c ≠ 45 → c ∉ label → c ∉ label ++ num := by
    intro c hc hm hl
    rw [List.mem_append, not_or]
    exact ⟨hl, hnum c hc hm⟩
  refine .of_mute (l := label ++ num) (by rw [show bytes "\r\n" = cr :: [lf] by decide]) ?_ ?_
  · exact hnot cr rfl (by decide) hcr
  · exact mute_of_not_mem (by decide) (hnot 103 rfl (by decide) hg) (by decide) (hnot 117 rfl (by decide) hu)

theorem paramText_tells (p : Param) (ch : Channel) (s : Server) : Tells [] (s.paramText p ch) := by
  cases p with
  | calib =>
    refine labelled_tells (bytes "Volt Calib " ++ ch.name ++ bytes ": ") ?_ ?_ ?_ fun c hc _ => not_digit_not_mem hc _ <;>
    · cases ch <;> decide
  | offset =>
    refine labelled_tells (bytes "Volt Offset " ++ ch.name ++ bytes ": ") ?_ ?_ ?_ fun c hc hm => not_mem_signedDecimal hc hm _ <;>
    · cases ch <;> decide

theorem versionText_tells {b : Build} (hb : b.Plain) : Tells [] (versionText b) := by
  refine .of_mute (l := bytes "Ver: Power Monitor Rev0, V0.1, " ++ b.date ++ bytes " " ++ b.time) ?_ ?_ hb.mute
  · rw [versionText, show bytes "\r\n" = cr :: [lf] by decide]
  · have hcr := hb.cr
    rw [List.mem_append, not_or] at hcr
    rw [List.mem_append, List.mem_append, List.mem_append]
    rintro (((h | h) | h) | h)
    · exact absurd h (by decide)
    · exact hcr.1 h
    · exact absurd h (by decide)
    · exact hcr.2 h

/-- Every reply tells the reading of its query, if there is a reply. -/
theorem answer_tells {b : Build} (hb : b.Plain) (q : Query) (s : Server) :
    ((answer b q s).2 = [] ∧ reported q s = []) ∨ Tells (reported q s) (answer b q s).2 := by
  rcases q with _ | _ | ⟨what, _ | ch⟩ | ⟨p, _ | ⟨ch, _ | w⟩⟩ | _
  · exact Or.inr (.of_mute (t := bytes "System Restarting\r\n") (l := bytes "System Restarting") (by decide) (by decide) (by decide))
  · exact Or.inr (versionText_tells hb)
  · exact Or.inl ⟨rfl, by cases what <;> rfl⟩
  · exact Or.inr (reportText_tells what ch s)
  · exact Or.inl ⟨rfl, rfl⟩
  · exact Or.inr (paramText_tells p ch s)
  · exact Or.inr (paramText_tells p ch (s.set p ch w))
  · exact Or.inl ⟨rfl, rfl⟩

end Server

/-! ## The wire -/

/-- What the daemon makes of the complete lines of an output is what an `int` keeps of the readings `rs`, and no part of a line is taken
for another. -/
structure Wire (out : List UInt8) (rs : List Reading) : Prop where
  readings : (Daemon.lines out).filterMap Reading.ofLine = rs.map .kept
  sound : ∀ l ∈ Daemon.lines out, Sound l
  rest : Blank (Daemon.partialLine out)

theorem Wire.banner : Wire Firmware.banner [] := by
  have hmute : ∀ l ∈ Daemon.lines Firmware.banner, Mute l := by decide
  refine ⟨List.filterMap_eq_nil_iff.mpr fun l hl => (hmute l hl).ofLine, fun l hl => (hmute l hl).sound, by decide⟩

/-- A reply behind its line feed. -/
theorem Wire.reply {out t : List UInt8} {rs rs' : List Reading} (h : Wire out rs) (ht : Server.Tells rs' t) :
    Wire (out ++ lf :: t) (rs ++ rs') := by
  obtain ⟨body, rfl, hcr, hsound, hkept⟩ := ht
  have hblank : Blank (Daemon.partialLine out ++ [lf]) := fun c hc => (List.mem_append.mp hc).elim (h.rest c) (blank_lf c)
  have hfree : Lines.Free isCr (Daemon.partialLine out ++ [lf] ++ body) := by
    refine (Lines.Free.append (Lines.rest_free out) ?_).append ((Daemon.free_iff body).mpr hcr)
    exact (Daemon.free_iff [lf]).mpr (by decide)
  have hstream : Daemon.partialLine out ++ lf :: (body ++ cr :: [lf]) =
      (Daemon.partialLine out ++ [lf] ++ body) ++ cr :: [lf] := by simp
  have hlines : Daemon.lines (out ++ lf :: (body ++ cr :: [lf])) =
      Daemon.lines out ++ [Daemon.partialLine out ++ [lf] ++ body] := by
    refine (Lines.pieces_append out _).trans (congrArg (Daemon.lines out ++ ·) ?_)
    exact (congrArg (Lines.pieces isCr) hstream).trans (Lines.pieces_stop hfree rfl [lf])
  have hsnd : Sound (Daemon.partialLine out ++ [lf] ++ body) := hsound.append hblank
  refine ⟨?_, ?_, ?_⟩
  · rw [hlines, List.filterMap_append, h.readings, List.map_append, ← hkept]
    refine congrArg (rs.map Reading.kept ++ ·) ?_
    rw [List.filterMap_cons, ofLine_append hblank]
    cases Reading.ofLine body <;> rfl
  · rw [hlines]
    intro l hl
    rcases List.mem_append.mp hl with hl | hl
    · exact h.sound l hl
    · rw [List.mem_singleton.mp hl]
      exact hsnd
  · have hrest : Daemon.partialLine (out ++ lf :: (body ++ cr :: [lf])) = [lf] := by
      refine (Lines.rest_append out _).trans ?_
      exact (congrArg (Lines.rest isCr) hstream).trans (Lines.rest_stop hfree rfl [lf])
    rw [hrest]
    exact blank_lf

/-- A line feed without a reply. -/
theorem Wire.silent {out : List UInt8} {rs : List Reading} (h : Wire out rs) : Wire (out ++ [lf]) rs := by
  obtain ⟨hl, hr⟩ := Lines.snoc_free (p := isCr) out (a := lf) rfl
  refine ⟨?_, ?_, ?_⟩
  · rw [Daemon.lines, hl]
    exact h.readings
  · rw [Daemon.lines, hl]
    exact h.sound
  · rw [Daemon.partialLine, hr]
    exact fun c hc => (List.mem_append.mp hc).elim (h.rest c) (blank_lf c)

/-- Everything that the server writes behind the banner. -/
theorem Wire.run {b : Build} (hb : b.Plain) (xs : List ServerIn) (s : Server) :
    Wire (Firmware.banner ++ ((Server.machine b).run xs s).2) ((Server.reporter b).run xs s).2 ∧
      ((Server.reporter b).run xs s).1 = ((Server.machine b).run xs s).1 := by
  induction xs using List.reverseRecOn with
  | nil => exact ⟨by rw [Transducer.run_nil, List.append_nil]; exact .banner, rfl⟩
  | append_singleton xs x ih =>
    obtain ⟨hw, hst⟩ := ih
    rw [Transducer.run_snoc, Transducer.run_snoc, hst]
    generalize ((Server.machine b).run xs s).1 = s₁ at hw
    generalize ((Server.machine b).run xs s).2 = out at hw ⊢
    rcases x with l | v
    · refine ⟨?_, rfl⟩
      show Wire (Firmware.banner ++ (out ++ lf :: (Server.answer b (Query.ofLine l) s₁).2))
        (((Server.reporter b).run xs s).2 ++ Server.reported (Query.ofLine l) s₁)
      rw [← List.append_assoc]
      rcases Server.answer_tells hb (Query.ofLine l) s₁ with ⟨htext, hrep⟩ | ht
      · rw [htext, hrep, List.append_nil]
        exact hw.silent
      · exact hw.reply ht
    · refine ⟨?_, rfl⟩
      show Wire (Firmware.banner ++ (out ++ [])) (((Server.reporter b).run xs s).2 ++ [])
      rw [List.append_nil, List.append_nil]
      exact hw

namespace Server

variable {b : Build} {board : Firmware.Board} {xs : List ServerIn}

end Server

/-- A board with an erased flash. Its converters have a sample of the first supply after a second, and then "volt pri" arrives. -/
def Firmware.Board.polled : Board :=
  { receiving [] with
    adcIn := List.replicate 19 0 ++ [0x90, 0]
    usart := (List.replicate 1041 none ++ (bytes "volt pri\r").map some ++ List.replicate 30 none).map
      fun rx => { txbufe := true, rx := rx } }

end PowerMonitor
