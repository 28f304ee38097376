import PowerMonitor.Lemmas.RunConfig

/-!
# The lines that are looked up

No command touches the line buffer or looks a line up (`CommandFrame`). What `CP_Lookup` is called with is therefore told by the
bytes `Run_Config` has read: the pieces of the stream that are not empty, as far as `MsgBuf` has room for them (`dispatched`).
-/

namespace PowerMonitor

open CString CmdProcessor Outcome

/-- A reason to stop that is a restart in a state that satisfies `R`, or a call that does not return. -/
def Stop.Leaves (R : Firmware → Prop) : Stop → Prop
  | .restart fw => R fw
  | .hang => True

/-- The line that is looked up. -/
def FwEvent.looked : FwEvent → Option (List UInt8)
  | .line l => some l
  | .reading _ _ => none
  | .stored _ _ _ => none
  | .cacheCheck => none

namespace Firmware

/-- The strings that have been passed to `CP_Lookup`. -/
def lookups (fw : Firmware) : List (List UInt8) := fw.events.filterMap FwEvent.looked

theorem lookups_log (fw : Firmware) (e : FwEvent) : (fw.log e).lookups = fw.lookups ++ e.looked.toList := by
  rw [lookups, log, List.filterMap_append, lookups]
  cases h : e.looked <;> simp [h]

/-- The line buffer and the lines looked up are the same in both states. -/
structure SameLines (fw fw' : Firmware) : Prop where
  msgBuf : fw'.msgBuf = fw.msgBuf
  rxSize : fw'.rxSize = fw.rxSize
  lookups : fw'.lookups = fw.lookups

theorem Printed.sameLines {fw fw' : Firmware} {out : List UInt8} (h : Printed fw out fw') : SameLines fw fw' := by
  rw [h.rest]
  exact ⟨rfl, rfl, rfl⟩

/-! ## Commands -/

/-- What a command may change: the EEPROM, the channels, the serial port, and the record of readings and stored values. -/
structure CommandFrame (fw fw' : Firmware) : Prop where
  rest : fw' = { fw with ee := fw'.ee, pri := fw'.pri, sec := fw'.sec, uart := fw'.uart, usart := fw'.usart, events := fw'.events }
  events : ∃ es, fw'.events = fw.events ++ es ∧ ∀ e ∈ es, e.looked = none ∧ e ≠ .cacheCheck

theorem CommandFrame.refl (fw : Firmware) : CommandFrame fw fw := ⟨rfl, [], (List.append_nil _).symm, by simp⟩

theorem Printed.commandFrame {fw fw' : Firmware} {out : List UInt8} (h : Printed fw out fw') : CommandFrame fw fw' := by
  rw [h.rest]
  exact ⟨rfl, [], (List.append_nil _).symm, by simp⟩

/-- A value is read from the EEPROM. -/
theorem CommandFrame.read {fw fw' : Firmware} (h : CommandFrame fw fw') (ee : EE) : CommandFrame fw { fw' with ee := ee } := by
  refine ⟨?_, h.events⟩
  conv_lhs => rw [h.rest]

/-- A value is stored. -/
theorem CommandFrame.store (fw : Firmware) (ee : EE) (ch : Channel) (f : PowerChanel → PowerChanel) (p : Param) (v : Nat) :
    CommandFrame fw ((({ fw with ee := ee } : Firmware).setChan ch f).log (.stored p ch v)) := by
  rw [setChan_rest]
  refine ⟨rfl, [.stored p ch v], rfl, ?_⟩
  intro e he
  rw [List.mem_singleton.mp he]
  exact ⟨rfl, nofun⟩

theorem CommandFrame.sameLines {fw fw' : Firmware} (h : CommandFrame fw fw') : SameLines fw fw' := by
  obtain ⟨es, he, hes⟩ := h.events
  have hnil : es.filterMap FwEvent.looked = [] := List.filterMap_eq_nil_iff.mpr fun e hm => (hes e hm).1
  refine ⟨?_, ?_, ?_⟩
  · rw [h.rest]
  · rw [h.rest]
  · rw [lookups, he, List.filterMap_append, hnil, List.append_nil, lookups]

theorem cmdReport_frame (label : List UInt8) (print : PowerChanel → List UInt8) {events : Channel → PowerChanel → List FwEvent}
    (hev : ∀ ch c, ∀ e ∈ events ch c, e.looked = none ∧ e ≠ .cacheCheck) (argument : List UInt8) (resp : CmdResponse)
    (fw : Firmware) :
    Ends (fun r => CommandFrame fw r.2.2) (Stop.Leaves (CommandFrame fw)) (cmdReport label print events argument resp fw) := by
  unfold cmdReport
  split
  · exact CommandFrame.refl fw
  · exact ⟨rfl, _, rfl, hev _ _⟩

theorem cmdParam_frame (p : Param) (label : List UInt8) (write : Channel → Nat → EE → Option EE)
    (setLive : Nat → PowerChanel → PowerChanel) (read : Channel → EE → Option (Nat × EE)) (print : Nat → List UInt8)
    (argument : List UInt8) (resp : CmdResponse) (fw : Firmware) :
    Ends (fun r => CommandFrame fw r.2.2) (Stop.Leaves (CommandFrame fw))
      (cmdParam p label write setLive read print argument resp fw) := by
  have hread : ∀ (ch : Channel) (fw' : Firmware), CommandFrame fw fw' →
      Ends (fun r => CommandFrame fw r.2.2) (Stop.Leaves (CommandFrame fw)) (do
        let r ← returns (read ch fw'.ee)
        .ok ((0 : Int), ({ buffer := label ++ ch.name ++ bytes ": " ++ print r.1 ++ bytes "\r\n" } : CmdResponse),
          ({ fw' with ee := r.2 } : Firmware))) :=
    fun ch fw' h => (returns_ends _ trivial).bind fun r _ => h.read r.2
  unfold cmdParam
  cases channelOf argument with
  | none => exact CommandFrame.refl fw
  | some r =>
    obtain ⟨ch, argument⟩ := r
    dsimp only
    split
    · exact (returns_ends _ trivial).bind fun ee _ => hread ch _ (CommandFrame.store fw ee ch _ p _)
    · exact hread ch fw (CommandFrame.refl fw)

/-- No command touches anything else, whether it returns or restarts. -/
theorem lookup_frame (b : Build) (line : List UInt8) (resp : CmdResponse) (fw : Firmware) :
    Ends (fun r => CommandFrame fw r.2.2) (Stop.Leaves (CommandFrame fw)) (lookup line (systemCommands b) resp fw) := by
  have hreading : ∀ (ch : Channel) (c : PowerChanel), ∀ e ∈ [FwEvent.reading ch c.getVolts], e.looked = none ∧ e ≠ .cacheCheck := by
    intro ch c e he
    rw [List.mem_singleton.mp he]
    exact ⟨rfl, nofun⟩
  refine scan_ends (systemCommands_names b).1 (fun _ => CommandFrame.refl fw) ?_
  simp only [systemCommands, List.forall_mem_cons, List.not_mem_nil, false_implies, implies_true, and_true]
  refine ⟨fun _ => ?_, fun _ => ?_, fun _ => ?_, fun _ => ?_, fun _ => ?_, fun _ => ?_, fun _ => ?_, fun _ => ?_⟩
  · exact (putString_printed _ fw).commandFrame
  · exact cmdReport_frame _ _ (fun _ _ _ he => absurd he List.not_mem_nil) _ _ fw
  · exact cmdReport_frame _ _ hreading _ _ fw
  · exact cmdReport_frame _ _ (fun _ _ _ he => absurd he List.not_mem_nil) _ _ fw
  · exact cmdReport_frame _ _ (fun _ _ _ he => absurd he List.not_mem_nil) _ _ fw
  · exact cmdParam_frame _ _ _ _ _ _ _ _ fw
  · exact cmdParam_frame _ _ _ _ _ _ _ _ fw
  · exact CommandFrame.refl fw

theorem lookup_sameLines (b : Build) (line : List UInt8) (resp : CmdResponse) (fw : Firmware) :
    Ends (fun r => SameLines fw r.2.2) (Stop.Leaves (SameLines fw)) (lookup line (systemCommands b) resp fw) := by
  refine (lookup_frame b line resp fw).mono (fun _ h => h.sameLines) ?_
  rintro (fw' | _) h
  · exact CommandFrame.sameLines h
  · trivial

/-! ## Bytes -/

/-- A complete line is looked up once. -/
theorem handleLine_lookups (b : Build) (line : List UInt8) (fw : Firmware) :
    Ends (fun fw' => fw'.msgBuf = fw.msgBuf ∧ fw'.rxSize = fw.rxSize ∧ fw'.lookups = fw.lookups ++ [line])
      (Stop.Leaves fun fw' => fw'.lookups = fw.lookups ++ [line]) (handleLine b line fw) := by
  have hl : ((fw.putChar lf).log (.line line)).lookups = fw.lookups ++ [line] := by
    rw [lookups_log, (putChar_printed fw lf).sameLines.lookups]
    rfl
  refine Ends.bind ((lookup_sameLines b line _ ((fw.putChar lf).log (.line line))).mono (fun _ h => h) ?_) ?_
  · rintro (fw' | _) h
    · exact h.lookups.trans hl
    · trivial
  · rintro ⟨rv, resp, fw'⟩ h
    have hp := (putString_printed resp.buffer { fw' with resp := resp }).sameLines
    exact ⟨hp.msgBuf.trans h.msgBuf, hp.rxSize.trans h.rxSize, (hp.lookups.trans h.lookups).trans hl⟩

/-- What a received byte makes `Run_Config` look up. -/
def looks (c : UInt8) (fw : Firmware) : List (List UInt8) :=
  if (c = cr ∨ c = lf) ∧ fw.rxSize ≠ 0 then [text fw.msgBuf] else []

/-- A received byte makes these stores and no others, and is the reason for these lookups and no others. -/
theorem receiveChar_lines (b : Build) (c : UInt8) (fw : Firmware) :
    Ends (fun fw' => fw'.msgBuf = (fw.stores c).foldl (fun m s => m.set s.1 s.2) fw.msgBuf ∧
        fw'.lookups = fw.lookups ++ fw.looks c)
      (Stop.Leaves fun fw' => fw'.lookups = fw.lookups ++ fw.looks c) (receiveChar b c fw) := by
  unfold receiveChar looks
  by_cases hc : c = cr ∨ c = lf
  · have hnone : fw.stores c = [] := if_pos hc
    by_cases h0 : fw.rxSize = 0
    · simp only [hc, h0, hnone, ne_eq, not_true_eq_false, and_false, if_true, if_false, List.append_nil]
      exact ⟨rfl, rfl⟩
    · simp only [hc, h0, hnone, ne_eq, not_false_eq_true, and_self, if_true]
      exact (handleLine_lookups b (text fw.msgBuf) fw).bind fun fw' h => ⟨h.1, h.2.2⟩
  · simp only [hc, false_and, if_false, List.append_nil]
    split
    · exact ⟨rfl, rfl⟩
    · next hfull =>
      have hnone : fw.stores c = [] := (if_neg hc).trans (if_neg hfull)
      rw [hnone]
      exact ⟨rfl, rfl⟩

/-! ## Streams -/

end Firmware

/-- The lines of a stream: it is split at every terminator, the empty pieces are dropped, and the unfinished piece is left out. -/
def linesOf (t : List UInt8) : List (List UInt8) := (Lines.pieces isEol t).filter fun l => l ≠ []

/-- The line begins with the name of the command that does not return. -/
def restarts (l : List UInt8) : Bool := bytes "restart" <+: l

/-- The strings that the lines of a stream are to `CP_Lookup`. -/
def dispatched (t : List UInt8) : List (List UInt8) := (linesOf t).map fun l => text (l.take rxSizeMax)

theorem linesOf_plain (t : List UInt8) {c : UInt8} (hc : isEol c = false) : linesOf (t ++ [c]) = linesOf t := by
  rw [linesOf, (Lines.snoc_free t hc).1, linesOf]

theorem linesOf_eol (t : List UInt8) {c : UInt8} (hc : isEol c = true) :
    linesOf (t ++ [c]) = linesOf t ++ if Lines.rest isEol t = [] then [] else [Lines.rest isEol t] := by
  rw [linesOf, (Lines.snoc_stop t hc).1, List.filter_append, linesOf]
  by_cases h : Lines.rest isEol t = [] <;> simp [h]

/-- The lines of a stream are the first lines of any stream that goes on from it. -/
theorem linesOf_prefix {s t : List UInt8} (h : s <+: t) : linesOf s <+: linesOf t := (Lines.pieces_prefix h).filter _

/-- Only the first bytes of a line tell whether it is a restart. -/
theorem restarts_text (l : List UInt8) : restarts (text (l.take rxSizeMax)) = restarts l := by
  have hlen : (bytes "restart").length ≤ rxSizeMax := by decide
  unfold restarts
  rw [decide_eq_decide, prefix_text_iff (by decide), List.prefix_take_iff]
  exact and_iff_left hlen

theorem ofLine_eq_restart_iff (l : List UInt8) : Request.ofLine l = .restart ↔ restarts l = true := by
  rw [restarts, decide_eq_true_iff]
  unfold Request.ofLine
  split
  · next h => exact iff_of_true rfl h
  · next h =>
    refine iff_of_false ?_ h
    split
    · exact Request.ofArgument_ne_restart _ _
    · split
      · exact Request.ofArgument_ne_restart _ _
      · exact nofun

namespace Firmware

/-- Behind the stream `t` a byte makes `Run_Config` look up the line that the byte completes. -/
theorem looks_eq {fw : Firmware} {t : List UInt8} (h : Received t fw) (c : UInt8) :
    dispatched (t ++ [c]) = dispatched t ++ fw.looks c := by
  have h0 : fw.rxSize ≠ 0 ↔ Lines.rest isEol t ≠ [] := by
    rw [h.rxSize, Ne, List.length_eq_zero_iff, unfinished_eq_nil_iff]
  unfold looks
  rw [dispatched, dispatched]
  cases hc : isEol c with
  | false =>
    rw [linesOf_plain t hc, if_neg fun h' => not_eol hc h'.1, List.append_nil]
  | true =>
    rw [linesOf_eol t hc, List.map_append]
    by_cases he : Lines.rest isEol t = []
    · simp [h0, he]
    · obtain ⟨m, hm⟩ := h.msgBuf ((unfinished_eq_nil_iff t).not.mpr he)
      rw [if_neg he, if_pos ⟨(isEol_iff c).mp hc, h0.mpr he⟩, hm, text_append_zero]
      rfl

/-- Behind the stream `t` a byte asks for a restart if it completes a line that begins with the name of the command. -/
theorem charRequest_restart_iff {fw : Firmware} {t : List UInt8} (h : Received t fw) (c : UInt8) :
    charRequest c fw = .restart ↔ ∃ l, linesOf (t ++ [c]) = linesOf t ++ [l] ∧ restarts l = true := by
  rw [charRequest_eq h]
  cases hc : isEol c with
  | false => simp [linesOf_plain t hc]
  | true =>
    rw [linesOf_eol t hc]
    by_cases he : Lines.rest isEol t = []
    · simp [he, unfinished_eq_nil_iff]
    · rw [if_pos ⟨rfl, (unfinished_eq_nil_iff t).not.mpr he⟩, if_neg he, ofLine_eq_restart_iff, unfinished, restarts_text]
      simp

/-- `Run_Config` has read the stream `t`, and none of its lines is a restart. -/
structure Assembled (t : List UInt8) (fw : Firmware) : Prop where
  ready : fw.Ready
  received : Received t fw
  lookups : fw.lookups = dispatched t
  returned : Lines.Free restarts (linesOf t)

/-- `Cmd_Restart` was entered behind the stream `t`: its last line is the first restart. -/
structure Entered (t : List UInt8) (fw : Firmware) : Prop where
  lookups : fw.lookups = dispatched t
  restart : ∃ ls l, linesOf t = ls ++ [l] ∧ Lines.Free restarts ls ∧ restarts l = true

theorem Assembled.congr {t : List UInt8} {fw fw' : Firmware} (h : Assembled t fw) (hr : fw'.Ready) (hs : SameLines fw fw') :
    Assembled t fw' :=
  ⟨hr, ⟨hs.rxSize.trans h.received.rxSize, by rw [hs.msgBuf]; exact h.received.msgBuf⟩, hs.lookups.trans h.lookups, h.returned⟩

/-- Step lemma: a byte. -/
theorem Assembled.char {t : List UInt8} {fw : Firmware} (h : Assembled t fw) (b : Build) (c : UInt8) :
    Ends (Assembled (t ++ [c])) (Stop.Restarted (Entered (t ++ [c]))) (receiveChar b c fw) := by
  have hend := (receiveChar_ends h.ready b c).and (receiveChar_lines b c fw)
  have hlooks := looks_eq h.received c
  have hiff := charRequest_restart_iff h.received c
  cases hx : receiveChar b c fw with
  | ok fw' =>
    rw [hx] at hend
    obtain ⟨⟨hne, he⟩, -, hl⟩ := hend
    refine ⟨he.ready, received_of_char h.ready.msgBuf h.received hx, by rw [hl, hlooks, h.lookups], ?_⟩
    -- a byte adds at most one line, and that one is no restart
    by_contra hfree
    refine hne (hiff.mpr ?_)
    cases hc : isEol c with
    | false =>
      rw [linesOf_plain t hc] at hfree
      exact absurd h.returned hfree
    | true =>
      rw [linesOf_eol t hc] at hfree ⊢
      by_cases he : Lines.rest isEol t = []
      · rw [if_pos he, List.append_nil] at hfree
        exact absurd h.returned hfree
      · rw [if_neg he] at hfree ⊢
        refine ⟨_, rfl, ?_⟩
        by_contra hrest
        exact hfree (h.returned.append (by simpa [Lines.Free] using hrest))
  | error e =>
    rw [hx] at hend
    cases e with
    | hang => exact hend.1.elim
    | restart fw' =>
      obtain ⟨l, hl, hrest⟩ := hiff.mp hend.1.1
      have hlook : fw'.lookups = fw.lookups ++ fw.looks c := hend.2
      exact ⟨by rw [hlook, hlooks, h.lookups], linesOf t, l, hl, h.returned, hrest⟩

/-- Nothing is looked up or read while the firmware starts. -/
theorem start_assembled (b : Build) (board : Board) :
    ∃ fw, start b board = .ok fw ∧ Assembled [] fw ∧ ∃ out, Serves (.init, board.usart) out fw.port := by
  obtain ⟨fw, he, hs⟩ := start_started b board
  obtain ⟨fw₀, he₀, -, -, -, hu, hus, -, hev, -⟩ := start_spec b board
  have hfw := Except.ok.inj (he.symm.trans he₀)
  have hp := startup_printed fw₀
  have hport := hp.port
  rw [← hfw, port, hu, hus] at hport
  refine ⟨fw, he, ⟨hs.ready, received_nil hs.rxSize, ?_, Lines.Free.nil⟩, _, hport⟩
  rw [hfw, hp.sameLines.lookups, lookups, hev]
  rfl

/-- `EE_Cache_Check` reads no byte. -/
theorem Assembled.cacheCheck {t : List UInt8} {fw : Firmware} (h : Assembled t fw) :
    Ends (fun fw' => Assembled t fw' ∧ fw'.port = fw.port) (fun _ => False) fw.cacheCheck := by
  obtain ⟨r, ee, he, -⟩ := EE.cacheCheck_resident h.ready.ee
  obtain ⟨fw', he', hr, -⟩ := cacheCheck_spec h.ready
  have hfw : fw' = ({ fw with ee := ee } : Firmware).log .cacheCheck := by
    rw [Firmware.cacheCheck, he] at he'
    exact (Except.ok.inj he').symm
  have hlook : fw'.lookups = fw.lookups := by
    rw [hfw, lookups_log]
    exact List.append_nil _
  rw [he']
  exact ⟨h.congr hr ⟨by rw [hfw]; rfl, by rw [hfw]; rfl, hlook⟩, by rw [hfw]; rfl⟩

/-- Sampling the channels reads no byte. -/
theorem Assembled.runChannels {t : List UInt8} {fw : Firmware} (h : Assembled t fw) : Assembled t fw.runChannels :=
  h.congr (runChannels_quiet h.ready).ready ⟨rfl, rfl, rfl⟩

end Firmware

end PowerMonitor
