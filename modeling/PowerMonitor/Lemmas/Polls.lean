import PowerMonitor.Lemmas.Replies
import PowerMonitor.Lemmas.RunConfig

/-!
# The daemon's polls at the firmware

`Run_Config` reads the text of the daemon's polls in any number of calls. Each line of it asks for the voltage of a channel, and
is answered with one reply (`Answered`), whatever the samples are and whatever the USART reports between two bytes.
-/

namespace PowerMonitor

open CString CmdProcessor Outcome

/-! ## Lines of a poll -/

/-- What the daemon writes in `n` polls. -/
def polls (n : Nat) : List UInt8 := (List.replicate n PMon.single).flatten

/-- The line that asks for the voltage of a channel. -/
def query : Channel → List UInt8
  | .pri => bytes "volt pri"
  | .sec => bytes "volt sec"

/-- The channel whose voltage a line of a poll asks for. -/
def asks (l : List UInt8) : Option Channel :=
  if l = query .pri then some .pri else if l = query .sec then some .sec else none

/-- The channels whose voltages the complete lines of a stream ask for. -/
def asked (t : List UInt8) : List Channel := (Lines.pieces isEol t).filterMap asks

/-- The stream is the beginning of some polls. -/
def OnPoll (t : List UInt8) : Prop := ∃ n, t <+: polls n

theorem OnPoll.of_append {t u : List UInt8} (h : OnPoll (t ++ u)) : OnPoll t := by
  obtain ⟨n, hn⟩ := h
  exact ⟨n, (List.prefix_append t u).trans hn⟩

theorem pieces_polls (n : Nat) : Lines.pieces isEol (polls n) = (List.replicate n [query .pri, [], query .sec, []]).flatten := by
  induction n with
  | zero => rfl
  | succ n ih =>
    have hp : Lines.pieces isEol PMon.single = [query .pri, [], query .sec, []] := by decide
    have hr : Lines.rest isEol PMon.single = [] := by decide
    rw [polls, List.replicate_succ, List.flatten_cons, Lines.pieces_append, hp, hr, List.nil_append, List.replicate_succ,
      List.flatten_cons, ← ih, polls]

theorem asked_polls (n : Nat) : asked (polls n) = (List.replicate n [Channel.pri, Channel.sec]).flatten := by
  rw [asked, pieces_polls]
  induction n with
  | zero => rfl
  | succ n ih =>
    have h : [query .pri, [], query .sec, []].filterMap asks = [Channel.pri, Channel.sec] := by decide
    rw [List.replicate_succ, List.flatten_cons, List.filterMap_append, ih, h, List.replicate_succ, List.flatten_cons]

/-- A line that a terminator ends on a poll is empty, or asks for a channel. -/
theorem rest_onPoll {t : List UInt8} {c : UInt8} (hc : isEol c = true) (h : OnPoll (t ++ [c])) :
    Lines.rest isEol t = [] ∨ ∃ ch, Lines.rest isEol t = query ch := by
  obtain ⟨n, hn⟩ := h
  have hmem : Lines.rest isEol t ∈ (List.replicate n [query .pri, [], query .sec, []]).flatten := by
    rw [← pieces_polls]
    refine (Lines.pieces_prefix hn).subset ?_
    rw [(Lines.snoc_stop t hc).1]
    exact List.mem_append_right _ List.mem_cons_self
  obtain ⟨ls, hls, hl⟩ := List.mem_flatten.mp hmem
  rw [(List.mem_replicate.mp hls).2] at hl
  simp only [List.mem_cons, List.not_mem_nil, or_false] at hl
  rcases hl with hl | hl | hl | hl
  · exact Or.inr ⟨.pri, hl⟩
  · exact Or.inl hl
  · exact Or.inr ⟨.sec, hl⟩
  · exact Or.inl hl

theorem asked_eol (t : List UInt8) {c : UInt8} (hc : isEol c = true) :
    asked (t ++ [c]) = asked t ++ (asks (Lines.rest isEol t)).toList := by
  rw [asked, (Lines.snoc_stop t hc).1, List.filterMap_append, asked]
  cases h : asks (Lines.rest isEol t) <;> simp [h]

theorem asked_plain (t : List UInt8) {c : UInt8} (hc : isEol c = false) : asked (t ++ [c]) = asked t := by
  rw [asked, (Lines.snoc_free t hc).1, asked]

theorem asks_query (ch : Channel) : asks (query ch) = some ch := by cases ch <;> decide

namespace Firmware

/-! ## Replies -/

/-- The readings that `Cmd_Voltage` has printed. -/
def readings (fw : Firmware) : List (Channel × Nat) :=
  fw.events.filterMap fun
    | .reading ch v => some (ch, v)
    | _ => none

/-- A line that asks for a channel is answered with the channel's reading. -/
theorem handleLine_query (b : Build) (ch : Channel) (fw : Firmware) :
    ∃ resp fw', handleLine b (query ch) fw = .ok fw' ∧
      Printed { fw with
          resp := resp
          events := fw.events ++ [.line (query ch), .reading ch (fw.chan ch).getVolts] }
        (reply (ch, (fw.chan ch).getVolts)) fw' := by
  set text := bytes "Voltage: " ++ ch.name ++ bytes " " ++ (decimal (fw.chan ch).getVolts ++ bytes " mV\r\n") with htext
  set fw₁ : Firmware := { fw with
    resp := { buffer := text }
    events := fw.events ++ [.line (query ch), .reading ch (fw.chan ch).getVolts] } with hfw₁
  have hchan : ((fw.putChar lf).log (.line (query ch))).chan ch = fw.chan ch := by cases ch <;> rfl
  have hlook : lookup (query ch) (systemCommands b) ((fw.putChar lf).log (.line (query ch))).resp
      ((fw.putChar lf).log (.line (query ch))) = .ok (0, { buffer := text },
        { (fw.putChar lf).log (.line (query ch)) with
          events := (fw.events ++ [.line (query ch)]) ++ [.reading ch (fw.chan ch).getVolts] }) := by
    have hmem : { cmd := bytes "volt", vector := cmdVoltage } ∈ systemCommands b := by simp [systemCommands]
    have hp : bytes "volt" <+: query ch := by cases ch <;> decide
    rw [htext, ← hchan, lookup_of_mem b hmem hp]
    cases ch <;> rfl
  refine ⟨{ buffer := text }, (fw₁.putChar lf).putString text, ?_, (putChar_printed fw₁ lf).trans (putString_printed text _)⟩
  rw [handleLine]
  simp only [hlook, bind, Except.bind, List.append_assoc]
  rfl

/-! ## Streams of polls -/

/-- The firmware has answered the stream `t` since it was in the state `fw₀`, with readings that satisfy `P`. -/
structure Answered (fw₀ : Firmware) (P : Channel × Nat → Prop) (t : List UInt8) (fw : Firmware) : Prop where
  received : Received t fw
  replied : ∃ rs, fw.readings = fw₀.readings ++ rs ∧ fw.uart.put = fw₀.uart.put ++ rs.flatMap reply ∧ rs.map Prod.fst = asked t ∧
    ∀ r ∈ rs, P r

variable {fw₀ fw fw' : Firmware} {P : Channel × Nat → Prop} {t : List UInt8}

/-- A step that neither prints nor receives. -/
theorem Answered.congr (h : Answered fw₀ P t fw) (hsize : fw'.rxSize = fw.rxSize) (hbuf : fw'.msgBuf = fw.msgBuf)
    (hev : fw'.events = fw.events) (hput : fw'.uart.put = fw.uart.put) : Answered fw₀ P t fw' := by
  obtain ⟨hr, rs, he, hp, ha, hP⟩ := h
  refine ⟨⟨hsize.trans hr.rxSize, by rw [hbuf]; exact hr.msgBuf⟩, rs, ?_, hput.trans hp, ha, hP⟩
  rw [readings, hev]
  exact he

/-- A byte of a poll: it is answered if it completes a line that asks. -/
theorem Answered.char (h : Answered fw₀ P t fw) (hready : fw.Ready) (hP : ∀ ch, P (ch, (fw.chan ch).getVolts)) {c : UInt8}
    (hon : OnPoll (t ++ [c])) (b : Build) :
    ∃ fw', receiveChar b c fw = .ok fw' ∧ Answered fw₀ P (t ++ [c]) fw' ∧ fw'.chan = fw.chan := by
  cases hc : isEol c with
  | false =>
    obtain ⟨m, n, he, -, hrec⟩ := receiveChar_plain hready.msgBuf h.received hc b
    exact ⟨_, he, ⟨hrec, by rw [asked_plain t hc]; exact h.replied⟩, rfl⟩
  | true =>
    have he := receiveChar_eol h.received hc b
    obtain ⟨rs, hev, hput, hask, hrs⟩ := h.replied
    rcases rest_onPoll hc hon with hnil | ⟨ch, hq⟩
    · rw [if_pos ((unfinished_eq_nil_iff t).mpr hnil)] at he
      refine ⟨fw, he, ⟨received_of_eol h.received hc he, rs, hev, hput, ?_, hrs⟩, rfl⟩
      rw [asked_eol t hc, hnil, hask]
      exact (List.append_nil _).symm
    · have hu : unfinished t = query ch := by
        rw [unfinished, hq]
        cases ch <;> decide
      have hne : ¬unfinished t = [] := by
        rw [hu]
        cases ch <;> decide
      have htext : text (query ch) = query ch := by cases ch <;> decide
      obtain ⟨resp, fw₁, hline, hprint⟩ := handleLine_query b ch fw
      rw [if_neg hne, hu, htext, hline] at he
      refine ⟨_, he, ⟨received_of_eol h.received hc he, rs ++ [(ch, (fw.chan ch).getVolts)], ?_, ?_, ?_, ?_⟩, ?_⟩
      · have hread : fw₁.readings = fw.readings ++ [(ch, (fw.chan ch).getVolts)] := by
          rw [readings, hprint.rest, List.filterMap_append]
          rfl
        show fw₁.readings = _
        rw [hread, hev, List.append_assoc]
      · have hprinted : fw₁.uart.put = fw.uart.put ++ reply (ch, (fw.chan ch).getVolts) := hprint.port.put
        show fw₁.uart.put = _
        rw [hprinted, hput, List.flatMap_append, List.flatMap_singleton, List.append_assoc]
      · rw [List.map_append, hask, asked_eol t hc, hq, asks_query]
        rfl
      · intro r hr
        rcases List.mem_append.mp hr with hr | hr
        · exact hrs r hr
        · rw [List.mem_singleton.mp hr]
          exact hP ch
      · show fw₁.chan = fw.chan
        rw [hprint.rest]
        rfl

/-! ## Calls of Run_Config -/

/-- A channel's sample, and its calibration. -/
structure Sample where
  volts : Nat
  vCalib : Nat
  voltOffset : Int
  deriving DecidableEq, Repr

/-- The channel has been sampled. -/
def sampled (c : PowerChanel) (s : Sample) : PowerChanel :=
  { c with volts := s.volts, vCalib := s.vCalib, voltOffset := s.voltOffset }

/-- The reading of a sample. -/
def Sample.reading (s : Sample) : Nat := (sampled { adc := .PA16, volts := 0, vCalib := 1, voltOffset := 0 } s).getVolts

/-- What comes before a call of `Run_Config`: the channels are sampled, the USART has bytes to report, and `UartBuffer_Interrupt`
is called. -/
structure Round where
  sample : Channel → Sample
  usart : List UsartIn
  interrupts : Nat

/-- The state a call of `Run_Config` finds. -/
def Round.enter (r : Round) (fw : Firmware) : Firmware :=
  Nat.iterate interrupt r.interrupts
    { fw with pri := sampled fw.pri (r.sample .pri), sec := sampled fw.sec (r.sample .sec), usart := r.usart }

/-- Calls of `Run_Config`. -/
def rounds (b : Build) (rs : List Round) (fw : Firmware) : Except Stop Firmware :=
  rs.foldlM (fun fw r => runConfig b (r.enter fw)) fw

/-- The text `t` is delivered to `Run_Config`: it has read just these bytes behind those it had read in `fw`, or no others where
it does not return. -/
structure Delivered (t : List UInt8) (fw : Firmware) (run : Except Stop Firmware) : Prop where
  returns : ∀ fw', run = .ok fw' → fw'.uart.got = fw.uart.got ++ t
  restarts : ∀ fw', run = .error (.restart fw') → fw'.uart.got <+: fw.uart.got ++ t

/-- Polls that `Run_Config` has read are answered, between two of its calls. -/
def Polled (fw₀ : Firmware) (P : Channel × Nat → Prop) (fw : Firmware) : Prop :=
  fw.Ready ∧ ∃ t, fw.uart.got = fw₀.uart.got ++ t ∧ (OnPoll t → Answered fw₀ P t fw)

/-- Polls that `Run_Config` has read are answered, during one of its calls. -/
def Polling (fw₀ : Firmware) (P : Channel × Nat → Prop) (fw : Firmware) : Prop :=
  fw.Ready ∧ ∃ t, fw.uart.got = fw₀.uart.got ++ t ∧
    (OnPoll t → Answered fw₀ P t fw ∧ ∀ ch, P (ch, (fw.chan ch).getVolts))

/-- What `Run_Config` has read is not a beginning of polls. -/
def OffPoll (fw₀ fw : Firmware) : Prop := ∃ t, fw.uart.got = fw₀.uart.got ++ t ∧ ¬ OnPoll t

/-- Step lemma: reading a byte and handling it. -/
theorem polling_kept (b : Build) (fw₀ : Firmware) (P : Channel × Nat → Prop) : KeptByChars b (Polling fw₀ P) (OffPoll fw₀) where
  ready _ h := h.1
  char fw := by
    rintro ⟨hfw, t, hgot, hpoll⟩ hr
    obtain ⟨hready, hread, -⟩ := getChar_spec hfw hr
    have hgot' : fw.uart.getChar.2.got = fw₀.uart.got ++ (t ++ [fw.uart.getChar.1]) := by rw [hread, hgot, List.append_assoc]
    have hend := receiveChar_ends hready b fw.uart.getChar.1
    by_cases hon : OnPoll (t ++ [fw.uart.getChar.1])
    · obtain ⟨hans, hP⟩ := hpoll hon.of_append
      have hans' : Answered fw₀ P t { fw with uart := fw.uart.getChar.2 } := hans.congr rfl rfl rfl (UartBuffer.getChar_put _)
      obtain ⟨fw', he, ha, hchan⟩ := hans'.char hready hP hon b
      rw [he] at hend ⊢
      refine ⟨hend.2.ready, _, hend.2.got.trans hgot', fun _ => ⟨ha, ?_⟩⟩
      rw [hchan]
      exact hP
    · -- behind a byte that is not a poll's anything may be printed
      refine hend.mono (fun fw' h => ⟨h.2.ready, _, h.2.got.trans hgot', fun h' => absurd h' hon⟩) ?_
      rintro (fw' | _) h
      · exact ⟨_, h.2.got.trans hgot', hon⟩
      · exact h.elim

theorem enter_polling {fw₀ : Firmware} {P : Channel × Nat → Prop} {r : Round} (hP : ∀ ch, P (ch, (r.sample ch).reading))
    {fw : Firmware} (h : Polled fw₀ P fw) : Polling fw₀ P (r.enter fw) := by
  obtain ⟨hfw, t, hgot, hpoll⟩ := h
  have hint : ∀ fw, Polling fw₀ P fw → Polling fw₀ P fw.interrupt := by
    rintro fw ⟨hfw, t, hgot, hpoll⟩
    have hq := (interrupt_printed fw).quiet hfw
    refine ⟨hq.ready, t, hq.got.trans hgot, fun hon => ?_⟩
    obtain ⟨ha, hP⟩ := hpoll hon
    exact ⟨ha.congr rfl rfl rfl (UartBuffer.interrupt_got _ _).2, hP⟩
  have hstart : Polling fw₀ P
      { fw with pri := sampled fw.pri (r.sample .pri), sec := sampled fw.sec (r.sample .sec), usart := r.usart } := by
    refine ⟨hfw.congr rfl, t, hgot, fun hon => ?_⟩
    refine ⟨(hpoll hon).congr rfl rfl rfl rfl, ?_⟩
    rintro (_ | _)
    · exact hP .pri
    · exact hP .sec
  exact Function.Iterate.rec (Polling fw₀ P) hstart hint r.interrupts

/-- Run lemma: calls of `Run_Config` answer polls, or leave `Run_Config` on a text that is not one. -/
theorem rounds_polled (b : Build) {fw₀ : Firmware} {P : Channel × Nat → Prop} (rs : List Round)
    (hP : ∀ r ∈ rs, ∀ ch, P (ch, (r.sample ch).reading)) : ∀ {fw : Firmware}, Polled fw₀ P fw →
      Ends (Polled fw₀ P) (Stop.Restarted (OffPoll fw₀)) (rounds b rs fw) := by
  induction rs with
  | nil => exact fun h => h
  | cons r rs ih =>
    intro fw h
    have hP' := fun x hx => hP x (List.mem_cons_of_mem r hx)
    refine (runConfig_ends (polling_kept b fw₀ P) (enter_polling (hP r List.mem_cons_self) h)).bind ?_
    rintro fw' ⟨⟨hfw', t, hgot, hpoll⟩, -⟩
    exact ih hP' ⟨hfw', t, hgot, fun hon => (hpoll hon).1⟩

end Firmware

end PowerMonitor
