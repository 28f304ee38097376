import PowerMonitor.Lemmas.Polls
import PowerMonitor.Theorems.ReceiveLoop

/-!
# The voltage protocol end to end

The firmware answers the text of the daemon's polls with one reply for each line that asks, and the daemon publishes the numbers
of a stream of replies in their order, however the reads cut it. After the last byte the shared memory has the readings of the
last poll.
-/

namespace PowerMonitor

open CString CmdParse Outcome

namespace Daemon

/-- What the reads of the stream `s` have done to the daemon `d₀`, if every line of it is in the table. -/
structure Followed (d₀ : Daemon) (s : List UInt8) (d : Daemon) : Prop where
  serialFd : d.serialFd = d₀.serialFd
  length : d.readBuf.length = readBufSize
  holds : d.Holds (partialLine s)
  pmon : d.pmon = (lines s).foldl (handleLine d₀.serialFd) d₀.pmon

/-- A buffer that begins with a NUL holds the empty text. -/
theorem holds_nil {d : Daemon} (h : d.readBuf.head? = some 0) : d.Holds [] := by
  cases hb : d.readBuf with
  | nil => simp [hb] at h
  | cons a m =>
    obtain rfl : a = 0 := by simpa [hb] using h
    exact ⟨by simp [hb], [], Or.inl rfl, by simp [hb, text]⟩

/-- Step lemma: a read. -/
theorem Followed.read {d₀ d : Daemon} {s c : List UInt8} (h : Followed d₀ s d) (hfit : d.Fits c) (hc : (0 : UInt8) ∉ c)
    (hk : ∀ l ∈ lines (partialLine s ++ c), Known l) : ∃ d', d.receiveData c = some d' ∧ Followed d₀ (s ++ c) d' := by
  obtain ⟨d', hd', hdr⟩ := receiveData_spec h.holds h.length hfit hc (cr_not_mem_partialLine s)
  have ht := (taken_eq_iff _).mpr fun l hl => hk l (List.mem_of_mem_dropLast hl)
  have hpart : partialLine (s ++ c) = partialLine (partialLine s ++ c) := Lines.rest_append s c
  have hlines : lines (s ++ c) = lines s ++ lines (partialLine s ++ c) := Lines.pieces_append s c
  refine ⟨d', hd', hdr.serialFd.trans h.serialFd, hdr.length.trans h.length, hpart ▸ hdr.done ht, ?_⟩
  rw [hdr.pmon, ht, hlines, List.foldl_append, ← h.pmon, h.serialFd]

/-- Run lemma: reads of a stream whose lines are all in the table. -/
theorem receiveAll_followed {d₀ : Daemon} (hlen : d₀.readBuf.length = readBufSize) (h0 : d₀.readBuf.head? = some 0)
    (cs : List (List UInt8)) (hnul : ∀ c ∈ cs, (0 : UInt8) ∉ c)
    (hfit : ∀ pre c d, pre ++ [c] <+: cs → receiveAll pre d₀ = some d → d.Fits c) (hk : ∀ l ∈ lines cs.flatten, Known l) :
    ∃ d, receiveAll cs d₀ = some d ∧ Followed d₀ cs.flatten d := by
  induction cs using List.reverseRecOn with
  | nil => exact ⟨d₀, rfl, rfl, hlen, holds_nil h0, rfl⟩
  | append_singleton cs c ih =>
    have hlines : lines (cs ++ [c]).flatten = lines cs.flatten ++ lines (partialLine cs.flatten ++ c) := by
      rw [List.flatten_append, List.flatten_singleton, lines, Lines.pieces_append]
      rfl
    rw [hlines] at hk
    obtain ⟨d₁, hd₁, hf₁⟩ := ih (fun x hx => hnul x (List.mem_append_left _ hx))
      (fun pre x d hp => hfit pre x d (hp.trans (List.prefix_append _ _))) fun l hl => hk l (List.mem_append_left _ hl)
    obtain ⟨d₂, hd₂, hf₂⟩ := hf₁.read (hfit cs c d₁ (List.prefix_refl _) hd₁)
      (hnul c (List.mem_append_right _ List.mem_cons_self))
      fun l hl => hk l (List.mem_append_right _ hl)
    refine ⟨d₂, by rw [receiveAll_snoc, hd₁, Option.bind_some, hd₂], ?_⟩
    rw [List.flatten_append, List.flatten_singleton]
    exact hf₂

end Daemon

/-! ## Polls and their readings -/

/-- The readings of a poll, with their channels. -/
def pollReadings (v : Nat × Nat) : List (Channel × Nat) := [(.pri, v.1), (.sec, v.2)]

/-- The calls `rs` of `Run_Config` have answered `n` polls with the readings `vs`, each of which is that of a sample. -/
structure PollsAnswered (rs : List Firmware.Round) (n : Nat) (vs : List (Nat × Nat)) (fw fw' : Firmware) : Prop where
  length : vs.length = n
  sampled : ∀ v ∈ vs, (∃ r ∈ rs, v.1 = (r.sample .pri).reading) ∧ ∃ r ∈ rs, v.2 = (r.sample .sec).reading
  readings : fw'.readings = fw.readings ++ vs.flatMap pollReadings
  put : fw'.uart.put = fw.uart.put ++ (vs.flatMap pollReadings).flatMap reply

/-- Readings that come in pairs are those of polls. -/
theorem exists_polls (n : Nat) : ∀ rs : List (Channel × Nat),
    rs.map Prod.fst = (List.replicate n [Channel.pri, Channel.sec]).flatten →
      ∃ vs : List (Nat × Nat), vs.length = n ∧ rs = vs.flatMap pollReadings := by
  induction n with
  | zero =>
    intro rs h
    exact ⟨[], rfl, List.map_eq_nil_iff.mp h⟩
  | succ n ih =>
    intro rs h
    rw [List.replicate_succ, List.flatten_cons, List.cons_append, List.cons_append, List.nil_append] at h
    obtain ⟨⟨ch₁, v₁⟩, rs₁, rfl, h₁, hrs₁⟩ := List.map_eq_cons_iff.mp h
    obtain ⟨⟨ch₂, v₂⟩, rs₂, rfl, h₂, hrs₂⟩ := List.map_eq_cons_iff.mp hrs₁
    obtain ⟨vs, hlen, rfl⟩ := ih rs₂ hrs₂
    obtain rfl : ch₁ = .pri := h₁
    obtain rfl : ch₂ = .sec := h₂
    exact ⟨(v₁, v₂) :: vs, by rw [List.length_cons, hlen], rfl⟩

/-- The voltages after polls are the readings of the last one. -/
theorem publish_polls (vs : List (Nat × Nat)) (v : Nat × Nat) (voltage : Fin 2 → Int) (h : vs.getLast? = some v) :
    ((vs.flatMap pollReadings).foldl publish voltage) 0 = v.1 ∧ ((vs.flatMap pollReadings).foldl publish voltage) 1 = v.2 := by
  obtain ⟨us, rfl⟩ := List.getLast?_eq_some_iff.mp h
  rw [List.flatMap_append, List.flatMap_singleton, List.foldl_append]
  exact ⟨rfl, rfl⟩

/-- The firmware answers the polls that are delivered to it. -/
theorem rounds_answered (b : Build) {fw : Firmware} (hready : fw.Ready) (hempty : fw.rxSize = 0) (rs : List Firmware.Round)
    (n : Nat) (hdel : Firmware.Delivered (polls n) fw (Firmware.rounds b rs fw)) :
    ∃ fw' vs, Firmware.rounds b rs fw = .ok fw' ∧ PollsAnswered rs n vs fw fw' := by
  have hstart : Firmware.Polled fw (fun x => ∃ r ∈ rs, x.2 = (r.sample x.1).reading) fw :=
    ⟨hready, [], (List.append_nil _).symm, fun _ => ⟨Firmware.received_nil hempty, [], by simp, by simp, rfl, by simp⟩⟩
  have hend := Firmware.rounds_polled b rs (fun r hr _ => ⟨r, hr, rfl⟩) hstart
  cases hrun : Firmware.rounds b rs fw with
  | error e =>
    rw [hrun] at hend
    cases e with
    | hang => exact hend.elim
    | restart fw' =>
      obtain ⟨t, hgot, hoff⟩ := hend
      have hpre : fw.uart.got ++ t <+: fw.uart.got ++ polls n := hgot ▸ hdel.restarts fw' hrun
      exact absurd ⟨n, (List.prefix_append_right_inj _).mp hpre⟩ hoff
  | ok fw' =>
    rw [hrun] at hend
    obtain ⟨-, t, hgot, hpoll⟩ := hend
    obtain rfl : t = polls n := List.append_cancel_left (hgot.symm.trans (hdel.returns fw' hrun))
    obtain ⟨-, readings, hread, hput, hask, hP⟩ := hpoll ⟨n, List.prefix_refl _⟩
    obtain ⟨vs, hlen, rfl⟩ := exists_polls n readings (hask.trans (asked_polls n))
    refine ⟨fw', vs, rfl, hlen, fun v hv => ⟨?_, ?_⟩, hread, hput⟩
    · exact hP (.pri, v.1) (List.mem_flatMap.mpr ⟨v, hv, List.mem_cons_self⟩)
    · exact hP (.sec, v.2) (List.mem_flatMap.mpr ⟨v, hv, List.mem_cons_of_mem _ List.mem_cons_self⟩)

/-- Polls that are delivered to `Run_Config` in any number of calls are answered, and when what the firmware has printed since is
delivered to the daemon in any reads that fit its empty buffer, the shared memory has the readings of the last poll. What it has
printed is all that it puts: a byte that the transmit ring refuses is lost on the way, and then nothing is said. -/
theorem voltage_protocol (b : Build) {board : Firmware.Board} {envs : List Firmware.LoopIn} {fw : Firmware}
    (hmain : Firmware.main b board envs = .ok fw) (hempty : fw.rxSize = 0) (rs : List Firmware.Round)
    (hlt : ∀ r ∈ rs, ∀ ch, (r.sample ch).reading < 2 ^ 31) (n : Nat)
    (hdel : Firmware.Delivered (polls n) fw (Firmware.rounds b rs fw)) :
    ∃ fw' vs, Firmware.rounds b rs fw = .ok fw' ∧ PollsAnswered rs n vs fw fw' ∧
      ∀ (d : Daemon) (cs : List (List UInt8)), d.readBuf.length = readBufSize → d.readBuf.head? = some 0 →
        fw'.uart.put = fw.uart.put ++ cs.flatten →
        (∀ pre c d', pre ++ [c] <+: cs → Daemon.receiveAll pre d = some d' → d'.Fits c) →
        ∃ d', Daemon.receiveAll cs d = some d' ∧
          ∀ v, vs.getLast? = some v → d'.pmon.shared.voltage 0 = v.1 ∧ d'.pmon.shared.voltage 1 = v.2 := by
  obtain ⟨fw', vs, hrun, hans⟩ := rounds_answered b (Firmware.main_ready hmain) hempty rs n hdel
  refine ⟨fw', vs, hrun, hans, ?_⟩
  intro d cs hlen h0 hput hfit
  have hstream : cs.flatten = (vs.flatMap pollReadings).flatMap reply := List.append_cancel_left (hput.symm.trans hans.put)
  have hsmall : ∀ r ∈ vs.flatMap pollReadings, r.2 < 2 ^ 31 := by
    intro r hr
    obtain ⟨v, hv, hr⟩ := List.mem_flatMap.mp hr
    obtain ⟨⟨r₁, hr₁, h₁⟩, r₂, hr₂, h₂⟩ := hans.sampled v hv
    simp only [pollReadings, List.mem_cons, List.not_mem_nil, or_false] at hr
    rcases hr with rfl | rfl
    · exact h₁ ▸ hlt r₁ hr₁ .pri
    · exact h₂ ▸ hlt r₂ hr₂ .sec
  obtain ⟨hvolt, hknown⟩ := replies_spec d.serialFd _ hsmall [] d.pmon (by simp [Blank]) (by simp)
  rw [List.nil_append, ← hstream] at hvolt hknown
  have hnul : ∀ c ∈ cs, (0 : UInt8) ∉ c := by
    intro c hc h
    have hmem : (0 : UInt8) ∈ (vs.flatMap pollReadings).flatMap reply := hstream ▸ List.mem_flatten_of_mem hc h
    obtain ⟨r, -, hr⟩ := List.mem_flatMap.mp hmem
    exact nul_not_mem_reply r hr
  obtain ⟨d', hd', hf⟩ := Daemon.receiveAll_followed hlen h0 cs hnul hfit hknown
  refine ⟨d', hd', ?_⟩
  intro v hv
  rw [hf.pmon, hvolt]
  exact publish_polls vs v _ hv

/-! ## A run with one poll -/

namespace Firmware

/-- Bytes that are all in the receive ring are read, and no others. -/
theorem runConfig_delivered (b : Build) {t : List UInt8} (ht : t.length < 256) {fw₀ fw : Firmware} (h : fw.Ready)
    (hgot : fw.uart.got = fw₀.uart.got) (hu : fw.usart = []) (hw : Waiting t fw.port) : Delivered t fw₀ (runConfig b fw) := by
  have hk : KeptByChars b
      (fun fw => fw.Ready ∧ fw.usart = [] ∧ ∃ u, u.length < 256 ∧ Waiting u fw.port ∧ fw.uart.got ++ u = fw₀.uart.got ++ t)
      (fun fw => ∃ u, fw.uart.got ++ u = fw₀.uart.got ++ t) :=
    { ready := fun _ h => h.1
      char := by
        rintro fw ⟨hfw, hu, u, hlt, hw, he⟩ hr
        obtain ⟨hready, hread, -⟩ := getChar_spec hfw hr
        obtain ⟨u', rfl, hw'⟩ := getChar_waiting hw hu hr
        have he' : fw.uart.getChar.2.got ++ u' = fw₀.uart.got ++ t :=
          by rw [hread, ← he, List.append_assoc, List.singleton_append]
        refine (receiveChar_ends hready b fw.uart.getChar.1).mono ?_ ?_
        · rintro fw' ⟨-, heff⟩
          obtain ⟨out, hp⟩ := heff.port
          refine ⟨heff.ready, hp.usart_nil hu, u', ?_, hp.waiting ?_ hw', by rw [heff.got]; exact he'⟩ <;>
          · rw [List.length_cons] at hlt
            omega
        · rintro (fw' | _) he
          · exact ⟨u', by rw [he.2.got]; exact he'⟩
          · exact he.elim }
  have hend := runConfig_ends hk ⟨h, hu, t, ht, hw, by rw [hgot]⟩
  refine ⟨fun fw' hx => ?_, fun fw' hx => ?_⟩
  · rw [hx] at hend
    obtain ⟨⟨-, hu', u, -, hw', he⟩, h0⟩ := hend
    rw [waiting_nil hw' hu' h0, List.append_nil] at he
    exact he
  · rw [hx] at hend
    exact hend

/-- What comes before a call of `Run_Config` reads nothing. -/
theorem enter_spec (r : Round) {fw : Firmware} (h : fw.Ready) : (r.enter fw).Ready ∧ Serves (fw.uart, r.usart) []
    (r.enter fw).port ∧
    (r.enter fw).usart = r.usart.drop r.interrupts := by
  have hint : ∀ n (fw : Firmware), fw.Ready → (Nat.iterate interrupt n fw).Ready ∧
      Serves fw.port [] (Nat.iterate interrupt n fw).port ∧ (Nat.iterate interrupt n fw).usart = fw.usart.drop n := by
    intro n
    induction n with
    | zero => exact fun fw h => ⟨h, .refl _, rfl⟩
    | succ n ih =>
      intro fw h
      have hp := interrupt_printed fw
      obtain ⟨hr, hs, hu⟩ := ih fw.interrupt (hp.quiet h).ready
      refine ⟨hr, hp.port.trans hs, ?_⟩
      rw [Function.iterate_succ_apply, hu, ← List.drop_tail]
      rfl
  exact hint r.interrupts _ (h.congr rfl)

/-- One call of `Run_Config` reads the bytes that have arrived before it. -/
theorem round_delivered (b : Build) (r : Round) {t : List UInt8} (ht : t.length < 256) {fw : Firmware} (h : fw.Ready)
    (hall : r.usart.drop r.interrupts = []) (hw : Waiting t (fw.uart, r.usart)) : Delivered t fw (rounds b [r] fw) := by
  obtain ⟨hr, hp, hu⟩ := enter_spec r h
  have hrun : rounds b [r] fw = runConfig b (r.enter fw) := bind_pure _
  rw [hrun]
  exact runConfig_delivered b ht hr hp.got (hu.trans hall) (hp.waiting ht hw)

/-- A board to which nothing arrives while it starts. -/
def quietBoard : Board :=
  { dev := { pages := fun _ _ => 0xFF, buf := fun _ _ => 0, programs := [] }, busy := 0, delays := [], id := 0, adcIn := [],
    usart := [] }

/-- A poll arrives when the channels read 12000 mV and 11990 mV. -/
def onePoll : Round where
  sample := fun
    | .pri => { volts := 0x9000, vCalib := 4096, voltOffset := 24864 }
    | .sec => { volts := 0x9000, vCalib := 4096, voltOffset := 24874 }
  usart := (polls 1).map fun c => { txbufe := true, rx := some c }
  interrupts := 20

end Firmware

/-- One poll: the readings of 12000 mV and 11990 mV arrive in the shared memory. -/
theorem voltage_protocol_one_poll :
    let b : Build := { date := [], time := [], order4 := .leftFirst, order2 := .leftFirst }
    ∃ fw fw' d', Firmware.main b Firmware.quietBoard [] = .ok fw ∧ Firmware.rounds b [Firmware.onePoll] fw = .ok fw' ∧
      Daemon.receiveAll [fw'.uart.put.drop fw.uart.put.length] (Daemon.initial (List.replicate readBufSize 0)) = some d' ∧
      d'.pmon.shared.voltage 0 = 12000 ∧ d'.pmon.shared.voltage 1 = 11990 := by
  intro b
  obtain ⟨fw, he, hs, hw, hu⟩ := Firmware.start_waiting b Firmware.quietBoard (by decide)
  have hmain : Firmware.main b Firmware.quietBoard [] = .ok fw := by rw [Firmware.main, he]; rfl
  have hwait : Waiting (polls 1) (fw.uart, Firmware.onePoll.usart) := by
    obtain ⟨q, hq, hnil⟩ := hw
    obtain ⟨rfl, -⟩ := List.append_eq_nil_iff.mp hnil.symm
    exact ⟨[], hq, show polls 1 = [] ++ Firmware.onePoll.usart.filterMap UsartIn.rx by decide⟩
  have hreading : ∀ ch, (Firmware.onePoll.sample ch).reading = match ch with | .pri => 12000 | .sec => 11990 := by
    rintro (_ | _) <;> decide
  have hlt : ∀ r ∈ [Firmware.onePoll], ∀ ch, (r.sample ch).reading < 2 ^ 31 := by
    intro r hr ch
    rw [List.mem_singleton.mp hr, hreading]
    cases ch <;> decide
  obtain ⟨fw', vs, hrun, hans, hdaemon⟩ := voltage_protocol b hmain hs.rxSize [Firmware.onePoll] hlt 1
    (Firmware.round_delivered b Firmware.onePoll (by decide) hs.ready (by decide) hwait)
  obtain ⟨v, rfl⟩ := List.length_eq_one_iff.mp hans.length
  obtain ⟨⟨r₁, hr₁, h₁⟩, r₂, hr₂, h₂⟩ := hans.sampled v List.mem_cons_self
  obtain rfl := List.mem_singleton.mp hr₁
  obtain rfl := List.mem_singleton.mp hr₂
  obtain ⟨v₁, v₂⟩ := v
  obtain rfl : v₁ = 12000 := h₁.trans (hreading .pri)
  obtain rfl : v₂ = 11990 := h₂.trans (hreading .sec)
  have hprinted : fw'.uart.put = fw.uart.put ++ bytes "\nVoltage: Pri 12000 mV\r\n\nVoltage: Sec 11990 mV\r\n" := by
    rw [hans.put]
    simp [pollReadings, reply, decimal]
    decide
  obtain ⟨d', hd', hv⟩ := hdaemon (Daemon.initial (List.replicate readBufSize 0)) [fw'.uart.put.drop fw.uart.put.length]
    List.length_replicate rfl (by rw [hprinted]; simp) (Daemon.single_fits rfl (by rw [hprinted, List.drop_left]; decide))
  obtain ⟨h0, h1⟩ := hv (12000, 11990) rfl
  exact ⟨fw, fw', d', hmain, hrun, hd', h0, h1⟩

end PowerMonitor
