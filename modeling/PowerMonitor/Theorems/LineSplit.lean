import PowerMonitor.Lemmas.Lookups

/-!
# The lines are those of the stream

The serial port is served by the main loop, by every `UartBuffer_PutChar` of a reply, and by `USART0_Handler`. A run here allows these
calls everywhere (`Reaches`), and `main` is one of its runs. Each call of `UartBuffer_Interrupt` is a whole one: a handler that runs
inside the direct call of the main loop is not among them. Whatever their order, `CP_Lookup` gets the lines of the bytes that have
arrived, up to the first restart: `Cmd_Restart` does not return to the bytes behind it.
-/

namespace PowerMonitor

open CString Outcome

namespace Firmware

/-! ## Runs -/

/-- The same result, with other calls of `UartBuffer_Interrupt` before, between and behind the bytes that the port `p` is
handed. -/
inductive Served (p : Port) : Except Stop Firmware → Except Stop Firmware → Prop where
  | ok {fw : Firmware} {out : List UInt8} {q : Port} (h : Serves p out fw.port) (hq : Serves p out q) :
      Served p (.ok fw) (.ok { fw with uart := q.1, usart := q.2 })
  | restart {fw : Firmware} {out : List UInt8} {q : Port} (h : Serves p out fw.port) (hq : Serves p out q) :
      Served p (.error (.restart fw)) (.error (.restart { fw with uart := q.1, usart := q.2 }))
  | hang : Served p (.error .hang) (.error .hang)

/-- What a run can lead to: after the set-up, the steps of the main loop in any order, `Run_Config` byte by byte, where a byte is
tested for and taken in one step. The handler comes between the steps, and between the bytes that a reply puts. -/
inductive Reaches (b : Build) (board : Board) : Except Stop Firmware → Prop where
  | start {r : Except Stop Firmware} (hs : Served (.init, board.usart) (start b board) r) : Reaches b board r
  | beat {fw : Firmware} (h : Reaches b board (.ok fw)) (beat : Heartbeat) : Reaches b board (.ok { fw with beat := beat })
  | interrupt {fw : Firmware} (h : Reaches b board (.ok fw)) : Reaches b board (.ok fw.interrupt)
  | read {fw : Firmware} {r : Except Stop Firmware} (h : Reaches b board (.ok fw)) (hr : fw.uart.rxReady ≠ 0)
      (hs : Served (fw.uart.getChar.2, fw.usart) (receiveChar b fw.uart.getChar.1 { fw with uart := fw.uart.getChar.2 }) r) :
      Reaches b board r
  | check {fw : Firmware} (h : Reaches b board (.ok fw)) : Reaches b board fw.cacheCheck
  | sample {fw : Firmware} (h : Reaches b board (.ok fw)) : Reaches b board (.ok fw.runChannels)

/-- The state that a run has come to, between two steps or in `Cmd_Restart`. -/
inductive RunAt : Except Stop Firmware → Firmware → Prop where
  | step (fw : Firmware) : RunAt (.ok fw) fw
  | restart (fw : Firmware) : RunAt (.error (.restart fw)) fw

theorem RunAt.of_ends {P : Firmware → Prop} {r : Except Stop Firmware} {fw : Firmware} (hfw : RunAt r fw)
    (h : Ends P (Stop.Restarted P) r) : P fw := by
  cases hfw with
  | step => exact h
  | restart => exact h

/-- The bytes that the USART reports. -/
def Board.arrivals (board : Board) : List UInt8 := board.usart.filterMap UsartIn.rx

/-! ## The invariant -/

/-- `Run_Config` has read a part of the stream `s`. -/
structure Tracked (s : List UInt8) (fw : Firmware) : Prop where
  assembled : Assembled fw.uart.got fw
  arriving : Arriving s fw.port

/-- `Cmd_Restart` was entered behind a part of the stream `s`. -/
structure Stopped (s : List UInt8) (fw : Firmware) : Prop where
  entered : Entered fw.uart.got fw
  arriving : Arriving s fw.port

/-- Calls of `UartBuffer_Interrupt` read nothing. -/
theorem Served.tracked {p : Port} {r r' : Except Stop Firmware} {s : List UInt8} (hs : Served p r r') (hp : Arriving s p)
    (hi : p.1.Indexed) (h : Ends (Assembled p.1.got) (Stop.Restarted (Entered p.1.got)) r) :
    Ends (Tracked s) (Stop.Restarted (Stopped s)) r' := by
  cases hs with
  | @ok fw out q _ hq =>
    have ha : Assembled p.1.got fw := h
    have hgot : q.1.got = p.1.got := hq.got
    have hready : ({ fw with uart := q.1, usart := q.2 } : Firmware).Ready :=
      ⟨ha.ready.ee, ha.ready.token, ha.ready.pri, ha.ready.sec, ha.ready.msgBuf, (hq.backlog hi).1⟩
    refine ⟨?_, hq.arriving hp⟩
    rw [hgot]
    exact ha.congr hready ⟨rfl, rfl, rfl⟩
  | @restart fw out q _ hq =>
    have he : Entered p.1.got fw := h
    have hgot : q.1.got = p.1.got := hq.got
    refine ⟨?_, hq.arriving hp⟩
    rw [hgot]
    exact ⟨he.lookups, he.restart⟩
  | hang => exact h.elim

/-- The call of `UartBuffer_GetChar` takes the next byte of the stream. -/
theorem Tracked.getChar {s : List UInt8} {fw : Firmware} (h : Tracked s fw) (hr : fw.uart.rxReady ≠ 0) :
    Assembled fw.uart.got { fw with uart := fw.uart.getChar.2 } ∧ Arriving s (fw.uart.getChar.2, fw.usart) ∧
      fw.uart.getChar.2.got = fw.uart.got ++ [fw.uart.getChar.1] := by
  obtain ⟨hready, hgot, -⟩ := getChar_spec h.assembled.ready hr
  refine ⟨h.assembled.congr hready ⟨rfl, rfl, rfl⟩, ⟨h.arriving.receives.getChar, ?_⟩, hgot⟩
  rw [UartBuffer.getChar_taken]
  exact h.arriving.stream

/-- The invariant holds wherever a run leads to. -/
theorem Reaches.tracked {b : Build} {board : Board} {r : Except Stop Firmware} (h : Reaches b board r) :
    Ends (Tracked board.arrivals) (Stop.Restarted (Stopped board.arrivals)) r := by
  induction h with
  | start hs =>
    obtain ⟨fw, he, ha, -⟩ := start_assembled b board
    refine hs.tracked ⟨UartBuffer.init_receives, List.nil_append _⟩ UartBuffer.init_indexed ?_
    rw [he]
    exact ha
  | @beat fw _ beat ih =>
    obtain ⟨ha, hp⟩ := ih
    exact ⟨ha.congr (ha.ready.congr rfl) ⟨rfl, rfl, rfl⟩, hp⟩
  | @interrupt fw _ ih =>
    obtain ⟨ha, hp⟩ := ih
    have hi := interrupt_printed fw
    have hgot : fw.interrupt.uart.got = fw.uart.got := hi.port.got
    refine ⟨?_, hi.port.arriving hp⟩
    rw [hgot]
    exact ha.congr (hi.quiet ha.ready).ready hi.sameLines
  | @read fw r _ hr hs ih =>
    obtain ⟨ha, hp, hgot⟩ := ih.getChar hr
    refine hs.tracked hp ha.ready.index ?_
    rw [hgot]
    exact ha.char b _
  | @check fw _ ih =>
    obtain ⟨ha, hp⟩ := ih
    refine ha.cacheCheck.mono (fun fw' h' => ?_) fun _ hf => hf.elim
    have hgot : fw'.uart.got = fw.uart.got := congrArg (fun p : Port => p.1.got) h'.2
    exact ⟨by rw [hgot]; exact h'.1, by rw [h'.2]; exact hp⟩
  | sample _ ih => exact ⟨ih.assembled.runChannels, ih.arriving⟩

/-! ## The main loop -/

/-- Every state of a run of the main loop is one that a run leads to. -/
theorem reaches_by_loop (b : Build) (board : Board) :
    KeptByLoop b (fun fw => Reaches b board (.ok fw)) fun fw => Reaches b board (.error (.restart fw)) where
  ready _ h := h.tracked.assembled.ready
  char fw h hr := by
    obtain ⟨ha, -, -⟩ := h.tracked.getChar hr
    have hend := receiveChar_ends ha.ready b fw.uart.getChar.1
    have hread : ∀ r, Served (fw.uart.getChar.2, fw.usart)
        (receiveChar b fw.uart.getChar.1 { fw with uart := fw.uart.getChar.2 }) r → Reaches b board r := fun r => h.read hr
    cases hx : receiveChar b fw.uart.getChar.1 { fw with uart := fw.uart.getChar.2 } with
    | ok fw' =>
      rw [hx] at hend hread
      obtain ⟨out, hp⟩ := hend.2.port
      exact hread (.ok fw') (.ok hp hp)
    | error e =>
      rw [hx] at hend hread
      cases e with
      | hang => exact hend.elim
      | restart fw' =>
        obtain ⟨out, hp⟩ := hend.2.port
        exact hread (.error (.restart fw')) (.restart hp hp)
  beat _ hb h := h.beat hb
  interrupt _ h := h.interrupt
  check fw h := by
    obtain ⟨fw', he, -⟩ := cacheCheck_spec h.tracked.assembled.ready
    have hcheck := h.check
    rw [he] at hcheck ⊢
    exact hcheck
  channels _ h := h.sample

/-- Every run of `main` is such a run. -/
theorem main_reaches (b : Build) (board : Board) (envs : List LoopIn) : Reaches b board (main b board envs) := by
  obtain ⟨fw, he, -, out, hp⟩ := start_assembled b board
  have hstart : Reaches b board (.ok fw) := by
    refine .start ?_
    rw [he]
    exact .ok hp hp
  have hend := loop_ends (reaches_by_loop b board) envs hstart
  rw [main, he]
  show Reaches b board (loop b envs fw)
  cases hx : loop b envs fw with
  | ok fw' =>
    rw [hx] at hend
    exact hend
  | error e =>
    rw [hx] at hend
    cases e with
    | restart fw' => exact hend
    | hang => exact hend.elim

/-- Between two passes of the main loop nothing is unread. -/
theorem main_settled (b : Build) (board : Board) (envs : List LoopIn) (env : LoopIn) :
    Ends (fun fw => fw.uart.rxReady = 0) (Stop.Restarted fun _ => True) (main b board (envs ++ [env])) := by
  obtain ⟨fw, he, h, -⟩ := start_assembled b board
  rw [main, he]
  refine (loop_settled (ready_by_loop b) envs env h.ready).mono (fun _ h' => h'.2) fun _ h' => h'

/-! ## Streams of lines -/

/-- A stream of bytes that are not NUL, in lines that leave room for a terminator in `MsgBuf`. -/
structure Plain (s : List UInt8) : Prop where
  nul : (0 : UInt8) ∉ s
  line : ∀ l ∈ Lines.pieces isEol s ++ [Lines.rest isEol s], l.length ≤ 255

/-- The strings passed to `CP_Lookup` are the lines of the bytes read, and these are the first of the bytes that have arrived. -/
structure InStep (fw : Firmware) : Prop where
  lookups : fw.lookups = linesOf fw.uart.got
  read : fw.uart.got <+: fw.uart.taken

/-- The strings passed to `CP_Lookup` are all the lines of the bytes that have arrived, up to the first restart. -/
def Complete (fw : Firmware) : Prop := fw.lookups = Lines.upTo restarts (linesOf fw.uart.taken)

/-- `CP_Lookup` gets the lines of a part of such a stream as they are. -/
theorem Plain.dispatched_eq {s t : List UInt8} (h : Plain s) (ht : t <+: s) : dispatched t = linesOf t := by
  refine (List.map_congr_left fun l hl => ?_).trans (List.map_id _)
  have hp : l ∈ Lines.pieces isEol s := (Lines.pieces_prefix ht).subset (List.mem_of_mem_filter hl)
  have hlen := h.line l (List.mem_append_left _ hp)
  have hnul : (0 : UInt8) ∉ l := fun h0 => h.nul (Lines.mem_of_mem_pieces hp h0)
  rw [List.take_of_length_le (by simp only [rxSizeMax]; omega), text_of_not_mem hnul]
  rfl

theorem Tracked.split {s : List UInt8} {fw : Firmware} (hs : Plain s) (h : Tracked s fw) (ho : ¬ fw.uart.Overflowed) :
    fw.InStep ∧ (fw.uart.rxReady = 0 → fw.Complete) := by
  obtain ⟨hgot, htaken, hall⟩ := h.arriving.got_prefix ho
  have hlook : fw.lookups = linesOf fw.uart.got := h.assembled.lookups.trans (hs.dispatched_eq (hgot.trans htaken))
  refine ⟨⟨hlook, hgot⟩, fun hr => ?_⟩
  rw [Complete, ← hall hr, Lines.upTo_free h.assembled.returned]
  exact hlook

theorem Stopped.split {s : List UInt8} {fw : Firmware} (hs : Plain s) (h : Stopped s fw) (ho : ¬ fw.uart.Overflowed) :
    fw.InStep ∧ fw.Complete := by
  obtain ⟨hgot, htaken, -⟩ := h.arriving.got_prefix ho
  have hlook : fw.lookups = linesOf fw.uart.got := h.entered.lookups.trans (hs.dispatched_eq (hgot.trans htaken))
  obtain ⟨ls, l, hlines, hfree, hrest⟩ := h.entered.restart
  obtain ⟨rest, hmore⟩ := linesOf_prefix hgot
  refine ⟨⟨hlook, hgot⟩, ?_⟩
  rw [Complete, ← hmore, hlines, List.append_assoc, List.singleton_append, Lines.upTo_stop hfree hrest, hlook, hlines]

/-- After any number of passes of the main loop, every line that has arrived has been looked up. -/
theorem main_complete {board : Board} (hs : Plain board.arrivals) (b : Build) (envs : List LoopIn) (env : LoopIn) :
    Ends (fun fw => ¬ fw.uart.Overflowed → fw.Complete) (Stop.Restarted fun fw => ¬ fw.uart.Overflowed → fw.Complete)
      (main b board (envs ++ [env])) := by
  refine ((main_reaches b board (envs ++ [env])).tracked.and (main_settled b board envs env)).mono ?_ ?_
  · rintro fw ⟨h, hr⟩ ho
    exact (h.split hs ho).2 hr
  · rintro (fw | _) ⟨h, -⟩
    · exact fun ho => (h.split hs ho).2
    · exact h.elim

end Firmware

open Firmware

/-- Whenever and wherever the bytes of the lines arrive, without an overflow of the receive ring: the strings passed to
`CP_Lookup` are the lines of the bytes read, in order, each once and as it was sent; they are all the lines that have arrived
when no byte is unread, and all up to the first restart when `Cmd_Restart` is entered. -/
theorem lines_are_split {b : Build} {board : Board} (hs : Plain board.arrivals) {r : Except Stop Firmware}
    (hr : Reaches b board r) :
    Ends (fun fw => ¬ fw.uart.Overflowed → fw.InStep ∧ (fw.uart.rxReady = 0 → fw.Complete))
      (Stop.Restarted fun fw => ¬ fw.uart.Overflowed → fw.InStep ∧ fw.Complete) r := by
  refine hr.tracked.mono (fun _ h => h.split hs) ?_
  rintro (fw | _) h
  · exact h.split hs
  · exact h.elim

/-! ## A line behind a restart -/

/-- A board with an erased flash to which the bytes `s` arrive. -/
def Firmware.Board.receiving (s : List UInt8) : Board :=
  { dev := { pages := fun _ _ => 0xFF, buf := fun _ _ => 0, programs := [] }, busy := 0, delays := [], id := 0, adcIn := [],
    usart := s.map fun c => { txbufe := true, rx := some c } }

/-- Two lines, the first of them behind a carriage return and a line feed. -/
theorem lines_are_split_two_lines :
    let b : Build := { date := [], time := [], order4 := .leftFirst, order2 := .leftFirst }
    Ends (fun fw => ¬ fw.uart.Overflowed → fw.InStep ∧ (fw.uart.rxReady = 0 → fw.Complete))
      (Stop.Restarted fun fw => ¬ fw.uart.Overflowed → fw.InStep ∧ fw.Complete)
      (main b (.receiving (bytes "ver\r\nvolt pri\rca"))
        [{ ticks := 0, interrupts := 0 }, { ticks := 10, interrupts := 2 }]) := by
  intro b
  have hs : Plain (Board.receiving (bytes "ver\r\nvolt pri\rca")).arrivals := ⟨by decide, by decide⟩
  have hr := main_reaches b (.receiving (bytes "ver\r\nvolt pri\rca"))
    [{ ticks := 0, interrupts := 0 }, { ticks := 10, interrupts := 2 }]
  generalize main b _ _ = r at hr ⊢
  exact lines_are_split hs hr

namespace Firmware

/-- A USART that has reported everything takes no part in a run. -/
theorem drained_by_loop (b : Build) : KeptByLoop b (fun fw => fw.Ready ∧ fw.usart = []) fun fw => fw.usart = [] where
  ready _ h := h.1
  char fw h hr := by
    refine (receiveChar_ends (getChar_spec h.1 hr).1 b fw.uart.getChar.1).mono (fun fw' he => ⟨he.2.ready, ?_⟩) ?_
    · obtain ⟨out, hp⟩ := he.2.port
      exact hp.usart_nil h.2
    · rintro (fw' | _) he
      · obtain ⟨out, hp⟩ := he.2.port
        exact hp.usart_nil h.2
      · exact he
  beat _ _ h := ⟨h.1.congr rfl, h.2⟩
  interrupt fw h := ⟨((interrupt_printed fw).quiet h.1).ready, (interrupt_printed fw).port.usart_nil h.2⟩
  check fw h := by
    refine (((ready_by_loop b).check fw h.1).and (cacheCheck_port fw)).mono (fun fw' h' => ⟨h'.1, ?_⟩) fun _ hf => hf.1
    rw [show fw'.usart = fw.usart from congrArg Prod.snd h'.2]
    exact h.2
  channels _ h := ⟨(runChannels_quiet h.1).ready, h.2⟩

end Firmware

/-- "restart" and "ver", each with its carriage return, in one pass: "ver" is never looked up. -/
theorem restart_drops_lines :
    let b : Build := { date := [], time := [], order4 := .leftFirst, order2 := .leftFirst }
    ∃ fw, main b (.receiving (bytes "restart\rver\r")) [{ ticks := 0, interrupts := 0 }] = .error (.restart fw) ∧
      ¬ fw.uart.Overflowed ∧ fw.uart.taken = bytes "restart\rver\r" ∧ fw.lookups = [bytes "restart"] ∧
      fw.lookups ≠ linesOf fw.uart.taken := by
  intro b
  set board : Board := .receiving (bytes "restart\rver\r") with hboard
  have harr : board.arrivals = bytes "restart\rver\r" := by decide
  have hplain : Plain board.arrivals := by
    rw [harr]
    exact ⟨by decide, by decide⟩
  obtain ⟨fw₀, he₀, hst, -, hus⟩ := start_waiting b board (by decide)
  have hdrained := loop_ends (drained_by_loop b) [{ ticks := 0, interrupts := 0 }] ⟨hst.ready, by rw [hus]; decide⟩
  have hmain : main b board [{ ticks := 0, interrupts := 0 }] = loop b [{ ticks := 0, interrupts := 0 }] fw₀ := by
    rw [main, he₀]
    rfl
  have htracked := (main_reaches b board [{ ticks := 0, interrupts := 0 }]).tracked
  have hsettled := main_settled b board [] { ticks := 0, interrupts := 0 }
  rw [List.nil_append] at hsettled
  rw [← hmain] at hdrained
  -- everything has arrived, which is too little to overflow the ring
  have htaken : ∀ fw : Firmware, Arriving board.arrivals fw.port → fw.usart = [] →
      fw.uart.taken = bytes "restart\rver\r" ∧ ¬ fw.uart.Overflowed := by
    intro fw ha hu
    have ht : fw.uart.taken = bytes "restart\rver\r" := by
      have hstream := ha.stream
      rw [show fw.port.2 = [] from hu, List.filterMap_nil, List.append_nil, harr] at hstream
      exact hstream
    refine ⟨ht, ?_⟩
    have hlen : fw.uart.taken.length = 12 := by
      rw [ht]
      decide
    rw [UartBuffer.Overflowed]
    omega
  cases hx : main b board [{ ticks := 0, interrupts := 0 }] with
  | ok fw =>
    rw [hx] at htracked hsettled hdrained
    obtain ⟨ht, ho⟩ := htaken fw htracked.arriving hdrained.2
    obtain ⟨-, -, hall⟩ := htracked.arriving.got_prefix ho
    have hfree := htracked.assembled.returned
    rw [hall hsettled, ht] at hfree
    exact absurd hfree (by decide)
  | error e =>
    rw [hx] at htracked hdrained
    cases e with
    | hang => exact htracked.elim
    | restart fw =>
      obtain ⟨ht, ho⟩ := htaken fw htracked.arriving hdrained
      have hlook : fw.lookups = [bytes "restart"] := by
        have hc := (htracked.split hplain ho).2
        rw [Complete, ht] at hc
        rw [hc]
        decide
      refine ⟨fw, rfl, ho, ht, hlook, ?_⟩
      rw [hlook, ht]
      decide

end PowerMonitor
