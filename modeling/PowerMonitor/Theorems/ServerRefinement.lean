import PowerMonitor.Lemmas.StartUp
import PowerMonitor.Theorems.LineSplit

/-!
# The firmware is the server

Every run of the firmware, whatever calls of the handler come between its steps, is a run of the server on the lines of the bytes that
were read and on the samples of the converters: what the firmware stores, shows and uses is what the server does, and it puts what the
server writes behind its banner.

The runs are `Reaches`: calls of `UartBuffer_Interrupt` come whole, the converters always get ready, and the cell behind `MsgBuf` is
there for a line of 256 bytes.
-/

namespace PowerMonitor

open CString Outcome

namespace Firmware

/-! ## A byte -/

variable {s : Server} {fw fw' : Firmware}

/-- Nothing happens to the server. -/
theorem Represents.mirrors (h : Represents s fw') (hspi : fw'.ee.spi = fw.ee.spi) (hport : fw'.port = fw.port) :
    Mirrors s [] fw fw' := ⟨h, hspi, by rw [hport]; exact .refl _⟩

/-- A byte makes the server read the line that it completes. -/
theorem receiveChar_mirrors (hready : fw.Ready) (h : Represents s fw) (b : Build) (c : UInt8) :
    let run := (Server.machine b).run ((fw.looks c).map .line) s
    Ends (Mirrors run.1 run.2 fw) (Stop.Restarted fun fw' => Mirrors run.1 run.2 fw fw' ∧
      ∃ l, fw.looks c = [l] ∧ Query.ofLine l = .restart) (receiveChar b c fw) := by
  intro run
  unfold receiveChar
  by_cases hc : c = cr ∨ c = lf
  · by_cases h0 : fw.rxSize = 0
    · have hl : fw.looks c = [] := if_neg fun h' => h'.2 h0
      have hrun : run = (s, []) := by rw [show run = (Server.machine b).run ((fw.looks c).map .line) s from rfl, hl]; rfl
      rw [if_pos hc, if_neg (not_not.mpr h0), hrun]
      exact h.mirrors rfl rfl
    · have hl : fw.looks c = [text fw.msgBuf] := if_pos ⟨hc, h0⟩
      have hrun : run = (Server.machine b).step (.line (text fw.msgBuf)) s := by
        rw [show run = (Server.machine b).run ((fw.looks c).map .line) s from rfl, hl]
        rfl
      rw [if_pos hc, if_pos h0, hrun, hl]
      refine Ends.bind ((handleLine_mirrors hready h b (text fw.msgBuf)).mono (fun _ h => h) ?_) ?_
      · rintro (fw₁ | -) he
        · obtain ⟨hq, hf⟩ := he
          have hstep : ((Server.machine b).step (.line (text fw.msgBuf)) s).1 = s := by
            show (Server.answer b (Query.ofLine (text fw.msgBuf)) s).1 = s
            rw [hq]
            rfl
          rw [hstep]
          exact ⟨hf, _, rfl, hq⟩
        · exact he
      · rintro fw₁ ⟨-, hf⟩
        exact ⟨⟨hf.represents.stored, hf.represents.used, hf.represents.sample⟩, hf.spi, hf.port⟩
  · have hl : fw.looks c = [] := if_neg fun h' => hc h'.1
    have hrun : run = (s, []) := by rw [show run = (Server.machine b).run ((fw.looks c).map .line) s from rfl, hl]; rfl
    rw [if_neg hc, hrun]
    split
    · exact ⟨⟨h.stored, h.used, h.sample⟩, rfl, .refl _⟩
    · exact h.mirrors rfl rfl

/-! ## Runs -/

/-- The firmware is where the server is after the inputs `xs`: they are the lines read and the samples taken, and what was written
stands behind the banner. -/
structure Serving (b : Build) (board : Board) (xs : List ServerIn) (fw : Firmware) : Prop where
  lines : xs.filterMap ServerIn.line? = dispatched fw.uart.got
  samples : ∃ k, xs.filterMap ServerIn.sample? = (List.range k).map board.sample ∧
    fw.ee.spi.adcIn = board.adcIn.drop (16 + 12 * k)
  represents : Represents ((Server.machine b).run xs (Server.boot board.words)).1 fw
  put : fw.uart.put = banner ++ ((Server.machine b).run xs (Server.boot board.words)).2

variable {b : Build} {board : Board} {xs : List ServerIn}

/-- A step that reads no line. -/
theorem Serving.quiet (h : Serving b board xs fw)
    (hf : Mirrors ((Server.machine b).run xs (Server.boot board.words)).1 [] fw fw') : Serving b board xs fw' := by
  obtain ⟨k, hk, ha⟩ := h.samples
  have hgot : fw'.uart.got = fw.uart.got := hf.port.got
  have hput : fw'.uart.put = fw.uart.put ++ [] := hf.port.put
  refine ⟨by rw [hgot]; exact h.lines, ⟨k, hk, by rw [hf.spi]; exact ha⟩, hf.represents, ?_⟩
  rw [hput, List.append_nil]
  exact h.put

/-- Other calls of `UartBuffer_Interrupt` put nothing and read nothing. -/
theorem Serving.served {p : Port} {out : List UInt8} {q : Port} (h : Serving b board xs fw) (hs : Serves p out fw.port)
    (hq : Serves p out q) : Serving b board xs { fw with uart := q.1, usart := q.2 } := by
  have hgot : q.1.got = fw.uart.got := hq.got.trans hs.got.symm
  have hput : q.1.put = fw.uart.put := hq.put.trans hs.put.symm
  refine ⟨?_, h.samples, ⟨h.represents.stored, h.represents.used, h.represents.sample⟩, ?_⟩
  · show _ = dispatched q.1.got
    rw [hgot]
    exact h.lines
  · show q.1.put = _
    rw [hput]
    exact h.put

/-- A byte is read: the server reads the line it completes. -/
theorem Serving.char (h : Serving b board xs fw) (ht : Tracked board.arrivals fw) (hr : fw.uart.rxReady ≠ 0) :
    let xs' := xs ++ (fw.looks fw.uart.getChar.1).map .line
    Ends (Serving b board xs') (Stop.Restarted fun fw' => Serving b board xs' fw' ∧
      ∃ l, xs'.getLast? = some (.line l) ∧ Query.ofLine l = .restart)
      (receiveChar b fw.uart.getChar.1 { fw with uart := fw.uart.getChar.2 }) := by
  intro xs'
  obtain ⟨ha, -, hgot⟩ := ht.getChar hr
  have hrep : Represents ((Server.machine b).run xs (Server.boot board.words)).1 { fw with uart := fw.uart.getChar.2 } :=
    ⟨h.represents.stored, h.represents.used, h.represents.sample⟩
  have hput : fw.uart.getChar.2.put = fw.uart.put := by rw [UartBuffer.getChar_ready hr]
  have hlooks := looks_eq ha.received fw.uart.getChar.1
  have hf := receiveChar_mirrors ha.ready hrep b fw.uart.getChar.1
  have hserving : ∀ fw' : Firmware,
      Mirrors ((Server.machine b).run ((fw.looks fw.uart.getChar.1).map .line)
          ((Server.machine b).run xs (Server.boot board.words)).1).1
        ((Server.machine b).run ((fw.looks fw.uart.getChar.1).map .line)
          ((Server.machine b).run xs (Server.boot board.words)).1).2
        { fw with uart := fw.uart.getChar.2 } fw' → Serving b board xs' fw' := by
    intro fw' hf
    have hgot' : fw'.uart.got = fw.uart.got ++ [fw.uart.getChar.1] := (show fw'.uart.got = _ from hf.port.got).trans hgot
    have hput' : fw'.uart.put = fw.uart.getChar.2.put ++ _ := hf.port.put
    have hline : ((fw.looks fw.uart.getChar.1).map ServerIn.line).filterMap ServerIn.line? = fw.looks fw.uart.getChar.1 := by
      rw [List.filterMap_map]
      exact List.filterMap_some
    have hsample : ((fw.looks fw.uart.getChar.1).map ServerIn.line).filterMap ServerIn.sample? = [] := by
      rw [List.filterMap_map]
      exact List.filterMap_none _
    obtain ⟨k, hk, hadc⟩ := h.samples
    refine ⟨?_, ⟨k, ?_, by rw [hf.spi]; exact hadc⟩, ?_, ?_⟩
    · rw [hgot', hlooks, List.filterMap_append, h.lines, hline]
      rfl
    · rw [List.filterMap_append, hk, hsample, List.append_nil]
    · rw [Transducer.run_append]
      exact hf.represents
    · rw [hput', hput, h.put, Transducer.run_append, List.append_assoc]
  refine hf.mono hserving ?_
  rintro (fw' | -) he
  · obtain ⟨hf, l, hl, hq⟩ := he
    refine ⟨hserving fw' hf, l, ?_, hq⟩
    have hl' : fw.looks fw.uart.getChar.1 = [l] := hl
    rw [show xs' = xs ++ (fw.looks fw.uart.getChar.1).map .line from rfl, hl', List.map_singleton, List.getLast?_concat]
  · exact he

/-- `EE_Cache_Check` is none of the server's business. -/
theorem Serving.check (h : Serving b board xs fw) (hready : fw.Ready) : Ends (Serving b board xs) (fun _ => False) fw.cacheCheck := by
  obtain ⟨r, ee, he, -⟩ := EE.cacheCheck_resident hready.ee
  obtain ⟨fw', he', -, hset, -, hlive, -⟩ := cacheCheck_spec hready
  have hfw : fw' = ({ fw with ee := ee } : Firmware).log .cacheCheck := by
    rw [cacheCheck, he] at he'
    exact (Except.ok.inj he').symm
  have hadc : ee.spi.adcIn = fw.ee.spi.adcIn := (EE.cacheCheck_talk hready.ee.wf.idle he).adcIn
  obtain ⟨k, hk, ha⟩ := h.samples
  rw [he']
  refine ⟨by rw [hfw]; exact h.lines, ⟨k, hk, ?_⟩, ⟨?_, ?_, ?_⟩, by rw [hfw]; exact h.put⟩
  · rw [hfw]
    exact hadc.trans ha
  · rw [hset]
    exact h.represents.stored
  · rw [hlive]
    exact h.represents.used
  · rw [hfw]
    exact h.represents.sample

/-- The server reads a sample of both supplies. -/
theorem Serving.sample (h : Serving b board xs fw) (hready : fw.Ready) :
    ∃ v, Serving b board (xs ++ [.sample v]) fw.runChannels := by
  obtain ⟨k, hk, ha⟩ := h.samples
  obtain ⟨hv, ha'⟩ := runChannels_sample hready ha
  have hq := runChannels_quiet hready
  refine ⟨board.sample k, ?_, ⟨k + 1, ?_, ha'⟩, ?_, ?_⟩
  · rw [List.filterMap_append, h.lines]
    exact List.append_nil _
  · rw [List.filterMap_append, hk, List.range_succ, List.map_append]
    rfl
  · rw [Transducer.run_snoc]
    exact ⟨fun p ch => (hq.setting p ch).trans (h.represents.stored p ch), fun p ch => (hq.live p ch).trans (h.represents.used p ch), hv⟩
  · rw [Transducer.run_snoc]
    show fw.uart.put = banner ++ (((Server.machine b).run xs (Server.boot board.words)).2 ++ [])
    rw [List.append_nil]
    exact h.put

/-- A run of the firmware is a run of the server. -/
theorem Reaches.serving {r : Except Stop Firmware} (hr : Reaches b board r) :
    Ends (fun fw => ∃ xs, Serving b board xs fw)
      (Stop.Restarted fun fw => ∃ xs l, Serving b board (xs ++ [.line l]) fw ∧ Query.ofLine l = .restart) r := by
  induction hr with
  | start hs =>
    obtain ⟨fw, he, hst, hp⟩ := start_poweredUp b board
    rw [he] at hs
    cases hs with
    | ok h hq =>
      have hgot : fw.uart.got = [] := h.got
      refine ⟨[], Serving.served ⟨?_, ⟨0, rfl, ?_⟩, hp.represents, ?_⟩ h hq⟩
      · rw [hgot]
        rfl
      · exact hp.talk.adcIn.trans (boardInit_adcIn board)
      · exact hp.put.trans (List.append_nil _).symm
  | @beat fw _ beat ih =>
    obtain ⟨xs, h⟩ := ih
    exact ⟨xs, h.quiet (Represents.mirrors ⟨h.represents.stored, h.represents.used, h.represents.sample⟩ rfl rfl)⟩
  | @interrupt fw hfw ih =>
    obtain ⟨xs, h⟩ := ih
    exact ⟨xs, h.quiet (h.represents.printed hfw.tracked.assembled.ready (interrupt_printed fw))⟩
  | @read fw r hfw hr hs ih =>
    obtain ⟨xs, h⟩ := ih
    have hc := h.char hfw.tracked hr
    generalize receiveChar b fw.uart.getChar.1 { fw with uart := fw.uart.getChar.2 } = x at hc hs
    cases hs with
    | ok hp hq => exact ⟨_, Serving.served hc hp hq⟩
    | restart hp hq =>
      obtain ⟨hserv, l, hl, hq'⟩ := hc
      obtain ⟨zs, hzs⟩ := List.getLast?_eq_some_iff.mp hl
      rw [hzs] at hserv
      exact ⟨zs, l, hserv.served hp hq, hq'⟩
    | hang => exact hc
  | @check fw hfw ih =>
    obtain ⟨xs, h⟩ := ih
    exact (h.check hfw.tracked.assembled.ready).mono (fun _ h => ⟨xs, h⟩) fun _ hf => hf.elim
  | @sample fw hfw ih =>
    obtain ⟨xs, h⟩ := ih
    obtain ⟨v, hv⟩ := h.sample hfw.tracked.assembled.ready
    exact ⟨_, hv⟩

/-- Wherever a run has come to, in `Cmd_Restart` too, the firmware is where the server is. -/
theorem Reaches.serving_at {r : Except Stop Firmware} (hr : Reaches b board r) {fw : Firmware} (hfw : RunAt r fw) :
    ∃ xs, Serving b board xs fw := by
  refine hfw.of_ends (hr.serving.mono (fun _ h => h) ?_)
  rintro (fw | -) h
  · obtain ⟨xs, l, h, -⟩ := h
    exact ⟨xs ++ [.line l], h⟩
  · exact h

/-! ## The transmitter -/

/-- While the USART still reports, and has TXBUFE set whenever it does, no byte waits to be sent. What has been sent is always the
first part of what was put. -/
structure Prompt (p : Port) : Prop where
  ready : ∀ x ∈ p.2, x.txbufe = true
  sent : p.2 ≠ [] → p.1.txIn = p.1.txOut ∧ p.1.sent = p.1.put
  sent_prefix : p.1.sent <+: p.1.put

/-- Without a report the first half of `UartBuffer_Interrupt` sends nothing, and with one there is nothing to send. -/
theorem Prompt.interrupt {u : UartBuffer} {us : List UsartIn} (h : Prompt (u, us)) :
    Prompt (u.interrupt (us.headD .quiet), us.tail) := by
  have ht : u.transmit (us.headD .quiet).txbufe = u := by
    rcases us with _ | ⟨x, us⟩
    · exact if_neg fun h' => absurd h'.1 (by decide)
    · exact if_neg fun h' => h'.2 (h.sent (List.cons_ne_nil x us)).1.symm
  have hsent : us.tail ≠ [] → u.txIn = u.txOut ∧ u.sent = u.put :=
    fun hne => h.sent fun h0 => hne (by rw [show us = [] from h0]; rfl)
  unfold UartBuffer.interrupt UartBuffer.receive
  rw [ht]
  split <;> exact ⟨fun y hy => h.ready y (List.mem_of_mem_tail hy), hsent, h.sent_prefix⟩

/-- A byte that is put is sent at once: the store is made, since `TxOut` and `TxIn` are equal. -/
theorem Prompt.putChar {u : UartBuffer} {us : List UsartIn} (h : Prompt (u, us)) (c : UInt8) :
    Prompt (u.putChar (us.headD .quiet) c, us.tail) := by
  have hready : ∀ y ∈ us.tail, y.txbufe = true := fun y hy => h.ready y (List.mem_of_mem_tail hy)
  rcases us with _ | ⟨x, us⟩
  · -- no report: the byte may be stored, and it is not sent
    have hquiet : (u.putChar .quiet c).sent = u.sent ∧ (u.putChar .quiet c).put = u.put ++ [c] := by
      have hstore : (u.store c).sent = u.sent ∧ (u.store c).put = u.put ++ [c] := by
        unfold UartBuffer.store
        dsimp only
        split <;> exact ⟨rfl, rfl⟩
      exact hstore
    refine ⟨hready, fun hne => absurd rfl hne, ?_⟩
    show (u.putChar .quiet c).sent <+: (u.putChar .quiet c).put
    rw [hquiet.1, hquiet.2]
    exact h.sent_prefix.trans (List.prefix_append u.put [c])
  · obtain ⟨htx, hsent⟩ : u.txIn = u.txOut ∧ u.sent = u.put := h.sent (List.cons_ne_nil x us)
    have hx : x.txbufe = true := h.ready x List.mem_cons_self
    have hstore : u.store c = { u with
        txBuffer := Function.update u.txBuffer u.txIn c, txIn := (u.txIn + 1) % bufferSize, put := u.put ++ [c],
        accepted := u.accepted ++ [c] } := if_pos (by omega)
    have hnext : u.txOut ≠ (u.txIn + 1) % bufferSize := by
      rw [htx, bufferSize]
      omega
    have hcell : Function.update u.txBuffer u.txIn c u.txOut = c := by rw [← htx, Function.update_self]
    have hlaw : ((u.store c).transmit x.txbufe).txIn = ((u.store c).transmit x.txbufe).txOut ∧
        ((u.store c).transmit x.txbufe).sent = ((u.store c).transmit x.txbufe).put := by
      rw [hstore, UartBuffer.transmit, if_pos ⟨hx, hnext⟩]
      refine ⟨?_, ?_⟩
      · show (u.txIn + 1) % bufferSize = (u.txOut + 1) % bufferSize
        rw [htx]
      · show u.sent ++ [Function.update u.txBuffer u.txIn c u.txOut] = u.put ++ [c]
        rw [hcell, hsent]
    have hafter : ((u.store c).interrupt x).txIn = ((u.store c).interrupt x).txOut ∧
        ((u.store c).interrupt x).sent = ((u.store c).interrupt x).put := by
      unfold UartBuffer.interrupt UartBuffer.receive
      split <;> exact hlaw
    refine ⟨hready, fun _ => hafter, ?_⟩
    show ((u.store c).interrupt x).sent <+: ((u.store c).interrupt x).put
    rw [hafter.2]

theorem Prompt.serves {p q : Port} {out : List UInt8} (h : Prompt p) (hs : Serves p out q) : Prompt q := by
  induction hs with
  | refl => exact h
  | interrupt _ ih => exact ih.interrupt
  | putChar _ c ih => exact ih.putChar c

/-- What the calls of the port keep holds of the port wherever a run leads to. -/
theorem Reaches.port {P : Port → Prop} (hserves : ∀ {p q out}, P p → Serves p out q → P q)
    (hget : ∀ {u us}, P (u, us) → u.rxReady ≠ 0 → P (u.getChar.2, us)) (h0 : P (.init, board.usart)) {r : Except Stop Firmware}
    (hr : Reaches b board r) : Ends (fun fw => P fw.port) (Stop.Restarted fun fw => P fw.port) r := by
  have hserved : ∀ {p x r}, P p → Served p x r → Ends (fun _ => True) (Stop.Restarted fun _ => True) x →
      Ends (fun fw => P fw.port) (Stop.Restarted fun fw => P fw.port) r := by
    intro p x r hp hs hx
    cases hs with
    | ok _ hq => exact hserves hp hq
    | restart _ hq => exact hserves hp hq
    | hang => exact hx
  induction hr with
  | start hs =>
    obtain ⟨fw, he, -⟩ := start_poweredUp b board
    refine hserved h0 hs ?_
    rw [he]
    trivial
  | beat _ _ ih => exact ih
  | @interrupt fw _ ih => exact hserves ih (.interrupt (.refl _))
  | @read fw r hfw hr hs ih =>
    obtain ⟨ha, -, -⟩ := hfw.tracked.getChar hr
    refine hserved (hget ih hr) hs ((receiveChar_ends ha.ready b fw.uart.getChar.1).mono (fun _ _ => trivial) ?_)
    rintro (fw' | -) he
    · trivial
    · exact he
  | @check fw hfw ih =>
    refine ((cacheCheck_port fw).and hfw.tracked.assembled.cacheCheck).mono (fun fw' h => ?_) fun _ hf => hf.2.elim
    rw [h.1]
    exact ih
  | sample _ ih => exact ih

/-- The invariant holds wherever a run leads to. -/
theorem Reaches.prompt (hb : ∀ x ∈ board.usart, x.txbufe = true) {r : Except Stop Firmware} (hr : Reaches b board r) :
    Ends (fun fw => Prompt fw.port) (Stop.Restarted fun fw => Prompt fw.port) r := by
  refine hr.port Prompt.serves ?_ ⟨hb, fun _ => ⟨rfl, rfl⟩, List.prefix_refl []⟩
  intro u us h hready
  rw [UartBuffer.getChar_ready hready]
  exact ⟨h.ready, h.sent, h.sent_prefix⟩

/-- Where the USART is ready whenever it reports, what has been sent is the first part of what was put. -/
theorem Reaches.sent_prefix (hb : ∀ x ∈ board.usart, x.txbufe = true) {r : Except Stop Firmware} (hr : Reaches b board r)
    {fw : Firmware} (hfw : RunAt r fw) : fw.uart.sent <+: fw.uart.put := by
  refine hfw.of_ends ((hr.prompt hb).mono (fun _ h => h.sent_prefix) ?_)
  rintro (fw | -) h
  · exact h.sent_prefix
  · exact h

end Firmware

namespace Server

theorem answer_stored (b : Build) (q : Query) (s : Server) (p : Param) (ch : Channel) :
    (answer b q s).1.stored p ch = (stores p ch q).getD (s.stored p ch) := by
  rcases q with _ | _ | ⟨what, _ | c⟩ | ⟨q, _ | ⟨c, _ | w⟩⟩ | _
  case param.some.some =>
    rw [stores, answer, set_stored]
    split <;> rfl
  all_goals rfl

theorem answer_used (b : Build) (q : Query) (s : Server) (p : Param) (ch : Channel) :
    (answer b q s).1.used p ch = (stores p ch q).getD (s.used p ch) := by
  rcases q with _ | _ | ⟨what, _ | c⟩ | ⟨q, _ | ⟨c, _ | w⟩⟩ | _
  case param.some.some =>
    rw [stores, answer, set_used]
    split <;> rfl
  all_goals rfl

/-- A word that every line may set, and nothing else, is the one that was set last. -/
theorem run_commanded (b : Build) {f : Server → BitVec 32} {p : Param} {ch : Channel}
    (hl : ∀ q s, f (answer b q s).1 = (stores p ch q).getD (f s)) (hs : ∀ v s, f { s with sample := v } = f s)
    (xs : List ServerIn) (s : Server) :
    f ((machine b).run xs s).1 = (commanded p ch (xs.filterMap ServerIn.line?)).getD (f s) := by
  induction xs using List.reverseRecOn with
  | nil => rfl
  | append_singleton xs x ih =>
    rw [Transducer.run_snoc, List.filterMap_append]
    rcases x with l | v
    · show f (answer b (Query.ofLine l) _).1 = (commanded p ch (_ ++ [l])).getD (f s)
      rw [hl, ih]
      cases h : stores p ch (Query.ofLine l) with
      | none => simp [commanded, h]
      | some w => simp [commanded, h]
    · show f { ((machine b).run xs s).1 with sample := v } = (commanded p ch (_ ++ [])).getD (f s)
      rw [hs, ih, List.append_nil]

end Server

namespace Firmware

variable {b : Build} {board : Board} {r : Except Stop Firmware} {fw : Firmware}

/-- The EEPROM holds what the lines have made of a parameter. -/
theorem Reaches.setting_eq (hr : Reaches b board r) (hfw : RunAt r fw) (p : Param) (ch : Channel) :
    fw.setting p ch = ((Server.commanded p ch (dispatched fw.uart.got)).getD (board.words p ch)).toNat := by
  obtain ⟨xs, h⟩ := hr.serving_at hfw
  rw [← h.lines, h.represents.stored, Server.run_commanded b (f := fun s => s.stored p ch)
    (fun q s => Server.answer_stored b q s p ch) (fun _ _ => rfl)]
  rfl

/-- The channel's structure holds what the lines have made of a parameter. -/
theorem Reaches.live_eq (hr : Reaches b board r) (hfw : RunAt r fw) (p : Param) (ch : Channel) :
    fw.live p ch =
      asLive p ((Server.commanded p ch (dispatched fw.uart.got)).getD (Server.shown p (board.words p ch))).toNat := by
  obtain ⟨xs, h⟩ := hr.serving_at hfw
  rw [← h.lines, h.represents.used, Server.run_commanded b (f := fun s => s.used p ch)
    (fun q s => Server.answer_used b q s p ch) (fun _ _ => rfl)]
  rfl

end Firmware

/-- In every state of every run, that in which `Cmd_Restart` is entered too, each parameter is what the last of the lines read has made
of it: in the EEPROM, and in its channel's structure. Before such a line it is the flash's word, and in the structure what that word
stands for. -/
theorem settings_follow_stream {b : Build} {board : Firmware.Board} {r : Except Stop Firmware} (hr : Firmware.Reaches b board r)
    {fw : Firmware} (hfw : Firmware.RunAt r fw) (p : Param) (ch : Channel) :
    let word := Server.commanded p ch (dispatched fw.uart.got)
    fw.setting p ch = (word.getD (board.words p ch)).toNat ∧
      fw.live p ch = Firmware.asLive p (word.getD (Server.shown p (board.words p ch))).toNat :=
  ⟨hr.setting_eq hfw p ch, hr.live_eq hfw p ch⟩

namespace Firmware

/-- No more reports of the USART than the start handles: after a pass of the main loop all bytes are read, or the board has
restarted without an overflow. -/
theorem main_drained (b : Build) {board : Board} (hlen : board.usart.length ≤ 41) (env : LoopIn) :
    Ends (fun fw => fw.uart.got = board.arrivals ∧ ¬ fw.uart.Overflowed) (Stop.Restarted fun fw => ¬ fw.uart.Overflowed)
      (main b board [env]) := by
  have harrivals : board.arrivals.length ≤ 41 := (List.length_filterMap_le _ _).trans hlen
  obtain ⟨fw₀, he₀, hst, -, hus⟩ := start_waiting b board (harrivals.trans_lt (by decide))
  have hmain : main b board [env] = loop b [env] fw₀ := by
    rw [main, he₀]
    rfl
  have hdrained := loop_ends (drained_by_loop b) [env] ⟨hst.ready, by rw [hus]; exact List.drop_eq_nil_of_le hlen⟩
  rw [← hmain] at hdrained
  have htaken : ∀ fw : Firmware, Arriving board.arrivals fw.port → fw.usart = [] →
      fw.uart.taken = board.arrivals ∧ ¬ fw.uart.Overflowed := by
    intro fw ha hu
    have ht : fw.uart.taken = board.arrivals := by
      have hstream := ha.stream
      rw [show fw.port.2 = [] from hu, List.filterMap_nil, List.append_nil] at hstream
      exact hstream
    refine ⟨ht, ?_⟩
    rw [UartBuffer.Overflowed, ht]
    omega
  refine ((hdrained.and (main_reaches b board [env]).tracked).and (main_settled b board [] env)).mono ?_ ?_
  · rintro fw ⟨⟨⟨-, hu⟩, htracked⟩, hready⟩
    obtain ⟨ht, ho⟩ := htaken fw htracked.arriving hu
    exact ⟨((htracked.arriving.got_prefix ho).2.2 hready).trans ht, ho⟩
  · rintro (fw | -) ⟨⟨hu, hstopped⟩, -⟩
    · exact (htaken fw hstopped.arriving hu).2
    · exact hu

/-- Where no line of them is a restart, the pass returns. -/
theorem main_returns (b : Build) {board : Board} (hlen : board.usart.length ≤ 41)
    (hfree : Lines.Free restarts (linesOf board.arrivals)) (env : LoopIn) :
    ∃ fw, main b board [env] = .ok fw ∧ fw.uart.got = board.arrivals := by
  have hend := (main_drained b hlen env).and (main_reaches b board [env]).tracked
  cases hx : main b board [env] with
  | ok fw =>
    rw [hx] at hend
    exact ⟨fw, rfl, hend.1.1⟩
  | error e =>
    rw [hx] at hend
    rcases e with fw | -
    · obtain ⟨ho, hstopped⟩ := hend
      obtain ⟨ls, l, hl, -, hrestart⟩ := hstopped.entered.restart
      obtain ⟨hgot, htaken, -⟩ := hstopped.arriving.got_prefix ho
      have hprefix := linesOf_prefix (hgot.trans htaken)
      have hmem : l ∈ linesOf board.arrivals := by
        refine hprefix.subset ?_
        rw [hl]
        exact List.mem_append_right ls (List.mem_singleton_self l)
      rw [hfree l hmem] at hrestart
      cases hrestart
    · exact hend.1.elim

end Firmware

/-- "calib pri 5" and "offset sec -7", each with its carriage return, in one pass. -/
theorem settings_follow_stream_two_lines :
    let b : Build := { date := [], time := [], order4 := .leftFirst, order2 := .leftFirst }
    let board : Firmware.Board := .receiving (bytes "calib pri 5\roffset sec -7\r")
    ∃ fw, Firmware.main b board [{ ticks := 0, interrupts := 0 }] = .ok fw ∧ fw.setting .calib .pri = 5 ∧
      fw.live .offset .sec = -7 := by
  intro b board
  have harr : board.arrivals = bytes "calib pri 5\roffset sec -7\r" := by decide
  have hcalib : Server.commanded .calib .pri (dispatched (bytes "calib pri 5\roffset sec -7\r")) = some 5 := by decide
  have hoffset : Server.commanded .offset .sec (dispatched (bytes "calib pri 5\roffset sec -7\r")) = some (-7) := by decide
  have hfree : Lines.Free restarts (linesOf board.arrivals) := by
    rw [harr]
    decide
  obtain ⟨fw, hmain, hgot⟩ := Firmware.main_returns b (show board.usart.length ≤ 41 by decide) hfree { ticks := 0, interrupts := 0 }
  have hreach := Firmware.main_reaches b board [{ ticks := 0, interrupts := 0 }]
  rw [hmain] at hreach
  have hpri := (settings_follow_stream hreach (.step fw) .calib .pri).1
  have hsec := (settings_follow_stream hreach (.step fw) .offset .sec).2
  rw [hgot, harr, hcalib] at hpri
  rw [hgot, harr, hoffset] at hsec
  exact ⟨fw, hmain, hpri, hsec⟩

end PowerMonitor
