import PowerMonitor.Theorems.DaemonSession
import PowerMonitor.Theorems.ServerRefinement

/-!
# What the daemon asks of the board

All that the daemon ever writes are its two start-up commands and its polls. Whatever is lost of them on the way, the board takes no
part of them for a setting; and where the start-up commands do arrive, the board restarts, whatever line it was in the middle of.
-/

namespace PowerMonitor

open CString Outcome

/-! ## What the daemon writes -/

namespace Act

/-- What an action hands to `write`, as far as the call takes it. -/
def written : Act → List UInt8
  | .write _ data rv => data.take rv.toNat
  | _ => []

/-- What the daemon has to say. -/
def phrases : List (List UInt8) := [bytes "ver\r\n", bytes "restart\r\n", PMon.single]

/-- The phrases do without the letters "b" and "f". -/
theorem phrases_letters : ∀ s ∈ phrases, (98 : UInt8) ∉ s ∧ (102 : UInt8) ∉ s := by decide

/-- An action that writes says one of the phrases. -/
def Proper : Act → Prop
  | .write _ data _ => data ∈ phrases
  | _ => True

theorem Proper.written_mem {a : Act} (h : a.Proper) {c : UInt8} (hc : c ∈ a.written) : ∃ p ∈ phrases, c ∈ p := by
  cases a with
  | write fd data rv => exact ⟨data, h, List.mem_of_mem_take hc⟩
  | _ => cases hc

end Act

namespace Daemon

open PMon

/-- Everything that the calls of `write` have taken. -/
def said (d : Daemon) : List UInt8 := d.pmon.trace.flatMap Act.written

theorem clearActs_proper : ∀ a ∈ clearActs, a.Proper := by simp [clearActs, Act.Proper]

theorem connectToPort_proper (env : SysIn) (d : Daemon) :
    ∃ new, (d.connectToPort env).pmon.trace = d.pmon.trace ++ new ∧ ∀ a ∈ new, a.Proper := by
  by_cases ho : Opens env
  · obtain ⟨-, ht⟩ := connectToPort_open ho d
    exact ⟨_, ht, by simp [Act.Proper, Act.phrases]⟩
  · obtain ⟨-, pre, hpre, ht⟩ := connectToPort_fail ho d
    refine ⟨_, ht, ?_⟩
    rcases hpre with rfl | rfl <;> simp [Act.Proper]

theorem pollActs_proper (env : SysIn) (d : Daemon) : ∀ a ∈ pollActs env d, a.Proper := by
  unfold pollActs
  split
  · rw [List.forall_mem_cons]
    refine ⟨by simp [Act.Proper, Act.phrases], ?_⟩
    split
    · rw [List.forall_mem_append]
      exact ⟨clearActs_proper, by simp [Act.Proper]⟩
    · simp
  · simp

/-- Step lemma: what a step says. -/
theorem step_proper {env : SysIn} {d d' : Daemon} (h : d.step env = some d') :
    ∃ new, d'.pmon.trace = d.pmon.trace ++ new ∧ ∀ a ∈ new, a.Proper := by
  by_cases hfd : 0 ≤ d.serialFd
  · obtain ⟨rest, ht, hcases⟩ := iteration_cases (step_of_nonneg hfd h)
    refine ⟨_, ht, ?_⟩
    rw [List.forall_mem_append, List.forall_mem_cons]
    refine ⟨pollActs_proper env d, trivial, ?_⟩
    rcases hcases with ⟨-, rfl, -⟩ | ⟨-, -, -, rfl, -⟩ | ⟨-, -, -, n, acc, hacc, rfl, -⟩
    · simp
    · rw [List.forall_mem_cons, List.forall_mem_append]
      exact ⟨trivial, clearActs_proper, by simp [Act.Proper]⟩
    · rw [List.forall_mem_cons]
      exact ⟨trivial, fun a ha => hacc a ha ▸ trivial⟩
  · obtain ⟨new, ht, hnew⟩ := connectToPort_proper env (d.act .sleep)
    refine ⟨.sleep :: new, ?_, List.forall_mem_cons.mpr ⟨trivial, hnew⟩⟩
    rw [step_of_neg (by omega) h, ht]
    simp [act, PMon.act]

/-- Run lemma: what the steps of a run say. -/
theorem steps_proper (envs : List SysIn) : ∀ {d d' : Daemon}, (∀ a ∈ d.pmon.trace, a.Proper) → steps envs d = some d' →
    ∀ a ∈ d'.pmon.trace, a.Proper := by
  induction envs with
  | nil =>
    intro d d' h hd
    obtain rfl := Option.some.inj hd
    exact h
  | cons env envs ih =>
    intro d d' h hd
    obtain ⟨d₁, hd₁, hd⟩ := Option.bind_eq_some_iff.mp hd
    obtain ⟨new, ht, hnew⟩ := step_proper hd₁
    refine ih ?_ hd
    rw [ht, List.forall_mem_append]
    exact ⟨h, hnew⟩

/-- The start says nothing. -/
theorem startup_proper (start : StartupIn) (buf : List UInt8) : ∀ a ∈ ((initial buf).startup start).2.pmon.trace, a.Proper := by
  by_cases hok : SharedMemoryOk start
  · rw [(startup_attached hok buf).2]
    split <;> simp [clearActs, Act.Proper]
  · rw [(startup_fail hok buf).2]
    simp [clearActs, Act.Proper]

theorem main_proper {start : StartupIn} {connect : SysIn} {envs : List SysIn} {buf : List UInt8} {d : Daemon}
    (h : main start connect envs buf = some d) : ∀ a ∈ d.pmon.trace, a.Proper := by
  by_cases hup : ((initial buf).startup start).1 = true
  · rw [main, if_pos hup] at h
    refine steps_proper envs ?_ h
    obtain ⟨new, ht, hnew⟩ := connectToPort_proper connect ((initial buf).startup start).2
    rw [ht, List.forall_mem_append]
    exact ⟨startup_proper start buf, hnew⟩
  · rw [main, if_neg hup] at h
    obtain rfl := Option.some.inj h
    exact startup_proper start buf

end Daemon

/-! ## What the board can hear in it -/

namespace Firmware

/-- Every byte that the port has, has read or may still get is one of some bytes. -/
structure Hears (P : UInt8 → Prop) (p : Port) : Prop where
  ring : ∀ i, P (p.1.rxBuffer i)
  got : ∀ c ∈ p.1.got, P c
  usart : ∀ x ∈ p.2, ∀ c, x.rx = some c → P c

variable {P : UInt8 → Prop} {p q : Port} {out : List UInt8}

theorem Hears.interrupt {u : UartBuffer} {us : List UsartIn} (h : Hears P (u, us)) :
    Hears P (u.interrupt (us.headD .quiet), us.tail) := by
  have htransmit : (u.transmit (us.headD .quiet).txbufe).rxBuffer = u.rxBuffer ∧ (u.transmit (us.headD .quiet).txbufe).got = u.got := by
    unfold UartBuffer.transmit
    split <;> exact ⟨rfl, rfl⟩
  have hhead : ∀ c, (us.headD .quiet).rx = some c → P c := by
    rcases us with _ | ⟨x, us⟩
    · exact fun c hc => absurd hc (by simp [UsartIn.quiet])
    · exact h.usart x List.mem_cons_self
  refine ⟨fun i => ?_, ?_, fun x hx => h.usart x (List.mem_of_mem_tail hx)⟩
  · unfold UartBuffer.interrupt UartBuffer.receive
    split
    · next c hc =>
      dsimp only
      rw [htransmit.1]
      by_cases hi : i = (u.transmit (us.headD .quiet).txbufe).rxIn
      · rw [hi, Function.update_self]
        exact hhead c hc
      · rw [Function.update_of_ne hi]
        exact h.ring i
    · rw [htransmit.1]
      exact h.ring i
  · show ∀ c ∈ (u.interrupt (us.headD .quiet)).got, P c
    rw [(UartBuffer.interrupt_got u _).1]
    exact h.got

theorem Hears.serves (h : Hears P p) (hs : Serves p out q) : Hears P q := by
  refine hs.keeps (P := Hears P) ?_ (fun _ _ => Hears.interrupt) h
  intro u us c h
  unfold UartBuffer.store
  dsimp only
  split <;> exact ⟨h.ring, h.got, h.usart⟩

/-- Whatever is lost on the way, the bytes that are read are bytes that arrived, or the zeros that the ring began with. -/
theorem Reaches.hears {b : Build} {board : Board} (h0 : P 0) (harr : ∀ c ∈ board.arrivals, P c) {r : Except Stop Firmware}
    (hr : Reaches b board r) : Ends (fun fw => Hears P fw.port) (Stop.Restarted fun fw => Hears P fw.port) r := by
  refine hr.port Hears.serves ?_ ⟨fun _ => h0, by simp [UartBuffer.init], fun x hx c hc => harr c (List.mem_filterMap.mpr ⟨x, hx, hc⟩)⟩
  intro u us h hready
  rw [UartBuffer.getChar_ready hready]
  refine ⟨h.ring, ?_, h.usart⟩
  rw [List.forall_mem_append]
  exact ⟨h.got, by simpa using h.ring u.rxOut⟩

end Firmware

/-! ## Settings -/

namespace Server

/-- Only a line that begins with the name of a parameter stores one. -/
theorem stores_eq_none {l : List UInt8} (hc : ¬ bytes "calib" <+: l) (ho : ¬ bytes "offset" <+: l) (p : Param) (ch : Channel) :
    stores p ch (Query.ofLine l) = none := by
  unfold Query.ofLine
  cases hw : Query.words.find? fun w => w.1 <+: l with
  | none => rfl
  | some w =>
    have hpre : w.1 <+: l := by simpa using List.find?_some hw
    have hmem := List.mem_of_find?_eq_some hw
    simp only [Query.words, List.mem_cons, List.not_mem_nil, or_false] at hmem
    rcases hmem with rfl | rfl | rfl | rfl | rfl | rfl | rfl | rfl
    case inr.inr.inr.inr.inr.inl => exact absurd hpre hc
    case inr.inr.inr.inr.inr.inr.inl => exact absurd hpre ho
    all_goals rfl

/-- Without the letters "b" and "f" no line stores a parameter. -/
theorem commanded_eq_none {t : List UInt8} (h : ∀ c ∈ t, c ≠ 98 ∧ c ≠ 102) (p : Param) (ch : Channel) :
    commanded p ch (dispatched t) = none := by
  have hline : ∀ l ∈ dispatched t, stores p ch (Query.ofLine l) = none := by
    intro l hl
    obtain ⟨m, hm, rfl⟩ := List.mem_map.mp hl
    have hsub : ∀ c ∈ text (m.take rxSizeMax), c ∈ t := fun c hc =>
      Lines.mem_of_mem_pieces (List.mem_of_mem_filter hm) (List.mem_of_mem_take ((List.takeWhile_prefix _).subset hc))
    refine stores_eq_none (fun hp => ?_) (fun hp => ?_) p ch
    · exact (h 98 (hsub 98 (hp.subset (by decide)))).1 rfl
    · exact (h 102 (hsub 102 (hp.subset (by decide)))).2 rfl
  rw [commanded, List.filterMap_eq_nil_iff.mpr hline]
  rfl

end Server

/-- Where the bytes that arrive are bytes that the daemon has written, in any order, with any repetitions and losses, every parameter
stays what the flash makes of it, in the EEPROM and in its channel's structure, also where they make the board restart. -/
theorem daemon_keeps_settings {start : PMon.StartupIn} {connect : SysIn} {envs : List SysIn} {buf : List UInt8} {d : Daemon}
    (hd : Daemon.main start connect envs buf = some d) {b : Build} {board : Firmware.Board}
    (hsaid : ∀ c ∈ board.arrivals, c ∈ d.said) {r : Except Stop Firmware} (hr : Firmware.Reaches b board r) {fw : Firmware}
    (hfw : Firmware.RunAt r fw) (p : Param) (ch : Channel) :
    fw.setting p ch = (board.words p ch).toNat ∧
      fw.live p ch = Firmware.asLive p (Server.shown p (board.words p ch)).toNat := by
  have hletters : ∀ c ∈ board.arrivals, c ≠ 98 ∧ c ≠ 102 := by
    intro c hc
    obtain ⟨a, ha, hca⟩ := List.mem_flatMap.mp (hsaid c hc)
    obtain ⟨s, hs, hcs⟩ := (Daemon.main_proper hd a ha).written_mem hca
    obtain ⟨hb, hf⟩ := Act.phrases_letters s hs
    exact ⟨fun he => hb (he ▸ hcs), fun he => hf (he ▸ hcs)⟩
  have hheard : Firmware.Hears (fun c => c ≠ 98 ∧ c ≠ 102) fw.port := by
    refine hfw.of_ends (P := fun fw => Firmware.Hears _ fw.port) ?_
    exact hr.hears (by decide) hletters
  have hnone := Server.commanded_eq_none hheard.got p ch
  rw [show fw.port.1.got = fw.uart.got from rfl] at hnone
  exact ⟨by rw [hr.setting_eq hfw, hnone]; rfl, by rw [hr.live_eq hfw, hnone]; rfl⟩

/-- The daemon has connected, and "star", "ver" and "vest" arrive in place of its commands. -/
theorem daemon_keeps_settings_garbled :
    let b : Build := { date := [], time := [], order4 := .leftFirst, order2 := .leftFirst }
    let board : Firmware.Board := .receiving (bytes "star\rver\rvest\n")
    ∃ d fw, Daemon.main .good (.bringing []) [] (List.replicate readBufSize 0) = some d ∧
      Firmware.main b board [{ ticks := 0, interrupts := 0 }] = .ok fw ∧ fw.setting .calib .pri = 2 ^ 32 - 1 ∧
      fw.live .calib .pri = 856 := by
  intro b board
  have harr : board.arrivals = bytes "star\rver\rvest\n" := by decide
  have hfree : Lines.Free restarts (linesOf board.arrivals) := by
    rw [harr]
    decide
  obtain ⟨fw, hmain, -⟩ := Firmware.main_returns b (show board.usart.length ≤ 41 by decide) hfree { ticks := 0, interrupts := 0 }
  have hreach := Firmware.main_reaches b board [{ ticks := 0, interrupts := 0 }]
  rw [hmain] at hreach
  have hsaid : (Daemon.started .good (.bringing []) (List.replicate readBufSize 0)).said = bytes "ver\r\nrestart\r\n" := by
    rfl
  have hd : Daemon.main .good (.bringing []) [] (List.replicate readBufSize 0) =
      some (Daemon.started .good (.bringing []) (List.replicate readBufSize 0)) := rfl
  have hwritten : ∀ c ∈ board.arrivals, c ∈ (Daemon.started .good (.bringing []) (List.replicate readBufSize 0)).said := by
    rw [harr, hsaid]
    simp [bytes]
  have hkept := daemon_keeps_settings hd hwritten hreach (.step fw) .calib .pri
  exact ⟨_, fw, hd, hmain, hkept.1.trans (by decide), hkept.2.trans (by decide)⟩

/-! ## The start-up commands -/

/-- The start-up commands up to the byte that completes the second. -/
def startupCommands : List UInt8 := bytes "ver\r\nrestart\r"

namespace Daemon

/-- What connecting says where both calls of `write` take all they are given. -/
theorem connectToPort_said {env : SysIn} (hopen : Opens env) (hver : env.startup = 5) (hres : env.restart = 9) (d : Daemon) :
    (d.connectToPort env).said = d.said ++ (startupCommands ++ [lf]) := by
  rw [said, (connectToPort_open hopen d).2, List.flatMap_append, hver, hres]
  rfl

end Daemon

namespace Firmware

/-- Behind anything, the start-up commands end with a line that is a restart. -/
theorem linesOf_startupCommands (a : List UInt8) : ∃ ls, linesOf (a ++ startupCommands) = ls ++ [bytes "restart"] := by
  have hstream : a ++ startupCommands = (a ++ bytes "ver\r" ++ [lf] ++ bytes "restart") ++ [cr] := by
    rw [List.append_assoc, List.append_assoc, List.append_assoc]
    rfl
  have hrest : Lines.rest isEol (a ++ bytes "ver\r" ++ [lf] ++ bytes "restart") = bytes "restart" := by
    rw [Lines.rest_append, (Lines.snoc_stop _ rfl).2, List.nil_append]
    exact Lines.rest_of_free (by decide)
  rw [hstream, linesOf_eol _ rfl, hrest, if_neg (by decide)]
  exact ⟨_, rfl⟩

/-- The byte behind which `Cmd_Restart` was entered is the first that completes a restart. -/
theorem Reaches.restart_last {b : Build} {board : Board} {r : Except Stop Firmware} (hr : Reaches b board r) {fw : Firmware}
    (hfw : r = .error (.restart fw)) : ∃ t c, fw.uart.got = t ++ [c] ∧ Lines.Free restarts (linesOf t) := by
  cases hr with
  | start hs =>
    obtain ⟨fw₀, he, -⟩ := start_assembled b board
    rw [he] at hs
    cases hs
    cases hfw
  | beat | interrupt | sample => cases hfw
  | @read fw₀ _ h hready hs =>
    obtain ⟨-, -, hgot⟩ := h.tracked.getChar hready
    generalize receiveChar b fw₀.uart.getChar.1 { fw₀ with uart := fw₀.uart.getChar.2 } = x at hs
    cases hs with
    | ok | hang => cases hfw
    | @restart fw₁ out q _ hq =>
      obtain rfl := Stop.restart.inj (Except.error.inj hfw)
      exact ⟨_, _, (show q.1.got = _ from hq.got).trans hgot, h.tracked.assembled.returned⟩
  | @check fw₀ h =>
    have hend := h.tracked.assembled.cacheCheck
    rw [hfw] at hend
    exact hend.elim

end Firmware

/-- Where the daemon's start-up commands arrive, behind anything and with anything behind them, and the receive ring does not overflow,
the board restarts: no run reads past them, a run that has not restarted has not read them all, and one that has restarted has read
nothing behind them. (An unfinished line in front of them has at most 255 bytes, or the byte behind `MsgBuf` is unused.) -/
theorem startup_commands_restart {env : SysIn} (hopen : Daemon.Opens env) (hver : env.startup = 5) (hres : env.restart = 9)
    (d : Daemon) {a z : List UInt8} {b : Build} {board : Firmware.Board}
    (harr : board.arrivals = a ++ ((d.connectToPort env).said.drop d.said.length ++ z)) {r : Except Stop Firmware}
    (hr : Firmware.Reaches b board r) :
    Ends (fun fw => ¬ fw.uart.Overflowed →
        ¬ a ++ startupCommands <+: fw.uart.got ∧ (fw.usart = [] → fw.uart.rxReady ≠ 0))
      (Stop.Restarted fun fw => ¬ fw.uart.Overflowed → fw.uart.got <+: a ++ startupCommands) r := by
  rw [Daemon.connectToPort_said hopen hver hres, List.drop_left] at harr
  have harrives : a ++ startupCommands <+: board.arrivals := ⟨lf :: z, by rw [harr]; simp⟩
  obtain ⟨ls, hls⟩ := Firmware.linesOf_startupCommands a
  -- a stream without a restart does not go on from the start-up commands
  have hnot : ∀ {t : List UInt8}, Lines.Free restarts (linesOf t) → ¬ a ++ startupCommands <+: t := by
    intro t hfree hp
    have hmem : bytes "restart" ∈ linesOf t := by
      have hlines := linesOf_prefix hp
      refine hlines.subset ?_
      rw [hls]
      exact List.mem_append_right ls (List.mem_singleton_self _)
    exact absurd (hfree _ hmem) (by decide)
  have htracked := hr.tracked
  rcases r with (fw | -) | fw
  · intro ho
    obtain ⟨hgot, htaken, -⟩ := htracked.arriving.got_prefix ho
    obtain ⟨t, c, ht, hfree⟩ := hr.restart_last rfl
    have hpre : t ++ [c] <+: board.arrivals := ht ▸ hgot.trans htaken
    rw [ht]
    refine List.prefix_of_prefix_length_le hpre harrives ?_
    by_contra hlen
    refine hnot hfree (List.prefix_of_prefix_length_le harrives ((List.prefix_append t [c]).trans hpre) ?_)
    have hsnoc : (t ++ [c]).length = t.length + 1 := by simp
    omega
  · exact htracked.elim
  · intro ho
    obtain ⟨hgot, htaken, hall⟩ := htracked.arriving.got_prefix ho
    refine ⟨hnot htracked.assembled.returned, fun hus hready => ?_⟩
    refine hnot htracked.assembled.returned ?_
    have hstream := htracked.arriving.stream
    rw [show fw.port.2 = [] from hus, List.filterMap_nil, List.append_nil] at hstream
    rw [hall hready, show fw.uart.taken = board.arrivals from hstream]
    exact harrives

/-- The start-up commands arrive in the middle of a line. -/
theorem startup_commands_restart_unfinished :
    let b : Build := { date := [], time := [], order4 := .leftFirst, order2 := .leftFirst }
    let board : Firmware.Board := .receiving (bytes "calib pri 1ver\r\nrestart\r\n")
    ∃ fw, Firmware.main b board [{ ticks := 0, interrupts := 0 }] = .error (.restart fw) ∧
      fw.uart.got <+: bytes "calib pri 1ver\r\nrestart\r" := by
  intro b board
  have harr : board.arrivals = bytes "calib pri 1" ++
      (((Daemon.initial []).connectToPort (.bringing [])).said.drop (Daemon.initial []).said.length ++ []) := by
    have hsaid : ((Daemon.initial []).connectToPort (.bringing [])).said = bytes "ver\r\nrestart\r\n" := rfl
    rw [hsaid]
    decide
  have hopen : Daemon.Opens (.bringing []) := ⟨show (0 : Int) ≤ 3 by decide, show (0 : Int) ≠ -1 by decide⟩
  have hdrained := Firmware.main_drained b (show board.usart.length ≤ 41 by decide) { ticks := 0, interrupts := 0 }
  have hend := startup_commands_restart hopen rfl rfl (Daemon.initial []) harr
    (Firmware.main_reaches b board [{ ticks := 0, interrupts := 0 }])
  cases hx : Firmware.main b board [{ ticks := 0, interrupts := 0 }] with
  | ok fw =>
    rw [hx] at hend hdrained
    obtain ⟨hgot, ho⟩ := hdrained
    refine absurd ?_ (hend ho).1
    rw [hgot]
    exact ⟨[lf], by decide⟩
  | error e =>
    rw [hx] at hend hdrained
    rcases e with fw | -
    · exact ⟨fw, rfl, hend hdrained⟩
    · exact hend.elim

end PowerMonitor
