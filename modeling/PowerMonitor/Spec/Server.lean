import PowerMonitor.Firmware.Main
import PowerMonitor.Lib.Transducer

/-!
# What the board is for

Seen from the serial line the board is a server: it reads lines, it samples its two supplies, and it writes a reply to every line
that asks for something it knows. It keeps two 32-bit words for each supply, a calibration and an offset, which a line can set,
and the last sample. A word of all ones stands for a word that was never set.

Nothing here is about the cache, the flash, the rings or the line buffer of the firmware.
-/

namespace PowerMonitor

open CString

/-! ## What a line asks for -/

/-- What the board can report about a supply. -/
inductive Report where
  | current
  | volt
  | rawVolt
  | rawCurrent
  deriving DecidableEq, Repr

/-- What a line asks for. A report or a parameter of no channel is a line whose channel is missing or misspelt, and a parameter
without a value is to be shown only. -/
inductive Query where
  | restart
  | version
  | report (what : Report) (ch : Option Channel)
  | param (p : Param) (what : Option (Channel × Option (BitVec 32)))
  | unknown
  deriving DecidableEq, Repr

namespace Query

/-- The text behind leading blanks. -/
def trim (t : List UInt8) : List UInt8 := t.dropWhile isspace

/-- The text behind the first word. -/
def behindWord (t : List UInt8) : List UInt8 := t.dropWhile fun c => !isspace c

/-- The channel a text begins with. -/
def channel (t : List UInt8) : Option Channel :=
  if bytes "sec" <+: trim t then some .sec else if bytes "pri" <+: trim t then some .pri else none

/-- The number a text begins with, as a 32-bit word: too large a number is cut to the nearest signed one. -/
def value (t : List UInt8) : Option (BitVec 32) := if trim t = [] then none else some (BitVec.ofInt 32 (strtol 32 (trim t)))

/-- The channel a text begins with, and the number behind the channel's word. -/
def setting (t : List UInt8) : Option (Channel × Option (BitVec 32)) :=
  (channel t).map fun ch => (ch, value (behindWord (trim t)))

/-- The words that lines begin with, and what the text behind a line's first word makes of each. -/
def words : List (List UInt8 × (List UInt8 → Query)) :=
  [(bytes "restart", fun _ => .restart),
   (bytes "current", fun t => .report .current (channel t)),
   (bytes "volt", fun t => .report .volt (channel t)),
   (bytes "rawv", fun t => .report .rawVolt (channel t)),
   (bytes "rawc", fun t => .report .rawCurrent (channel t)),
   (bytes "calib", fun t => .param .calib (setting t)),
   (bytes "offset", fun t => .param .offset (setting t)),
   (bytes "ver", fun _ => .version)]

/-- What a line asks for. -/
def ofLine (l : List UInt8) : Query :=
  match words.find? fun w => w.1 <+: l with
  | some w => w.2 (behindWord l)
  | none => .unknown

end Query

/-! ## What the board knows -/

/-- The words stored and the words in use, and the last samples. -/
structure Server where
  stored : Param → Channel → BitVec 32
  used : Param → Channel → BitVec 32
  sample : Channel → BitVec 16

/-- What the server reads: a line, or a sample of both supplies. -/
inductive ServerIn where
  | line (l : List UInt8)
  | sample (v : Channel → BitVec 16)

/-- The line that is read. -/
def ServerIn.line? : ServerIn → Option (List UInt8)
  | .line l => some l
  | .sample _ => none

/-- The sample that is read. -/
def ServerIn.sample? : ServerIn → Option (Channel → BitVec 16)
  | .line _ => none
  | .sample v => some v

namespace Server

/-- What a parameter is while its word was never set. -/
def unset : Param → BitVec 32
  | .calib => 856
  | .offset => 1

/-- The parameter that a stored word stands for. -/
def shown (p : Param) (w : BitVec 32) : BitVec 32 := if w = BitVec.allOnes 32 then unset p else w

/-- The board at power-up, with the words that its flash holds. -/
def boot (words : Param → Channel → BitVec 32) : Server where
  stored := words
  used p ch := shown p (words p ch)
  sample _ := 0

/-- A word is stored and used. -/
def set (p : Param) (ch : Channel) (w : BitVec 32) (s : Server) : Server :=
  { s with
    stored := Function.update s.stored p (Function.update (s.stored p) ch w)
    used := Function.update s.used p (Function.update (s.used p) ch w) }

/-- The millivolts of a supply, in 32-bit arithmetic; a low sample counts as nothing. -/
def millivolts (s : Server) (ch : Channel) : BitVec 32 :=
  if s.sample ch < 0x9000 then 0
  else (s.sample ch).setWidth 32 * s.used .calib ch / 4096 - s.used .offset ch

/-- The text of a report. The board does not measure currents. -/
def reportText (what : Report) (ch : Channel) (s : Server) : List UInt8 :=
  match what with
  | .current => bytes "Current: " ++ ch.name ++ bytes " " ++ (decimal 0 ++ bytes " mA\r\n")
  | .volt => bytes "Voltage: " ++ ch.name ++ bytes " " ++ (decimal (s.millivolts ch).toNat ++ bytes " mV\r\n")
  | .rawVolt =>
    bytes "RawV: " ++ ch.name ++ bytes " " ++
      (hex8 (s.sample ch).toNat ++ bytes ", " ++ decimal (s.sample ch).toNat ++ bytes "\r\n")
  | .rawCurrent => bytes "RawC: " ++ ch.name ++ bytes " " ++ (hex8 0 ++ bytes "\r\n")

/-- The text that shows a stored parameter: a calibration has no sign, an offset has one. -/
def paramText (p : Param) (ch : Channel) (s : Server) : List UInt8 :=
  match p with
  | .calib => bytes "Volt Calib " ++ ch.name ++ bytes ": " ++ decimal (shown p (s.stored p ch)).toNat ++ bytes "\r\n"
  | .offset => bytes "Volt Offset " ++ ch.name ++ bytes ": " ++ signedDecimal (shown p (s.stored p ch)).toInt ++ bytes "\r\n"

/-- The text of the version, with the date and the time of the build. -/
def versionText (b : Build) : List UInt8 :=
  bytes "Ver: Power Monitor Rev0, V0.1, " ++ b.date ++ bytes " " ++ b.time ++ bytes "\r\n"

/-- What a query makes of the server, and the reply. -/
def answer (b : Build) : Query → Server → Server × List UInt8
  | .restart, s => (s, bytes "System Restarting\r\n")
  | .version, s => (s, versionText b)
  | .report what (some ch), s => (s, s.reportText what ch)
  | .report _ none, s => (s, [])
  | .param p (some (ch, none)), s => (s, s.paramText p ch)
  | .param p (some (ch, some w)), s => (s.set p ch w, (s.set p ch w).paramText p ch)
  | .param _ none, s => (s, [])
  | .unknown, s => (s, [])

/-- The word that a query makes of a parameter, where it makes one. -/
def stores (p : Param) (ch : Channel) : Query → Option (BitVec 32)
  | .param q (some (c, some w)) => if q = p ∧ c = ch then some w else none
  | _ => none

/-- The word that the last of some lines makes of a parameter. -/
def commanded (p : Param) (ch : Channel) (ls : List (List UInt8)) : Option (BitVec 32) :=
  (ls.filterMap fun l => stores p ch (Query.ofLine l)).getLast?

/-- The server on the wire: a line feed goes before every reply. -/
def machine (b : Build) : Transducer Server ServerIn UInt8 where
  step
    | .line l, s => ((answer b (Query.ofLine l) s).1, lf :: (answer b (Query.ofLine l) s).2)
    | .sample v, s => ({ s with sample := v }, [])

end Server

end PowerMonitor
