import PowerMonitor.Lib.CString

/-!
# The command processor (CmdProcessor.c)

A line is looked up in a table by the names of its entries: the first entry whose name the line begins with gets the text behind
the line's first word. A handler works on a state `σ` and may not return, with the reason `ε`.
-/

namespace PowerMonitor

open CString

/-- `CmdResponse`: the string in its buffer. -/
structure CmdResponse where
  buffer : List UInt8
  deriving DecidableEq, Repr

/-- `CmdTable`. -/
structure CmdTable (ε σ : Type*) where
  cmd : List UInt8
  vector : List UInt8 → CmdResponse → σ → Except ε (Int × CmdResponse × σ)

namespace CmdProcessor

variable {ε σ : Type*}

/-- `CP_SkipChars`. -/
def skipChars (ptr : List UInt8) : List UInt8 := ptr.dropWhile fun c => !isspace c

/-- `CP_SkipSpace`. -/
def skipSpace (ptr : List UInt8) : List UInt8 := ptr.dropWhile isspace

/-- The loop of `CP_Lookup`. -/
def scan (line : List UInt8) (resp : CmdResponse) (s : σ) : List (CmdTable ε σ) → Except ε (Int × CmdResponse × σ)
  | [] => .ok (-1, resp, s)
  | entry :: tbl =>
    if strncmp entry.cmd line entry.cmd.length = 0 then entry.vector (skipChars line) resp s else scan line resp s tbl

/-- `CP_Lookup`. -/
def lookup (line : List UInt8) (tbl : List (CmdTable ε σ)) (_ : CmdResponse) (s : σ) :
    Except ε (Int × CmdResponse × σ) :=
  scan line { buffer := [] } s tbl

end CmdProcessor

end PowerMonitor
