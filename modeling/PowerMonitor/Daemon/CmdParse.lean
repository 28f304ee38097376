import PowerMonitor.Lib.Block

/-!
# The daemon's command parser (CmdParse.c)

`processString` works on the receive buffer as a block of memory: it cuts the text at the first carriage return, looks the part
before a colon up in a table, hands the part behind it to the entry's function, and moves the rest of the text down. When the
text begins with a line feed the rest moves down to index 1 and the line feed stays.

`processStringIn` is the same function access by access, and has no result when one of its accesses is outside the block.
-/

namespace PowerMonitor

open CString

/-- `struct CmdFunc`. The function gets the descriptor and the string at `arg`, or NULL, and works on a state `σ`. -/
structure CmdFunc (σ : Type*) where
  cmd : List UInt8
  func : Int → Option (List UInt8) → σ → Int × σ

/-- What `CmdParse_ProcessString` leaves: its result, the buffer, the state, and a record of the command and the argument it
looked up in the table, if any. -/
structure Processed (σ : Type*) where
  rv : Int
  string : List UInt8
  st : σ
  lookup : Option (List UInt8 × Option (List UInt8))

namespace CmdParse

variable {σ : Type*}

/-- `CmdParse_SkipSpace`. -/
def skipSpace (ptr : List UInt8) : List UInt8 := ptr.dropWhile isspace

/-- `CmdParse_SkipChars`. -/
def skipChars (ptr : List UInt8) : List UInt8 := ptr.dropWhile fun c => !isspace c

/-- The search of `CmdParse_ProcessString`: the first entry whose name the command begins with. -/
def scan (fd : Int) (cmd : List UInt8) (arg : Option (List UInt8)) (st : σ) : List (CmdFunc σ) → Int × σ
  | [] => (-1, st)
  | element :: table =>
    if strncmp element.cmd cmd element.cmd.length = 0 then element.func fd arg st else scan fd cmd arg st table

/-- The colon of `CmdParse_ProcessString`: it becomes a NUL, and the string behind it is the argument unless it is empty. -/
def cutArg (mem : List UInt8) (ptr : Nat) : List UInt8 × Option (List UInt8) :=
  match strchr mem ptr colon with
  | none => (mem, none)
  | some a =>
    let mem := mem.set a 0
    (mem, if mem.getD (a + 1) 0 = 0 then none else some (text (mem.drop (a + 1))))

/-- `CmdParse_ProcessString`. -/
def processString (table : List (CmdFunc σ)) (string : List UInt8) (fd : Int) (st : σ) : Processed σ :=
  match strchr string 0 cr with
  | none => { rv := -1, string := string, st := st, lookup := none }
  | some e =>
    let mem := string.set e 0
    let stop := e + 1
    let ptr := if mem.getD 0 0 = lf then 1 else 0
    -- an offset: the byte behind it is only read once the colon is gone
    let cmd := ptr + ((text (mem.drop ptr)).length - (skipSpace (text (mem.drop ptr))).length)
    let (mem, arg) := cutArg mem ptr
    let moved := memmove mem ptr stop (strlen mem stop + 1)
    if strlen mem cmd > 0 then
      let r := scan fd (text (mem.drop cmd)) arg st table
      { rv := r.1, string := moved, st := r.2, lookup := some (text (mem.drop cmd), arg) }
    else { rv := -1, string := moved, st := st, lookup := none }

/-! ## The accesses of a call -/

section Accesses

variable {σ : Type}

/-- The search, with the command in the block. -/
def scanIn (fd : Int) (cmd : Nat) (arg : Option (List UInt8)) (st : σ) : List (CmdFunc σ) → Block (Int × σ)
  | [] => pure (-1, st)
  | element :: table => do
    let d ← Block.strncmp element.cmd cmd element.cmd.length
    if d = 0 then pure (element.func fd arg st) else scanIn fd cmd arg st table

/-- The colon: the pointer behind it, or NULL. -/
def cutArgIn (ptr : Nat) : Block (Option Nat) := do
  match ← Block.strchr ptr colon with
  | none => pure none
  | some a =>
    Block.write a 0
    let c ← Block.read (a + 1)
    pure (if c = 0 then none else some (a + 1))

/-- The string that a function of the table gets. -/
def argIn : Option Nat → Block (Option (List UInt8))
  | none => pure none
  | some a => do
    let s ← Block.string a
    pure (some s)

/-- The search unless the command is empty, and a record of what it looks for. -/
def lookupIn (table : List (CmdFunc σ)) (fd : Int) (cmd : Nat) (arg : Option Nat) (st : σ) :
    Block (Int × σ × Option (List UInt8 × Option (List UInt8))) := do
  let n ← Block.strlen cmd
  if n > 0 then
    let name ← Block.string cmd
    let arg ← argIn arg
    let r ← scanIn fd cmd arg st table
    pure (r.1, r.2, some (name, arg))
  else pure (-1, st, none)

/-- `CmdParse_ProcessString` of the string at the start of the block. -/
def processStringIn (table : List (CmdFunc σ)) (fd : Int) (st : σ) :
    Block (Int × σ × Option (List UInt8 × Option (List UInt8))) := do
  match ← Block.strchr 0 cr with
  | none => pure (-1, st, none)
  | some e =>
    Block.write e 0
    let stop := e + 1
    let c ← Block.read 0
    let ptr := if c = lf then 1 else 0
    let cmd ← Block.skip isspace ptr
    let arg ← cutArgIn ptr
    let r ← lookupIn table fd cmd arg st
    let n ← Block.strlen stop
    Block.memmove ptr stop (n + 1)
    pure r

/-- The daemon's line loop, `while ( rv >= 0 )`, with at most `fuel` calls: how many there were, and the state they leave. -/
def lineLoop (table : List (CmdFunc σ)) (fd : Int) : (fuel : Nat) → (rv : Int) → σ → Block (Nat × σ)
  | 0, rv, st => if rv ≥ 0 then failure else pure (0, st)
  | fuel + 1, rv, st =>
    if rv ≥ 0 then do
      let r ← processStringIn table fd st
      let q ← lineLoop table fd fuel r.1 r.2.1
      pure (q.1 + 1, q.2)
    else pure (0, st)

end Accesses

end CmdParse

end PowerMonitor
