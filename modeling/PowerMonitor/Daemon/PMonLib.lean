import PowerMonitor.Daemon.Cmds
import PowerMonitor.Lib.Interleave

/-!
# The readers of the shared memory (PMon_Lib.c)

Other programs read the segment through the calls of PMon_Lib.c while the daemon goes on with the functions of Cmds_PMon.c. Both sides
are processes over the segment and its mutex: a client makes its calls one after another, the daemon does its operations one after
another, and a load or a store of one field is one statement. Where the source has no lock, there is none here.

A client's segment is attached, or `PMon_Connect` has returned NULL. A termination signal makes the daemon leave for `System_Shutdown`.

Two things are taken for granted that the source does not see to. `PMon_CreateSharedMemory` initialises the mutex with NULL attributes,
which asks for a mutex of one process; here it works between processes, and an unlock lets in a process that waits. And a daemon that
has detached the segment in `PMon_ClearSharedMemory` goes on with it, where the real one is ended by its next access.
-/

namespace PowerMonitor

open CString

/-- What a call gives back: an `int`, a `float` in thousandths, or an `int` and what it has stored through its two pointers. A `float`
that was read outside its array is `none`. -/
inductive Answer where
  | int (rv : Int)
  | float (rv : Option Int)
  | floats (rv : Int) (v1 v2 : Option Int)
  deriving DecidableEq, Repr

/-- A call of PMon_Lib.c: whether `ptr` is the segment or NULL, and the arguments; of `v1` and `v2` whether they are not NULL. -/
inductive Call where
  | isConnected (ptr : Bool)
  | getVoltage (ptr : Bool) (ch : Int)
  | getVoltages (ptr v1 v2 : Bool)
  | getCurrent (ptr : Bool) (ch : Int)
  deriving DecidableEq, Repr

/-- What a client has for itself: the local `value`, the floats that it has pointers to, and the calls that have returned. -/
structure Client where
  value : Option Int
  v1 : Int
  v2 : Int
  returned : List (Call × Answer)
  deriving DecidableEq, Repr

namespace Client

def init : Client := { value := none, v1 := 0, v2 := 0, returned := [] }

/-- A call returns. -/
def ret (call : Call) (a : Shared → Client → Answer) : Stmt Shared Client :=
  .exec fun s c => (s, { c with returned := c.returned ++ [(call, a s c)] })

/-- A load into a variable of the client. -/
def load (f : Shared → Client → Client) : Shared → Client → Shared × Client := fun s c => (s, f s c)

/-- `PMon_isConnected`. -/
def isConnected (ptr : Bool) : List (Stmt Shared Client) :=
  if ptr = false then [ret (.isConnected ptr) fun _ _ => .int 0]
  else [ret (.isConnected ptr) fun s _ => .int s.portConnected]

/-- An element of an array, if the index is inside. -/
def element (array : Fin 2 → Int) (ch : Int) : Option Int :=
  if h : 0 ≤ ch ∧ ch < 2 then some (array ⟨ch.toNat, by omega⟩) else none

/-- `PMon_GetVoltage` and `PMon_GetCurrent`, with the array that they read. A negative channel passes their test. -/
def get (call : Call) (array : Shared → Fin 2 → Int) (ptr : Bool) (ch : Int) : List (Stmt Shared Client) :=
  if ch ≥ 2 ∨ ptr = false then [ret call fun _ _ => .float (some (-1000))]
  else [.lock, .exec (load fun s c => { c with value := element (array s) ch }), .unlock, ret call fun _ c => .float c.value]

/-- `PMon_GetVoltage`. -/
def getVoltage (ptr : Bool) (ch : Int) : List (Stmt Shared Client) := get (.getVoltage ptr ch) Shared.voltage ptr ch

/-- `PMon_GetCurrent`. -/
def getCurrent (ptr : Bool) (ch : Int) : List (Stmt Shared Client) := get (.getCurrent ptr ch) Shared.current ptr ch

/-- What `PMon_GetVoltages` does under the mutex. -/
def loads (v1 v2 : Bool) : List (Shared → Client → Shared × Client) :=
  (if v1 then [load fun s c => { c with v1 := s.voltage ⟨0, Nat.zero_lt_two⟩ }] else []) ++
    if v2 then [load fun s c => { c with v2 := s.voltage ⟨1, Nat.one_lt_two⟩ }] else []

/-- `PMon_GetVoltages`. -/
def getVoltages (ptr v1 v2 : Bool) : List (Stmt Shared Client) :=
  if ptr = false then [ret (.getVoltages ptr v1 v2) fun _ _ => .floats (-1) none none]
  else
    .lock :: ((loads v1 v2).map .exec ++
      [.unlock, ret (.getVoltages ptr v1 v2) fun _ c => .floats 0 (if v1 then some c.v1 else none) (if v2 then some c.v2 else none)])

/-- The statements of a call. -/
def call : Call → List (Stmt Shared Client)
  | .isConnected ptr => isConnected ptr
  | .getVoltage ptr ch => getVoltage ptr ch
  | .getVoltages ptr v1 v2 => getVoltages ptr v1 v2
  | .getCurrent ptr ch => getCurrent ptr ch

end Client

/-- What the daemon does with the segment: a function of Cmds_PMon.c, with the text that a function of `Cmd_Table` gets. -/
inductive Op where
  | setConnected
  | receiveVoltage (buf : Option (List UInt8))
  | receiveCurrent (buf : Option (List UInt8))
  | clearSharedMemory
  deriving DecidableEq, Repr

namespace Op

/-- The functions of Cmds_PMon.c. -/
def run : Op → PMon → PMon
  | .setConnected, s => s.setConnected
  | .receiveVoltage buf, s => (PMon.receiveVoltage 0 buf s).2
  | .receiveCurrent buf, s => (PMon.receiveCurrent 0 buf s).2
  | .clearSharedMemory, s => s.clearSharedMemory

/-- What `Cmd_Table` has for a command, with its argument. -/
def ofCommand (c : List UInt8 × Option (List UInt8)) : Option Op :=
  if bytes "Voltage" <+: c.1 then some (.receiveVoltage c.2)
  else if bytes "current" <+: c.1 then some (.receiveCurrent c.2)
  else none

variable {ρ : Type}

/-- A store to the segment. -/
def store (f : Shared → Shared) : Stmt Shared ρ := .exec fun s r => (f s, r)

/-- A store under the mutex. -/
def locked (f : Shared → Shared) : List (Stmt Shared ρ) := [.lock, store f, .unlock]

/-- The stores of `PMon_ClearSharedMemory`. -/
def clear : List (Stmt Shared ρ) :=
  [store fun s => { s with portConnected := 0 },
    store fun s => { s with voltage := Function.update s.voltage ⟨0, Nat.zero_lt_two⟩ 0 },
    store fun s => { s with voltage := Function.update s.voltage ⟨1, Nat.one_lt_two⟩ 0 },
    store fun s => { s with current := Function.update s.current ⟨0, Nat.zero_lt_two⟩ 0 },
    store fun s => { s with current := Function.update s.current ⟨1, Nat.one_lt_two⟩ 0 }]

/-- The statements of an operation. -/
def code : Op → List (Stmt Shared ρ)
  | .setConnected => [store fun s => { s with portConnected := 1 }]
  | .receiveVoltage none => []
  | .receiveVoltage (some buf) =>
    let ptr := CmdParse.skipSpace buf
    let volt := PMon.atoi (CmdParse.skipSpace (CmdParse.skipChars ptr))
    if strncmp ptr (bytes "Pri") 3 = 0 then
      locked fun s => { s with voltage := Function.update s.voltage ⟨0, Nat.zero_lt_two⟩ volt }
    else if strncmp ptr (bytes "Sec") 3 = 0 then
      locked fun s => { s with voltage := Function.update s.voltage ⟨1, Nat.one_lt_two⟩ volt }
    else []
  | .receiveCurrent none => []
  | .receiveCurrent (some buf) =>
    let amps := PMon.atoi (CmdParse.skipSpace buf)
    locked fun s => { s with current := Function.update s.current ⟨0, Nat.zero_lt_two⟩ amps }
  | .clearSharedMemory => clear

end Op

/-- The daemon, which is `none`, and its clients. -/
abbrev Users (κ : Type) := Processes (Option κ) Shared Client

namespace Users

variable {κ : Type}

/-- The segment is new, the daemon has its operations before it, and every client its calls. -/
def attached (ops : List Op) (calls : κ → List Call) : Users κ where
  shared := .zero
  owner := none
  code
    | none => ops.flatMap Op.code
    | some k => (calls k).flatMap Client.call
  regs := fun _ => .init

/-- What a termination signal makes of a process: `System_Shutdown` of the daemon, and the end of a client. -/
def handler : Option κ → List (Stmt Shared Client)
  | none => Op.clear
  | some _ => []

end Users

end PowerMonitor
