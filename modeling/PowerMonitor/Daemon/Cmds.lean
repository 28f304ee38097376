import PowerMonitor.Daemon.CmdParse
import Mathlib.Logic.Function.Basic

/-!
# The daemon's commands and its shared memory (Cmds_PMon.c)

The daemon publishes what it reads in a shared memory segment. The state is the segment, the time of the last poll, and the
actions of the process so far, in order: the calls on the serial descriptor, and what the process does with the segment. An
access through `PM_ptr` is an action whether or not the segment is attached.

A published value is the integer `atoi` returned, in thousandths; the code divides it by 1000 into a `float`.
-/

namespace PowerMonitor

open CString

/-- An action of the daemon's process. -/
inductive Act where
  /-- `shmat` returned the segment. -/
  | attach
  /-- `shmdt`. -/
  | detach
  /-- An access through `PM_ptr`. -/
  | access
  /-- `Setup_SignalHandler` has run: a termination signal now leads to `exit`. -/
  | signals
  /-- `exit`. -/
  | exit
  /-- `Serial_Openport` returned. -/
  | openPort (rv : Int)
  | write (fd : Int) (data : List UInt8) (rv : Int)
  | select (nfds : Int) (rv : Int)
  | read (fd : Int) (rv : Int)
  | close (fd : Int) (rv : Int)
  | sleep
  deriving DecidableEq, Repr

/-- `struct PMon_Shared_Mem`, without the mutex. -/
structure Shared where
  voltage : Fin 2 → Int
  current : Fin 2 → Int
  portConnected : Int

/-- The segment `memset` leaves. -/
def Shared.zero : Shared := { voltage := fun _ => 0, current := fun _ => 0, portConnected := 0 }

/-- The statics of Cmds_PMon.c and what the process has done. -/
structure PMon where
  shared : Shared
  last : Int
  trace : List Act

namespace PMon

/-- The process performs an action. -/
def act (a : Act) (s : PMon) : PMon := { s with trace := s.trace ++ [a] }

/-- What `ftok`, `shmget` and `shmat` return, and `daemon`. -/
structure StartupIn where
  ftok : Int
  shmget : Int
  shmat : Int
  daemon : Int
  deriving DecidableEq, Repr

/-- `PMon_CreateSharedMemory`: false when it calls `exit`. -/
def createSharedMemory (env : StartupIn) (s : PMon) : Bool × PMon :=
  if env.ftok = -1 then (false, s)
  else if env.shmget = -1 then (false, s)
  else if env.shmat = -1 then (false, s)
  else
    let s := s.act .attach
    let s := { s.act .access with shared := .zero }
    (true, s.act .access)

/-- `PMon_ClearSharedMemory`. -/
def clearSharedMemory (s : PMon) : PMon :=
  let s := { s.act .access with shared := { s.shared with portConnected := 0 } }
  let s := { s.act .access with shared := { s.shared with voltage := Function.update s.shared.voltage 0 0 } }
  let s := { s.act .access with shared := { s.shared with voltage := Function.update s.shared.voltage 1 0 } }
  let s := { s.act .access with shared := { s.shared with current := Function.update s.shared.current 0 0 } }
  let s := { s.act .access with shared := { s.shared with current := Function.update s.shared.current 1 0 } }
  s.act .detach

/-- `PMon_SetConnected`. -/
def setConnected (s : PMon) : PMon := { s.act .access with shared := { s.shared with portConnected := 1 } }

/-- `Single`. -/
def single : List UInt8 := bytes "volt pri\r\nvolt sec\r\n"

/-- The cast to `int`. -/
def int (v : Int) : Int := v.bmod (2 ^ 32)

/-- `PMon_Poll`, when `time` returns `time` and `write` returns `rv`. A difference that does not fit an `int` is cut to one. -/
def poll (time rv : Int) (fd : Int) (s : PMon) : Int × PMon :=
  let current := int time
  if int (current - s.last) ≥ 1 then (rv, { s with last := current }.act (.write fd single rv)) else (0, s)

/-- `PMon_SetStartup`. -/
def setStartup (rv : Int) (fd : Int) (s : PMon) : PMon := s.act (.write fd (bytes "ver\r\n") rv)

/-- `PMon_Send_Restart`. -/
def sendRestart (rv : Int) (fd : Int) (s : PMon) : PMon := s.act (.write fd (bytes "restart\r\n") rv)

/-- `atoi`: the `int` that a 64-bit `strtol` is cut to. -/
def atoi (t : List UInt8) : Int := (strtol 64 t).bmod (2 ^ 32)

/-- `Receive_Current`. -/
def receiveCurrent (_ : Int) (buf : Option (List UInt8)) (s : PMon) : Int × PMon :=
  match buf with
  | none => (1, s)
  | some buf =>
    let ptr := CmdParse.skipSpace buf
    let s := s.act .access
    let s := { s.act .access with shared := { s.shared with current := Function.update s.shared.current 0 (atoi ptr) } }
    (1, s.act .access)

/-- `Receive_Voltage`. -/
def receiveVoltage (_ : Int) (buf : Option (List UInt8)) (s : PMon) : Int × PMon :=
  match buf with
  | none => (1, s)
  | some buf =>
    let ptr := CmdParse.skipSpace buf
    let store (ch : Fin 2) : Int × PMon :=
      let ptr := CmdParse.skipSpace (CmdParse.skipChars ptr)
      let volt := atoi ptr
      let s := s.act .access
      let s := { s.act .access with shared := { s.shared with voltage := Function.update s.shared.voltage ch volt } }
      (1, s.act .access)
    if strncmp ptr (bytes "Pri") 3 = 0 then store 0
    else if strncmp ptr (bytes "Sec") 3 = 0 then store 1
    else (0, s)

/-- `Cmd_Table`. -/
def cmdTable : List (CmdFunc PMon) :=
  [{ cmd := bytes "Voltage", func := receiveVoltage }, { cmd := bytes "current", func := receiveCurrent }]

end PMon

end PowerMonitor
