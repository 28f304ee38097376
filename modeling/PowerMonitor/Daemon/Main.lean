import PowerMonitor.Daemon.Cmds

/-!
# The daemon's main loop (PowerMon_Main.c)

What the system calls return is an input. `main` sets up the shared memory and the signal handler and connects; from then on a
step is one pass of the inner loop while the serial descriptor is not negative, and otherwise the `sleep` and the next connection.
The receive buffer keeps its content from one read to the next.
-/

namespace PowerMonitor

open CString

/-- `sizeof(readBuf)`. -/
def readBufSize : Nat := 4096

/-- What the system calls of one step return. `read` is the data, or nothing when the call fails. -/
structure SysIn where
  /-- `open` and `tcsetattr` in `Serial_Openport`, and `close` there. -/
  openRv : Int
  tcsetattr : Int
  closeOpen : Int
  /-- The two `write` calls of `Connect_To_Port`. -/
  startup : Int
  restart : Int
  /-- `time` and `write` in `PMon_Poll`, and `close` after it. -/
  time : Int
  write : Int
  closeWrite : Int
  select : Int
  isset : Bool
  read : Option (List UInt8)
  closeRead : Int
  deriving DecidableEq, Repr

/-- The statics of PowerMon_Main.c, with those of Cmds_PMon.c, the receive buffer, and a record of the commands looked up. -/
structure Daemon where
  pmon : PMon
  serialFd : Int
  readBuf : List UInt8
  lookups : List (List UInt8 × Option (List UInt8))

namespace Daemon

/-- The process performs an action. -/
def act (a : Act) (d : Daemon) : Daemon := { d with pmon := d.pmon.act a }

/-- `Serial_Openport`. -/
def openPort (env : SysIn) (d : Daemon) : Int × Daemon :=
  if env.openRv < 0 then (-1, d.act (.openPort (-1)))
  else if env.tcsetattr = -1 then (-1, (d.act (.close env.openRv env.closeOpen)).act (.openPort (-1)))
  else (env.openRv, d.act (.openPort env.openRv))

/-- `Connect_To_Port`. -/
def connectToPort (env : SysIn) (d : Daemon) : Daemon :=
  let r := d.openPort env
  let d : Daemon := { r.2 with serialFd := r.1 }
  if d.serialFd < 0 then d
  else
    let d : Daemon := { d with pmon := d.pmon.setConnected }
    let d : Daemon := { d with pmon := d.pmon.setStartup env.startup d.serialFd }
    { d with pmon := d.pmon.sendRestart env.restart d.serialFd }

/-- `Check_Serial`; `close` is what `Serial_ClosePort` returns. -/
def checkSerial (rv close : Int) (d : Daemon) : Daemon :=
  if rv < 0 then
    let d := { d with pmon := d.pmon.clearSharedMemory }
    { d.act (.close d.serialFd close) with serialFd := close }
  else d

/-- The call of `CmdParse_ProcessString` in the receiver. -/
def processString (d : Daemon) : Int × Daemon :=
  let p := CmdParse.processString PMon.cmdTable d.readBuf d.serialFd d.pmon
  (p.rv, { d with readBuf := p.string, pmon := p.st, lookups := d.lookups ++ p.lookup.toList })

/-- The receiver's inner loop, for at most `fuel` calls of `CmdParse_ProcessString`. -/
def drain : (fuel : Nat) → (rv : Int) → Daemon → Option Daemon
  | 0, rv, d => if rv ≥ 0 then none else some d
  | fuel + 1, rv, d => if rv ≥ 0 then drain fuel d.processString.1 d.processString.2 else some d

/-- What the receiver does with the bytes `read` returned: they go behind the text that the buffer holds, and the inner loop
runs. -/
def receiveData (data : List UInt8) (d : Daemon) : Option Daemon :=
  if data.length > 0 then
    let length := strlen d.readBuf 0
    let readBuf := (store d.readBuf length data).set (length + data.length) 0
    drain (readBuf.length + 1) data.length { d with readBuf := readBuf }
  else some d

/-- The receiver of `main`; `read` is asked for what the buffer has room for. -/
def receive (env : SysIn) (d : Daemon) : Option Daemon :=
  match env.read.map (·.take (readBufSize - strlen d.readBuf 0)) with
  | none => some ((d.act (.read d.serialFd (-1))).checkSerial (-1) env.closeRead)
  | some data => (d.act (.read d.serialFd data.length)).receiveData data

/-- One pass of the inner loop. -/
def iteration (env : SysIn) (d : Daemon) : Option Daemon :=
  let r := d.pmon.poll env.time env.write d.serialFd
  let d := { d with pmon := r.2 }
  let d := d.checkSerial r.1 env.closeWrite
  let d := d.act (.select (d.serialFd + 1) env.select)
  if env.select < 0 then some d
  else if env.isset then d.receive env
  else some d

/-- A step of the main loop. It goes on with a detached segment, where the real daemon is ended by its next access. -/
def step (env : SysIn) (d : Daemon) : Option Daemon :=
  if d.serialFd ≥ 0 then d.iteration env else some ((d.act .sleep).connectToPort env)

/-- `System_Shutdown`, which `exit` runs. -/
def systemShutdown (d : Daemon) : Daemon := { d with pmon := (d.pmon.act .exit).clearSharedMemory }

/-- The process at the start of `main`, with some content of the receive buffer. -/
def initial (readBuf : List UInt8) : Daemon where
  pmon := { shared := .zero, last := 0, trace := [] }
  serialFd := 0
  readBuf := readBuf
  lookups := []

/-- `main` up to its loop: false when the process has called `exit`. -/
def startup (env : PMon.StartupIn) (d : Daemon) : Bool × Daemon :=
  let r := d.pmon.createSharedMemory env
  let d := { d with pmon := r.2 }
  if r.1 = false then (false, d.systemShutdown)
  else
    let d := d.act .signals
    if env.daemon < 0 then (false, d.systemShutdown) else (true, d)

/-- The steps of the main loop. -/
def steps : List SysIn → Daemon → Option Daemon
  | [], d => some d
  | env :: envs, d => (d.step env).bind (steps envs)

/-- `main`: the set-up, the first connection, and the steps of its loop. -/
def main (start : PMon.StartupIn) (connect : SysIn) (envs : List SysIn) (readBuf : List UInt8) : Option Daemon :=
  let r := (initial readBuf).startup start
  if r.1 then steps envs (r.2.connectToPort connect) else some r.2

end Daemon

end PowerMonitor
