import RetroOs.Kernel.Pipe
import RetroOs.Lib.Runs

/-! Pipes and local sockets with the calls that close and shut them down, while processes sleep inside their calls.
What is closed is freed: a call that goes on at a pipe or socket that is not there uses freed memory and has no result. -/
namespace RetroOs.Kernel
open Lib Function

inductive IpcSleep where
  | pipeRead (pipe size : ℕ)
  | pipeWrite (pipe : ℕ) (data : List UInt8)
  | socketRead (sock size : ℕ)
  | socketWrite (peer : ℕ) (data : List UInt8)
  | connect (sock : ℕ)
  | accept (server : ℕ)

/-- The calls in which a process may sleep. A connecting one names the server that it finds under its path. -/
inductive IpcRequest where
  | pipeRead (pipe size : ℕ)
  | pipeWrite (pipe : ℕ) (data : List UInt8)
  | socketRead (sock size : ℕ)
  | socketWrite (sock : ℕ) (data : List UInt8)
  | sysConnect (sock server : ℕ)
  | sysAccept (server : ℕ)

inductive PipeEnd where
  | read
  | write
  deriving DecidableEq

inductive ShutdownHow where
  | rd
  | wr
  | rdwr
  deriving DecidableEq

/-- What `sys_accept` gets for its connection: a socket, its buffer, and whether the process has a free descriptor. -/
structure NewSocket where
  sock : ℕ
  slots : Fin pipeSize → UInt8
  fdFree : Bool

def Pipe.isOpen (p : Pipe) : PipeEnd → Bool
  | .read => !p.readClosed
  | .write => !p.writeClosed

def Pipe.close (p : Pipe) : PipeEnd → Pipe
  | .read => { p with readClosed := true }
  | .write => { p with writeClosed := true }

namespace Ipc

def freePipe (s : Ipc) (a : ℕ) : Ipc := { s with pipes := update s.pipes a none }

def freeSocket (s : Ipc) (a : ℕ) : Ipc := { s with sockets := update s.sockets a none }

def dropBytes (s : Ipc) (a : ℕ) : Ipc :=
  (s.sockets a).elim s fun sock => s.setSocket a { sock with ring := { sock.ring with head := sock.ring.tail } }

def sysListen (s : Ipc) (a : ℕ) : Ipc :=
  (s.sockets a).elim s fun sock => if sock.state = .bound then s.setState a .listening else s

variable {s : Ipc} {sock : Socket}

theorem setSocket_there {c : ℕ} (h : s.sockets c = some sock) (a : ℕ) (new : Socket) :
    ∃ sock', (s.setSocket a new).sockets c = some sock' := by
  dsimp only [setSocket]
  rw [update_apply]
  split_ifs
  · exact ⟨_, rfl⟩
  · exact ⟨sock, h⟩

theorem setState_there {c : ℕ} (h : s.sockets c = some sock) (a : ℕ) (state : SocketState) :
    ∃ sock', (s.setState a state).sockets c = some sock' := by
  rw [setState]
  cases s.sockets a with
  | none => exact ⟨sock, h⟩
  | some other => exact setSocket_there h a _

theorem setPeer_self {a peer : ℕ} (h : (s.setPeer a peer).sockets a = some sock) : sock.peer = peer := by
  rw [setPeer] at h
  cases hs : s.sockets a with
  | none =>
    rw [hs] at h
    cases hs.symm.trans h
  | some c =>
    rw [hs] at h
    dsimp only [Option.elim, setSocket] at h
    rw [update_self] at h
    rw [← Option.some.inj h]

end Ipc

/-- The calls that processes sleep in, and which processes are ready to go on. -/
structure IpcSystem extends Ipc where
  sleeps : ℕ → Option IpcSleep
  awake : ℕ → Bool

inductive IpcAction where
  | sysPipe (pipe : ℕ) (slots : Fin pipeSize → UInt8)
  | sysSocket (sock : ℕ) (slots : Fin pipeSize → UInt8)
  | sysSocketpair (sock other : ℕ) (slots slots' : Fin pipeSize → UInt8)
  | sysBind (sock : ℕ)
  | sysListen (sock : ℕ)
  | sysGetpeername (sock : ℕ)
  | sysShutdown (sock : ℕ) (how : ShutdownHow)
  | pipeClose (pipe : ℕ) (side : PipeEnd)
  | socketClose (sock : ℕ)
  | call (proc : ℕ) (r : IpcRequest) (new : NewSocket)
  | resume (proc : ℕ) (new : NewSocket)
  | wake (proc : ℕ)

namespace IpcSystem

def boot : IpcSystem where
  pipes _ := none
  sockets _ := none
  sleeps _ := none
  awake _ := true

def setIpc (s : IpcSystem) (ipc : Ipc) : IpcSystem := { s with toIpc := ipc }

/-- The loop over `ready_queue` that makes every waiting process ready. -/
def wakeAll (s : IpcSystem) : IpcSystem := { s with awake := fun _ => true }

def sleep (s : IpcSystem) (proc : ℕ) (w : IpcSleep) : IpcSystem :=
  { s with sleeps := update s.sleeps proc (some w), awake := update s.awake proc false }

def returns (s : IpcSystem) (proc : ℕ) : IpcSystem := { s with sleeps := update s.sleeps proc none }

/-- A loop has ended, with these pipes and sockets. -/
def ends (s : IpcSystem) (proc : ℕ) (ipc : Ipc) : IpcSystem := (s.setIpc ipc).wakeAll.returns proc

def pipeReadOn (s : IpcSystem) (proc a size : ℕ) : Option IpcSystem := do
  let p ← s.pipes a
  match p.readOn size with
  | none => some (s.sleep proc (.pipeRead a size))
  | some x => some (s.ends proc (s.setPipe a x.2))

def pipeWriteOn (s : IpcSystem) (proc a : ℕ) (data : List UInt8) : Option IpcSystem := do
  let p ← s.pipes a
  match p.writeOn data with
  | none => some (s.sleep proc (.pipeWrite a data))
  | some x => some (s.ends proc (s.setPipe a x.2))

def socketReadOn (s : IpcSystem) (proc a size : ℕ) : Option IpcSystem := do
  let sock ← s.sockets a
  match sock.readOn size with
  | none => some (s.sleep proc (.socketRead a size))
  | some x => some (s.ends proc (s.setSocket a x.2))

def socketWriteOn (s : IpcSystem) (proc peer : ℕ) (data : List UInt8) : Option IpcSystem := do
  let sock ← s.sockets peer
  match sock.writeOn data with
  | none => some (s.sleep proc (.socketWrite peer data))
  | some x => some (s.ends proc (s.setSocket peer x.2))

def connectOn (s : IpcSystem) (proc a : ℕ) : Option IpcSystem := do
  let sock ← s.sockets a
  if sock.state = .connecting then some (s.sleep proc (.connect a)) else some (s.returns proc)

/-- The client that is first in the backlog is connected to the new socket. Only a process that finds a descriptor
for it wakes the others. -/
def acceptOn (s : IpcSystem) (proc server : ℕ) (new : NewSocket) : Option IpcSystem := do
  let v ← s.sockets server
  match v.backlog with
  | [] => some (s.sleep proc (.accept server))
  | client :: _ => do
    let _ ← s.sockets client
    let t := s.setIpc (s.toIpc.sysAccept server new.sock new.slots)
    some ((if new.fdFree then t.wakeAll else t).returns proc)

/-- A process goes on in the call that it sleeps in. -/
def goOn (s : IpcSystem) (proc : ℕ) (new : NewSocket) : IpcSleep → Option IpcSystem
  | .pipeRead a size => s.pipeReadOn proc a size
  | .pipeWrite a data => s.pipeWriteOn proc a data
  | .socketRead a size => s.socketReadOn proc a size
  | .socketWrite peer data => s.socketWriteOn proc peer data
  | .connect a => s.connectOn proc a
  | .accept server => s.acceptOn proc server new

def connect (s : IpcSystem) (proc a server : ℕ) : Option IpcSystem := do
  let _ ← s.sockets a
  match s.sockets server with
  | none => some s
  | some v =>
    if (v.state = .bound ∨ v.state = .listening) ∧ v.backlog.length < 8 then
      (s.setIpc (s.toIpc.sysConnect a server)).wakeAll.connectOn proc a
    else some s

def request (s : IpcSystem) (proc : ℕ) (new : NewSocket) : IpcRequest → Option IpcSystem
  | .pipeRead a size => do
    let p ← s.pipes a
    if p.readClosed then some s else s.pipeReadOn proc a size
  | .pipeWrite a data => do
    let p ← s.pipes a
    if p.writeClosed ∨ p.readClosed then some s else s.pipeWriteOn proc a data
  | .socketRead a size => do
    let sock ← s.sockets a
    if sock.state ≠ .connected then some s else s.socketReadOn proc a size
  | .socketWrite a data => do
    let sock ← s.sockets a
    if sock.Writable then s.socketWriteOn proc sock.peer data else some s
  | .sysConnect a server => s.connect proc a server
  | .sysAccept server => s.acceptOn proc server new

def pipeClose (s : IpcSystem) (a : ℕ) (side : PipeEnd) : Option IpcSystem := do
  let p ← s.pipes a
  if (p.close side).readClosed ∧ (p.close side).writeClosed then some (s.setIpc (s.freePipe a)).wakeAll
  else some (s.setIpc (s.setPipe a (p.close side))).wakeAll

/-- `socket_close` frees the socket; nobody is told or made ready. -/
def socketClose (s : IpcSystem) (a : ℕ) : Option IpcSystem := do
  let _ ← s.sockets a
  some (s.setIpc (s.freeSocket a))

/-- The path is read from the peer's record. -/
def sysGetpeername (s : IpcSystem) (a : ℕ) : Option IpcSystem := do
  let sock ← s.sockets a
  if sock.Writable then (s.sockets sock.peer).map fun _ => s else some s

def clearPeer (s : IpcSystem) (sock : Socket) : Option IpcSystem :=
  if sock.peer = 0 then some s
  else do
    let _ ← s.sockets sock.peer
    some (s.setIpc (s.setPeer sock.peer 0))

def sysShutdown (s : IpcSystem) (a : ℕ) (how : ShutdownHow) : Option IpcSystem := do
  let sock ← s.sockets a
  match how with
  | .rd => some (s.setIpc (s.dropBytes a))
  | .wr => s.clearPeer sock
  | .rdwr => (s.setIpc (s.dropBytes a)).clearPeer sock

/-- No result where freed memory is used. -/
def exec (s : IpcSystem) : IpcAction → Option IpcSystem
  | .sysPipe a slots => some (s.setIpc (s.toIpc.sysPipe a slots))
  | .sysSocket a slots => some (s.setIpc (s.toIpc.sysSocket a slots))
  | .sysSocketpair a c slots slots' => some (s.setIpc (s.toIpc.sysSocketpair a c slots slots'))
  | .sysBind a => (s.sockets a).map fun _ => s.setIpc (s.toIpc.sysBind a)
  | .sysListen a => (s.sockets a).map fun _ => s.setIpc (s.toIpc.sysListen a)
  | .sysGetpeername a => s.sysGetpeername a
  | .sysShutdown a how => s.sysShutdown a how
  | .pipeClose a side => s.pipeClose a side
  | .socketClose a => s.socketClose a
  | .call proc r new => s.request proc new r
  | .resume proc new => (s.sleeps proc).elim (some s) (s.goOn proc new)
  | .wake proc => some { s with awake := update s.awake proc true }

/-- The state after an action, where it has a result. -/
def after (s : IpcSystem) (e : IpcAction) : IpcSystem := (s.exec e).getD s

def Unused (s : IpcSystem) (a : ℕ) : Prop := a ≠ 0 ∧ s.sockets a = none

instance (s : IpcSystem) (a : ℕ) : Decidable (s.Unused a) := inferInstanceAs (Decidable (_ ∧ _))

/-- The descriptor of a call, or of a close, is open. -/
def EndOpen (s : IpcSystem) (a : ℕ) (side : PipeEnd) : Prop := (s.pipes a).any (·.isOpen side) = true

instance (s : IpcSystem) (a : ℕ) (side : PipeEnd) : Decidable (s.EndOpen a side) := inferInstanceAs (Decidable (_ = true))

def SocketOpen (s : IpcSystem) (a : ℕ) : Prop := (s.sockets a).isSome = true

instance (s : IpcSystem) (a : ℕ) : Decidable (s.SocketOpen a) := inferInstanceAs (Decidable (_ = true))

def RequestOpen (s : IpcSystem) : IpcRequest → Prop
  | .pipeRead a _ => s.EndOpen a .read
  | .pipeWrite a _ => s.EndOpen a .write
  | .socketRead a _ | .socketWrite a _ | .sysConnect a _ | .sysAccept a => s.SocketOpen a

instance (s : IpcSystem) : ∀ r, Decidable (s.RequestOpen r)
  | .pipeRead .. | .pipeWrite .. | .socketRead .. | .socketWrite .. | .sysConnect .. | .sysAccept _ =>
    inferInstanceAs (Decidable (_ = true))

/-- A new pipe or socket gets memory that is not in use, a call or a close comes through an open descriptor, and a
process that sleeps goes on when it is ready. -/
def Allowed (s : IpcSystem) : IpcAction → Prop
  | .sysPipe a _ => s.pipes a = none
  | .sysSocket a _ => s.Unused a
  | .sysSocketpair a c _ _ => (s.Unused a ∧ s.Unused c) ∧ a ≠ c
  | .sysBind a | .sysListen a | .sysGetpeername a | .sysShutdown a _ | .socketClose a => s.SocketOpen a
  | .pipeClose a side => s.EndOpen a side
  | .call proc r new => (s.sleeps proc).isNone = true ∧ s.RequestOpen r ∧ s.Unused new.sock
  | .resume proc new => ((s.sleeps proc).isSome = true ∧ s.awake proc = true) ∧ s.Unused new.sock
  | .wake _ => True

instance (s : IpcSystem) : ∀ e, Decidable (s.Allowed e)
  | .sysPipe _ _ => inferInstanceAs (Decidable (_ = none))
  | .sysSocket _ _ => inferInstanceAs (Decidable (s.Unused _))
  | .sysSocketpair _ _ _ _ | .call _ _ _ | .resume _ _ => inferInstanceAs (Decidable (_ ∧ _))
  | .sysBind _ | .sysListen _ | .sysGetpeername _ | .sysShutdown _ _ | .socketClose _ =>
    inferInstanceAs (Decidable (s.SocketOpen _))
  | .pipeClose _ _ => inferInstanceAs (Decidable (s.EndOpen _ _))
  | .wake _ => instDecidableTrue

end IpcSystem
end RetroOs.Kernel
