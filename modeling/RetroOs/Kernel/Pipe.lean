import RetroOs.Lib.RingBuffer
import Mathlib.Data.List.TakeDrop

/-! Pipes and connected local sockets: bytes in a ring buffer, and calls that wait in `schedule` as long as they have
transferred nothing. Pipes and sockets are named by address. -/
namespace RetroOs.Kernel
open Lib Function

/-- Pipes and sockets have the same size. -/
def pipeSize : ℕ := 4096

instance : NeZero pipeSize := ⟨by decide⟩

abbrev ByteRing := RingBuffer pipeSize UInt8

structure Pipe where
  ring : ByteRing
  readClosed : Bool
  writeClosed : Bool

inductive SocketState where
  | free
  | bound
  | listening
  | connecting
  | connected
  | closed
  deriving DecidableEq

structure Socket where
  state : SocketState
  peer : ℕ
  backlog : List ℕ
  ring : ByteRing

/-- The loop of a read, until it waits (`none`) or ends with some bytes: it waits only before the first byte. -/
def readLoop (writeClosed : Bool) (size : ℕ) (ring : ByteRing) : Option (List UInt8 × ByteRing) :=
  if size ≠ 0 ∧ ring.head = ring.tail ∧ writeClosed = false then none else some (ring.take size)

/-- The loop of a write, until it waits or ends with a number of bytes. -/
def writeLoop (data : List UInt8) (ring : ByteRing) : Option (ℕ × ByteRing) :=
  if data ≠ [] ∧ ring.tail + 1 = ring.head then none else some (ring.put data)

def Pipe.readOn (p : Pipe) (size : ℕ) : Option (List UInt8 × Pipe) :=
  (readLoop p.writeClosed size p.ring).map fun x => (x.1, { p with ring := x.2 })

def pipeRead (p : Pipe) (size : ℕ) : Option (List UInt8 × Pipe) := if p.readClosed then some ([], p) else p.readOn size

def Pipe.writeOn (p : Pipe) (data : List UInt8) : Option (ℕ × Pipe) :=
  (writeLoop data p.ring).map fun x => (x.1, { p with ring := x.2 })

def pipeWrite (p : Pipe) (data : List UInt8) : Option (ℕ × Pipe) :=
  if p.writeClosed ∨ p.readClosed then some (0, p) else p.writeOn data

def Socket.readOn (sock : Socket) (size : ℕ) : Option (List UInt8 × Socket) :=
  (readLoop false size sock.ring).map fun x => (x.1, { sock with ring := x.2 })

def socketRead (sock : Socket) (size : ℕ) : Option (List UInt8 × Socket) :=
  if sock.state ≠ .connected then some ([], sock) else sock.readOn size

def Socket.writeOn (peer : Socket) (data : List UInt8) : Option (ℕ × Socket) :=
  (writeLoop data peer.ring).map fun x => (x.1, { peer with ring := x.2 })

/-- `socket_write` goes on to its loop. -/
def Socket.Writable (sock : Socket) : Prop := sock.state = .connected ∧ sock.peer ≠ 0

instance (sock : Socket) : Decidable sock.Writable := inferInstanceAs (Decidable (_ ∧ _))

structure Ipc where
  pipes : ℕ → Option Pipe
  sockets : ℕ → Option Socket

namespace Ipc

def setPipe (s : Ipc) (a : ℕ) (p : Pipe) : Ipc := { s with pipes := update s.pipes a (some p) }

def setSocket (s : Ipc) (a : ℕ) (sock : Socket) : Ipc := { s with sockets := update s.sockets a (some sock) }

def setState (s : Ipc) (a : ℕ) (state : SocketState) : Ipc :=
  (s.sockets a).elim s fun sock => s.setSocket a { sock with state }

def setPeer (s : Ipc) (a peer : ℕ) : Ipc := (s.sockets a).elim s fun sock => s.setSocket a { sock with peer }

/-- What `kmalloc` gives for a buffer is not cleared. -/
def emptyRing (slots : Fin pipeSize → UInt8) : ByteRing := { slots, head := 0, tail := 0 }

def sysPipe (s : Ipc) (a : ℕ) (slots : Fin pipeSize → UInt8) : Ipc :=
  s.setPipe a { ring := emptyRing slots, readClosed := false, writeClosed := false }

def sysSocket (s : Ipc) (a : ℕ) (slots : Fin pipeSize → UInt8) : Ipc :=
  s.setSocket a { state := .free, peer := 0, backlog := [], ring := emptyRing slots }

def sysBind (s : Ipc) (a : ℕ) : Ipc := s.setState a .bound

def sysConnect (s : Ipc) (a server : ℕ) : Ipc :=
  match s.sockets a, s.sockets server with
  | some _, some v =>
    if (v.state = .bound ∨ v.state = .listening) ∧ v.backlog.length < 8 then
      (s.setSocket server { v with backlog := v.backlog ++ [a] }).setState a .connecting
    else s
  | _, _ => s

def sysAccept (s : Ipc) (server conn : ℕ) (slots : Fin pipeSize → UInt8) : Ipc :=
  match s.sockets server with
  | none => s
  | some v =>
    match v.backlog with
    | [] => s
    | client :: backlog =>
      let s := s.setSocket server { v with backlog }
      let s := s.setSocket conn { state := .connected, peer := client, backlog := [], ring := emptyRing slots }
      (s.setPeer client conn).setState client .connected

def sysSocketpair (s : Ipc) (a c : ℕ) (slots slots' : Fin pipeSize → UInt8) : Ipc :=
  (s.setSocket a { state := .connected, peer := c, backlog := [], ring := emptyRing slots }).setSocket c
    { state := .connected, peer := a, backlog := [], ring := emptyRing slots' }

theorem setSocket_again (s : Ipc) {a c : ℕ} (hac : a ≠ c) (first sock last : Socket) :
    ((s.setSocket c first).setSocket a sock).setSocket c last = (s.setSocket a sock).setSocket c last := by
  dsimp only [setSocket]
  rw [update_comm hac.symm, update_idem]

theorem setState_pipes (s : Ipc) (a : ℕ) (state : SocketState) : (s.setState a state).pipes = s.pipes := by
  rw [setState]
  cases s.sockets a <;> rfl

private theorem setPeer_pipes (s : Ipc) (a peer : ℕ) : (s.setPeer a peer).pipes = s.pipes := by
  rw [setPeer]
  cases s.sockets a <;> rfl

theorem sysConnect_pipes (s : Ipc) (a server : ℕ) : (s.sysConnect a server).pipes = s.pipes := by
  rw [sysConnect]
  cases s.sockets a with
  | none => rfl
  | some sock =>
    cases s.sockets server with
    | none => rfl
    | some v =>
      dsimp only
      split_ifs
      · exact setState_pipes ..
      · rfl

theorem sysAccept_pipes (s : Ipc) (server conn : ℕ) (slots : Fin pipeSize → UInt8) :
    (s.sysAccept server conn slots).pipes = s.pipes := by
  rw [sysAccept]
  cases s.sockets server with
  | none => rfl
  | some v =>
    dsimp only
    cases v.backlog with
    | nil => rfl
    | cons client backlog => exact (setState_pipes ..).trans (setPeer_pipes ..)

end Ipc
end RetroOs.Kernel
