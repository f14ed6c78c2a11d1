import RetroOs.Lib.CString
import RetroOs.Net.Tcp

/-! UDP: the table of handlers by port, and the sockets, which share one handler. A socket call gives the table and what
it returns. -/
namespace RetroOs.Net
open Lib

/-- The handlers that the kernel binds. -/
inductive UdpHandler where
  | socketRx
  | dhcpRx
  | dnsRx
  deriving DecidableEq, Repr

/-- A datagram as a handler gets it. -/
structure Datagram where
  srcIp : UInt32
  srcPort : UInt16
  data : List UInt8
  deriving DecidableEq, Repr

structure Udp where
  portTable : UInt16 → Option UdpHandler

namespace Udp

def headerSize : Nat := 8

def srcPort (packet : Memory) : UInt16 := htons (UInt16.ofNat (packet.load16 0))
def dstPort (packet : Memory) : UInt16 := htons (UInt16.ofNat (packet.load16 2))
def len (packet : Memory) : Nat := (htons (UInt16.ofNat (packet.load16 4))).toNat

def bind (u : Udp) (port : UInt16) (handler : UdpHandler) : Udp where
  portTable := Function.update u.portTable port (some handler)

def init : Udp where
  portTable _ := none

def receive (u : Udp) (srcIp : UInt32) (packet : Memory) (length : Nat) : Option (UdpHandler × Datagram) :=
  if length < headerSize then none
  else if len packet < headerSize then none
  else
    (u.portTable (dstPort packet)).map fun handler =>
      (handler, { srcIp, srcPort := srcPort packet, data := packet.bytes headerSize (len packet - headerSize) })

end Udp

inductive SocketState where
  | free
  | created
  | bound
  | listening
  | connecting
  | connected
  | closing
  | closed
  deriving DecidableEq, Repr

def SocketState.number : SocketState → Nat
  | free => 0
  | created => 1
  | bound => 2
  | listening => 3
  | connecting => 4
  | connected => 5
  | closing => 6
  | closed => 7

def sockStream : Int := 1
def sockDgram : Int := 2

structure SocketEntry where
  used : Bool
  type : Int
  state : SocketState
  localIp : UInt32
  localPort : UInt16
  remoteIp : UInt32
  remotePort : UInt16
  tcpHandle : Option Nat
  rxBuffer : Option Memory
  rxHead : Nat
  rxTail : Nat
  rxCapacity : Nat

namespace SocketEntry

def bufferSize : Nat := 8192

def zero : SocketEntry where
  used := false
  type := 0
  state := .free
  localIp := 0
  localPort := 0
  remoteIp := 0
  remotePort := 0
  tcpHandle := none
  rxBuffer := none
  rxHead := 0
  rxTail := 0
  rxCapacity := 0

def Receives (s : SocketEntry) : Prop := s.used = true ∧ s.type = sockDgram ∧ SocketState.bound.number ≤ s.state.number

instance (s : SocketEntry) : Decidable s.Receives := inferInstanceAs (Decidable (_ ∧ _))

/-- The datagram goes behind those in the buffer, with its source and its length before it. -/
def store (s : SocketEntry) (d : Datagram) : SocketEntry :=
  match s.rxBuffer with
  | none => s
  | some m =>
    if s.rxTail + d.data.length + 8 < s.rxCapacity then
      { s with
        rxBuffer := some ((((m.store32 s.rxTail d.srcIp.toNat).store16 (s.rxTail + 4) d.srcPort.toNat).store16 (s.rxTail + 6)
          d.data.length).memcpy (s.rxTail + 8) d.data)
        rxTail := s.rxTail + (8 + d.data.length) }
    else s

/-- The first datagram in the buffer. -/
def packet (s : SocketEntry) (m : Memory) : Datagram where
  srcIp := UInt32.ofNat (m.load32 s.rxHead)
  srcPort := UInt16.ofNat (m.load16 (s.rxHead + 4))
  data := m.bytes (s.rxHead + 8) (m.load16 (s.rxHead + 6))

/-- The first datagram leaves the buffer, cut to the length asked for. Without a buffer nothing was ever queued. -/
def take (s : SocketEntry) (len : Nat) : SocketEntry × Option Datagram :=
  match s.rxBuffer with
  | none => (s, none)
  | some m =>
    let d := s.packet m
    let head := s.rxHead + (8 + d.data.length)
    ({ s with
        rxHead := if head ≥ s.rxTail then 0 else head
        rxTail := if head ≥ s.rxTail then 0 else s.rxTail }, some { d with data := d.data.take len })

end SocketEntry

structure SocketTable where
  sockets : Nat → SocketEntry
  nextEphemeralPort : UInt16
  udp : Udp

namespace SocketTable

def maxSockets : Nat := 64

def localIp : UInt32 := 0x0F02000A

variable (s : SocketTable)

def setSocket (i : Nat) (e : SocketEntry) : SocketTable := { s with sockets := Function.update s.sockets i e }

def socketAlloc : Option Nat := (List.range maxSockets).find? fun i => !(s.sockets i).used

/-- The slot of an open socket. -/
def socketGet (fd : Int) : Option Nat :=
  if fd < 0 ∨ fd ≥ maxSockets then none else if (s.sockets fd.toNat).used then some fd.toNat else none

def allocEphemeralPort : SocketTable × UInt16 :=
  let next := s.nextEphemeralPort + 1
  ({ s with nextEphemeralPort := if next > 65000 then 49152 else next }, s.nextEphemeralPort)

/-- The handler of all sockets: it is not told the port. -/
def udpSocketRx (d : Datagram) : SocketTable :=
  match (List.range maxSockets).find? fun i => decide (s.sockets i).Receives with
  | none => s
  | some i => s.setSocket i ((s.sockets i).store d)

def netSocket (type : Int) (buffer : Option Memory) : SocketTable × Int :=
  if type ≠ sockStream ∧ type ≠ sockDgram then (s, -1)
  else
    match s.socketAlloc with
    | none => (s, -1)
    | some fd =>
      (s.setSocket fd { SocketEntry.zero with
        used := true
        state := .created
        type
        rxCapacity := SocketEntry.bufferSize
        rxBuffer := buffer }, fd)

def netBind (fd : Int) (sinAddr : UInt32) (sinPort : UInt16) : SocketTable × Int :=
  match s.socketGet fd with
  | none => (s, -1)
  | some i =>
    let e := { s.sockets i with
      localIp := if sinAddr ≠ 0 then sinAddr else localIp
      localPort := htons sinPort
      state := .bound }
    let s := s.setSocket i e
    (if e.type = sockDgram then { s with udp := s.udp.bind e.localPort .socketRx } else s, 0)

def netListen (fd : Int) : SocketTable × Int :=
  match s.socketGet fd with
  | none => (s, -1)
  | some i =>
    if (s.sockets i).type ≠ sockStream ∨ (s.sockets i).state ≠ .bound then (s, -1)
    else (s.setSocket i { s.sockets i with state := .listening }, 0)

def netConnect (fd : Int) (sinAddr : UInt32) (sinPort : UInt16) (tcb : Option Nat) : SocketTable × Option Int :=
  match s.socketGet fd with
  | none => (s, some (-1))
  | some i =>
    let old := (s.sockets i).localPort
    let (s, port) := if old = 0 then s.allocEphemeralPort else (s, old)
    let e := { s.sockets i with remoteIp := sinAddr, remotePort := htons sinPort, localPort := port, localIp := localIp }
    if e.type = sockStream then
      match tcb with
      | none => (s.setSocket i { e with state := .connecting }, some (-1))
      | some t => (s.setSocket i { e with state := .connecting, tcpHandle := some t }, none)
    else (s.setSocket i { e with state := .connected }, some 0)

/-- The end of the wait in `net_connect`, in the slot that it began with. -/
def connected (i : Nat) : SocketTable := s.setSocket i { s.sockets i with state := .connected }

def netSendto (fd : Int) (len : Int) : SocketTable × Int :=
  match s.socketGet fd with
  | none => (s, -1)
  | some i =>
    if (s.sockets i).type ≠ sockDgram then (s, -1)
    else if (s.sockets i).localPort = 0 then
      let (s, port) := s.allocEphemeralPort
      let s := s.setSocket i { s.sockets i with localPort := port, localIp := localIp }
      ({ s with udp := s.udp.bind port .socketRx }, len)
    else (s, len)

def netRecv (fd : Int) (len : Nat) : SocketTable × Option Datagram :=
  match s.socketGet fd with
  | none => (s, none)
  | some i =>
    if (s.sockets i).type = sockStream ∨ (s.sockets i).rxHead ≥ (s.sockets i).rxTail then (s, none)
    else (s.setSocket i ((s.sockets i).take len).1, ((s.sockets i).take len).2)

/-- `net_recvfrom` after its wait, which may have been in vain. -/
def netRecvfrom (fd : Int) (len : Nat) : SocketTable × Option Datagram :=
  match s.socketGet fd with
  | none => (s, none)
  | some i =>
    if (s.sockets i).type ≠ sockDgram ∨ (s.sockets i).rxHead ≥ (s.sockets i).rxTail then (s, none)
    else (s.setSocket i ((s.sockets i).take len).1, ((s.sockets i).take len).2)

def netClose (fd : Int) : SocketTable × Int :=
  match s.socketGet fd with
  | none => (s, -1)
  | some i => (s.setSocket i .zero, 0)

def init : SocketTable where
  sockets _ := .zero
  nextEphemeralPort := 49152
  udp := .init

end SocketTable

/-- The calls of the applications, the other users of the port table, and what the network brings. -/
inductive SocketCall where
  | socket (type : Int) (buffer : Option Memory)
  | bind (fd : Int) (sinAddr : UInt32) (sinPort : UInt16)
  | listen (fd : Int)
  | connect (fd : Int) (sinAddr : UInt32) (sinPort : UInt16) (tcb : Option Nat)
  | connected (i : Nat)
  | sendto (fd : Int) (len : Int)
  | recv (fd : Int) (len : Nat)
  | recvfrom (fd : Int) (len : Nat)
  | close (fd : Int)
  | dhcpInit
  | dnsInit
  | udpInit
  | datagram (srcIp : UInt32) (packet : Memory) (length : Nat)

def dhcpClientPort : UInt16 := 68
def dnsClientPort : UInt16 := 53053

def SocketTable.exec (s : SocketTable) : SocketCall → SocketTable
  | .socket type buffer => (s.netSocket type buffer).1
  | .bind fd addr port => (s.netBind fd addr port).1
  | .listen fd => (s.netListen fd).1
  | .connect fd addr port tcb => (s.netConnect fd addr port tcb).1
  | .connected i => s.connected i
  | .sendto fd len => (s.netSendto fd len).1
  | .recv fd len => (s.netRecv fd len).1
  | .recvfrom fd len => (s.netRecvfrom fd len).1
  | .close fd => (s.netClose fd).1
  | .dhcpInit => { s with udp := s.udp.bind dhcpClientPort .dhcpRx }
  | .dnsInit => { s with udp := s.udp.bind dnsClientPort .dnsRx }
  | .udpInit => { s with udp := .init }
  | .datagram srcIp packet length =>
    match s.udp.receive srcIp packet length with
    | some (.socketRx, d) => s.udpSocketRx d
    | _ => s

end RetroOs.Net
