import RetroOs.Lib.Memory

/-! The kernel's TCP: a table of sixteen connections, the segments that they receive, and the calls of
the application. What is put on the wire is left out, except that it moves `snd_nxt`. -/
namespace RetroOs.Net
open Lib

def htons (x : UInt16) : UInt16 := (x <<< 8) ||| (x >>> 8)

theorem htons_toNat (x : UInt16) : (htons x).toNat = x.toNat % 256 * 256 + x.toNat / 256 := by
  have h := x.toNat_lt
  have hleft : (x <<< 8).toNat = (x.toNat % 256) <<< 8 := by
    rw [UInt16.toNat_shiftLeft, Nat.shiftLeft_eq, Nat.shiftLeft_eq]
    simp
    omega
  have hright : (x >>> 8).toNat = x.toNat / 256 := by
    rw [UInt16.toNat_shiftRight, Nat.shiftRight_eq_div_pow]
    rfl
  rw [htons, UInt16.toNat_or, hleft, hright, ← Nat.shiftLeft_add_eq_or_of_lt (by omega), Nat.shiftLeft_eq]

theorem htons_htons (x : UInt16) : htons (htons x) = x := by
  have h := x.toNat_lt
  rw [← UInt16.toNat_inj, htons_toNat, htons_toNat]
  omega

def htonl (x : UInt32) : UInt32 :=
  ((x &&& 0xFF) <<< 24) ||| ((x &&& 0xFF00) <<< 8) ||| ((x &&& 0xFF0000) >>> 8) ||| ((x &&& 0xFF000000) >>> 24)

inductive TcpState where
  | closed
  | listen
  | synSent
  | synReceived
  | established
  | finWait1
  | finWait2
  | closeWait
  | lastAck
  | timeWait
  deriving DecidableEq, Repr

/-- A segment that holds a header: the bytes from `packet` on, and how many of them were received. -/
structure Segment where
  srcIp : UInt32
  dstIp : UInt32
  packet : Memory
  len : UInt16
  header : 20 ≤ len

namespace Segment

def finFlag : UInt8 := 0x01
def synFlag : UInt8 := 0x02
def rstFlag : UInt8 := 0x04
def pshFlag : UInt8 := 0x08
def ackFlag : UInt8 := 0x10

variable (g : Segment)

def srcPort : UInt16 := UInt16.ofNat (g.packet.load16 0)
def dstPort : UInt16 := UInt16.ofNat (g.packet.load16 2)
def seq : UInt32 := htonl (UInt32.ofNat (g.packet.load32 4))
def ack : UInt32 := htonl (UInt32.ofNat (g.packet.load32 8))
def flags : UInt8 := g.packet 13
def hdrLen : UInt16 := (g.packet 12 >>> 4).toUInt16 * 4

/-- Wraps where the header length is past the end of the segment. -/
def dataLen : UInt16 := g.len - g.hdrLen

def data (start n : Nat) : List UInt8 := g.packet.bytes (g.hdrLen.toNat + start) n

def has (flag : UInt8) : Bool := g.flags &&& flag != 0

end Segment

/-- `tcp_tcb_t`. The buffer is the address that `kmalloc` gave, and `rx` its first `rx_len` bytes. -/
structure Tcb where
  used : Bool
  localIp : UInt32
  remoteIp : UInt32
  localPort : UInt16
  remotePort : UInt16
  sndUna : UInt32
  sndNxt : UInt32
  rcvNxt : UInt32
  state : TcpState
  rxBuffer : Option Nat
  rx : List UInt8
  rxCapacity : Nat

namespace Tcb

def rxBufferSize : Nat := 32768
def initialSeq : UInt32 := 0x1000

/-- The control block after `memset`. -/
def zero : Tcb where
  used := false
  localIp := 0
  remoteIp := 0
  localPort := 0
  remotePort := 0
  sndUna := 0
  sndNxt := 0
  rcvNxt := 0
  state := .closed
  rxBuffer := none
  rx := []
  rxCapacity := 0

def sendSegment (t : Tcb) (flags : UInt8) (len : UInt16) : Tcb :=
  if flags &&& Segment.synFlag ≠ 0 ∨ flags &&& Segment.finFlag ≠ 0 then { t with sndNxt := t.sndNxt + 1 }
  else { t with sndNxt := t.sndNxt + len.toUInt32 }

/-- The block that `tcp_alloc_tcb` and `tcp_connect` fill in. -/
def connect (localIp : UInt32) (localPort : UInt16) (remoteIp : UInt32) (remotePort : UInt16) (rxBuffer : Option Nat) : Tcb :=
  sendSegment { zero with
    used := true, rxCapacity := rxBufferSize, rxBuffer, localIp, remoteIp, localPort := htons localPort
    remotePort := htons remotePort, sndNxt := initialSeq, sndUna := initialSeq, state := .synSent } Segment.synFlag 0

/-- Bytes are copied behind those in the buffer; not through a null pointer. -/
def accept (t : Tcb) (bytes : List UInt8) : Option Tcb :=
  t.rxBuffer.map fun _ => { t with rx := t.rx ++ bytes, rcvNxt := t.rcvNxt + UInt32.ofNat bytes.length }

def receiveData (t : Tcb) (g : Segment) : Option Tcb :=
  if g.dataLen > 0 then
    if g.seq = t.rcvNxt then
      if t.rx.length + g.dataLen.toNat ≤ t.rxCapacity then
        (t.accept (g.data 0 g.dataLen.toNat)).map fun t => t.sendSegment Segment.ackFlag 0
      else some t
    else if g.seq < t.rcvNxt then
      let overlap := t.rcvNxt - g.seq
      let r :=
        if g.dataLen.toUInt32 > overlap then
          let newLen := g.dataLen.toUInt32 - overlap
          if t.rx.length + newLen.toNat ≤ t.rxCapacity then t.accept (g.data overlap.toNat newLen.toNat) else some t
        else some t
      r.map fun t => t.sendSegment Segment.ackFlag 0
    else some (t.sendSegment Segment.ackFlag 0)
  else some t

/-- A FIN is consumed. -/
def receiveFin (t : Tcb) (next : TcpState) : Tcb :=
  { sendSegment { t with rcvNxt := t.rcvNxt + 1 } Segment.ackFlag 0 with state := next }

/-- The acknowledgement number in `ESTABLISHED`. -/
def acknowledge (t : Tcb) (g : Segment) : Tcb :=
  if g.has Segment.ackFlag ∧ g.ack > t.sndUna ∧ g.ack ≤ t.sndNxt then { t with sndUna := g.ack } else t

/-- `tcp_handle_packet`, for the connection that `tcp_find` found. The block of a connection that is over is
cleared by `tcp_free_tcb`. -/
def handle (t : Tcb) (g : Segment) : Option Tcb :=
  match t.state with
  | .synSent =>
    if g.flags &&& (Segment.synFlag ||| Segment.ackFlag) = Segment.synFlag ||| Segment.ackFlag then
      some (sendSegment { t with rcvNxt := g.seq + 1, sndUna := g.ack, state := .established } Segment.ackFlag 0)
    else some t
  | .established =>
    ((t.acknowledge g).receiveData g).map fun t => if g.has Segment.finFlag then t.receiveFin .closeWait else t
  | .finWait1 =>
    let t := if g.has Segment.ackFlag then { t with state := .finWait2 } else t
    some (if g.has Segment.finFlag then t.receiveFin .timeWait else t)
  | .finWait2 => some (if g.has Segment.finFlag then t.receiveFin .timeWait else t)
  | .lastAck => some (if g.has Segment.ackFlag then zero else t)
  | _ => some t

def sendData (t : Tcb) (len : UInt16) : Tcb :=
  if t.state = .established then t.sendSegment (Segment.ackFlag ||| Segment.pshFlag) len else t

def readData (t : Tcb) (len : UInt16) : Tcb × List UInt8 :=
  let toRead := min len.toNat t.rx.length
  ({ t with rx := t.rx.drop toRead }, t.rx.take toRead)

def close (t : Tcb) : Tcb :=
  match t.state with
  | .established => sendSegment { t with state := .finWait1 } (Segment.finFlag ||| Segment.ackFlag) 0
  | .closeWait => sendSegment { t with state := .lastAck } (Segment.finFlag ||| Segment.ackFlag) 0
  | _ => t

end Tcb

/-- What happens to a connection. -/
inductive TcpEvent where
  | segment (g : Segment)
  | send (len : UInt16)
  | read (len : UInt16)
  | close

/-- The connection afterwards, and the bytes that the application got. -/
def Tcb.exec (t : Tcb) : TcpEvent → Option (Tcb × List UInt8)
  | .segment g => (t.handle g).map fun t => (t, [])
  | .send len => some (t.sendData len, [])
  | .read len => some (t.readData len)
  | .close => some (t.close, [])

end RetroOs.Net
