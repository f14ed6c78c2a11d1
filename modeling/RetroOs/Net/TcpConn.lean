import RetroOs.Lib.Runs
import RetroOs.Net.Tcp

/-! The life of one TCP connection: what a segment or a call can do to it, and its runs with what the
application has read. -/
namespace RetroOs.Net
open Lib Segment Option

variable {t u : Tcb} {g : Segment}

namespace Tcb

@[simp] theorem sendSegment_ack (t : Tcb) : t.sendSegment ackFlag 0 = t := by
  rw [sendSegment, if_neg (by decide)]
  simp

private theorem sendSegment_fin (t : Tcb) :
    t.sendSegment (finFlag ||| ackFlag) 0 = { t with sndNxt := t.sndNxt + 1 } := if_pos (by decide)

/-- The bytes of the segment that were accepted before. -/
def overlap (t : Tcb) (g : Segment) : Nat := (t.rcvNxt - g.seq).toNat

/-- The data branch takes what is behind the bytes accepted before: there are some, and there is room. -/
def Takes (t : Tcb) (g : Segment) : Prop :=
  g.seq ≤ t.rcvNxt ∧ t.overlap g < g.dataLen.toNat ∧ t.rx.length + (g.dataLen.toNat - t.overlap g) ≤ t.rxCapacity

instance (t : Tcb) (g : Segment) : Decidable (t.Takes g) := inferInstanceAs (Decidable (_ ∧ _))

theorem receiveData_eq (t : Tcb) (g : Segment) : t.receiveData g =
    if t.Takes g then t.accept (g.data (t.overlap g) (g.dataLen.toNat - t.overlap g)) else some t := by
  have hpos : g.dataLen > 0 ↔ 0 < g.dataLen.toNat := UInt16.lt_iff_toNat_lt
  rw [receiveData]
  split
  · next hlen =>
    simp only [sendSegment_ack, map_id']
    split
    · next heq =>
      have hover : t.overlap g = 0 := by rw [overlap, heq, UInt32.sub_self]; rfl
      rw [hover, Nat.sub_zero]
      have htakes : t.Takes g ↔ t.rx.length + g.dataLen.toNat ≤ t.rxCapacity := by
        rw [Takes, hover, Nat.sub_zero]
        exact ⟨fun h => h.2.2, fun h => ⟨heq ▸ UInt32.le_refl _, hlen, h⟩⟩
      simp only [htakes]
    · next hne =>
      split
      · next hlt =>
        have hmore : g.dataLen.toUInt32 > t.rcvNxt - g.seq ↔ t.overlap g < g.dataLen.toNat := by
          rw [gt_iff_lt, UInt32.lt_iff_toNat_lt, UInt16.toNat_toUInt32]
          exact Iff.rfl
        split
        · next hgt =>
          have hsub : (g.dataLen.toUInt32 - (t.rcvNxt - g.seq)).toNat = g.dataLen.toNat - t.overlap g := by
            rw [UInt32.toNat_sub_of_le _ _ (UInt32.le_of_lt hgt), UInt16.toNat_toUInt32, overlap]
          have htakes : t.Takes g ↔ t.rx.length + (g.dataLen.toNat - t.overlap g) ≤ t.rxCapacity :=
            ⟨fun h => h.2.2, fun h => ⟨UInt32.le_of_lt hlt, hmore.mp hgt, h⟩⟩
          simp only [hsub, htakes, overlap]
        · next hle =>
          rw [if_neg fun h => hle (hmore.mpr h.2.1)]
      · next hge =>
        rw [if_neg]
        intro h
        apply hge
        exact UInt32.lt_of_le_of_ne h.1 hne
  · next hlen =>
    rw [if_neg fun h => hlen (Nat.lt_of_le_of_lt (Nat.zero_le _) h.2.1)]

theorem receiveData_cases (e : t.receiveData g = some u) :
    (t.Takes g ∧ u = { t with
      rx := t.rx ++ g.data (t.overlap g) (g.dataLen.toNat - t.overlap g)
      rcvNxt := t.rcvNxt + UInt32.ofNat (g.dataLen.toNat - t.overlap g) }) ∨ ¬ t.Takes g ∧ u = t := by
  rw [receiveData_eq] at e
  split at e
  · next htakes =>
    obtain ⟨_, -, rfl⟩ := Option.map_eq_some_iff.mp e
    have hlen : (g.data (t.overlap g) (g.dataLen.toNat - t.overlap g)).length = g.dataLen.toNat - t.overlap g := by
      simp [data, Memory.bytes]
    exact .inl ⟨htakes, by rw [hlen]⟩
  · next htakes => exact .inr ⟨htakes, (some.inj e).symm⟩

theorem acknowledge_cases (t : Tcb) (g : Segment) :
    (g.ack > t.sndUna ∧ g.ack ≤ t.sndNxt ∧ t.acknowledge g = { t with sndUna := g.ack }) ∨ t.acknowledge g = t := by
  rw [acknowledge]
  split
  · next h => exact .inl ⟨h.2.1, h.2.2, rfl⟩
  · exact .inr rfl

theorem acknowledge_eq (t : Tcb) (g : Segment) : ∃ una, t.acknowledge g = { t with sndUna := una } := by
  obtain ⟨-, -, h⟩ | h := t.acknowledge_cases g
  · exact ⟨g.ack, h⟩
  · exact ⟨t.sndUna, h⟩

theorem receiveData_frame (hd : (t.acknowledge g).receiveData g = some u) :
    u.used = t.used ∧ u.rxBuffer = t.rxBuffer ∧ u.state = t.state ∧ u.sndNxt = t.sndNxt ∧
      u.sndUna = (t.acknowledge g).sndUna := by
  obtain ⟨una, hack⟩ := t.acknowledge_eq g
  rw [hack] at hd ⊢
  obtain ⟨-, rfl⟩ | ⟨-, rfl⟩ := receiveData_cases hd
  · exact ⟨rfl, rfl, rfl, rfl, rfl⟩
  · exact ⟨rfl, rfl, rfl, rfl, rfl⟩

inductive Received (t : Tcb) (g : Segment) : Tcb → Prop where
  | opened (hs : t.state = .synSent)
      (hf : g.flags &&& (synFlag ||| ackFlag) = synFlag ||| ackFlag) :
      Received t g { t with rcvNxt := g.seq + 1, sndUna := g.ack, state := .established }
  | data {u : Tcb} (hs : t.state = .established) (hd : (t.acknowledge g).receiveData g = some u)
      (hf : g.has finFlag = false) : Received t g u
  | dataFin {u : Tcb} (hs : t.state = .established) (hd : (t.acknowledge g).receiveData g = some u)
      (hf : g.has finFlag = true) : Received t g { u with rcvNxt := u.rcvNxt + 1, state := .closeWait }
  | fin (hs : t.state = .finWait1 ∨ t.state = .finWait2) (hf : g.has finFlag = true) :
      Received t g { t with rcvNxt := t.rcvNxt + 1, state := .timeWait }
  | acked (hs : t.state = .finWait1) (ha : g.has ackFlag = true) (hf : g.has finFlag = false) :
      Received t g { t with state := .finWait2 }
  | freed (hs : t.state = .lastAck) (ha : g.has ackFlag = true) : Received t g zero
  | ignored (hs : t.state ≠ .established) : Received t g t

theorem receiveFin_eq (t : Tcb) (next : TcpState) :
    t.receiveFin next = { t with rcvNxt := t.rcvNxt + 1, state := next } := by
  rw [receiveFin, sendSegment_ack]

theorem handle_received (e : t.handle g = some u) : t.Received g u := by
  rw [handle] at e
  split at e
  · next hs =>
    split at e
    · next hf =>
      rw [sendSegment_ack] at e
      cases e
      exact .opened hs hf
    · cases e
      exact .ignored (by rw [hs]; decide)
  · next hs =>
    obtain ⟨v, hd, rfl⟩ := map_eq_some_iff.mp e
    split
    · next hf =>
      rw [receiveFin_eq]
      exact .dataFin hs hd hf
    · next hf => exact .data hs hd (Bool.eq_false_of_not_eq_true hf)
  · next hs =>
    cases e
    split
    · next hf =>
      rw [receiveFin_eq]
      have hu := Received.fin (t := t) (g := g) (.inl hs) hf
      split
      · exact hu
      · exact hu
    · next hf =>
      split
      · next ha => exact .acked hs ha (Bool.eq_false_of_not_eq_true hf)
      · exact .ignored (by rw [hs]; decide)
  · next hs =>
    cases e
    split
    · next hf =>
      rw [receiveFin_eq]
      exact .fin (.inr hs) hf
    · exact .ignored (by rw [hs]; decide)
  · next hs =>
    cases e
    split
    · next ha => exact .freed hs ha
    · exact .ignored (by rw [hs]; decide)
  · next hs =>
    cases e
    exact .ignored ‹_›

theorem Received.frame (hr : t.Received g u) :
    t.state = .lastAck ∧ g.has ackFlag = true ∧ u = zero ∨ u.used = t.used ∧ u.rxBuffer = t.rxBuffer := by
  cases hr with
  | opened => exact .inr ⟨rfl, rfl⟩
  | data _ hd =>
    obtain ⟨hu, hb, -⟩ := receiveData_frame hd
    exact .inr ⟨hu, hb⟩
  | dataFin _ hd =>
    obtain ⟨hu, hb, -⟩ := receiveData_frame hd
    exact .inr ⟨hu, hb⟩
  | fin => exact .inr ⟨rfl, rfl⟩
  | acked => exact .inr ⟨rfl, rfl⟩
  | freed hst ha => exact .inl ⟨hst, ha, rfl⟩
  | ignored => exact .inr ⟨rfl, rfl⟩

theorem sendData_eq (t : Tcb) (len : UInt16) : t.sendData len = t ∨
    t.state = .established ∧ t.sendData len = { t with sndNxt := t.sndNxt + len.toUInt32 } := by
  rw [sendData]
  split
  · next hs =>
    right
    exact ⟨hs, if_neg (by decide)⟩
  · exact .inl rfl

theorem close_eq (t : Tcb) : t.close = t ∧ ¬ (t.state = .established ∨ t.state = .closeWait) ∨
    t.state = .established ∧ t.close = { t with sndNxt := t.sndNxt + 1, state := .finWait1 } ∨
    t.state = .closeWait ∧ t.close = { t with sndNxt := t.sndNxt + 1, state := .lastAck } := by
  rw [close]
  split
  · next hs =>
    rw [sendSegment_fin]
    exact .inr (.inl ⟨hs, rfl⟩)
  · next hs =>
    rw [sendSegment_fin]
    exact .inr (.inr ⟨hs, rfl⟩)
  · next hest hwait => exact .inl ⟨rfl, fun h => h.elim hest hwait⟩

theorem connect_eq (localIp remoteIp : UInt32) (localPort remotePort : UInt16) (rxBuffer : Option Nat) :
    connect localIp localPort remoteIp remotePort rxBuffer = { zero with
      used := true, rxCapacity := rxBufferSize, rxBuffer, localIp, remoteIp, localPort := htons localPort
      remotePort := htons remotePort, sndNxt := initialSeq + 1, sndUna := initialSeq, state := .synSent } := by
  rw [connect, sendSegment, if_pos (by decide)]

end Tcb

/-- A connection, with the first sequence number of the peer, what the application has read, and how many numbers its
own SYN, data and FIN have taken. -/
structure TcpConn where
  tcb : Tcb
  irs : UInt32
  delivered : List UInt8
  sent : Nat

namespace TcpConn

def start (localIp : UInt32) (localPort : UInt16) (remoteIp : UInt32) (remotePort : UInt16) (rxBuffer : Option Nat) : TcpConn where
  tcb := .connect localIp localPort remoteIp remotePort rxBuffer
  irs := 0
  delivered := []
  sent := 1

/-- The number of the last segment in `SYN_SENT` is that of the peer's SYN. -/
def nextIrs (c : TcpConn) : TcpEvent → UInt32
  | .segment g => if c.tcb.state = .synSent then g.seq else c.irs
  | _ => c.irs

def nextSent (c : TcpConn) : TcpEvent → Nat
  | .send len => if c.tcb.state = .established then c.sent + len.toNat else c.sent
  | .close => if c.tcb.state = .established ∨ c.tcb.state = .closeWait then c.sent + 1 else c.sent
  | _ => c.sent

/-- A step of a connection that is in use. -/
def exec (c : TcpConn) (e : TcpEvent) : Option TcpConn :=
  if c.tcb.used then
    (c.tcb.exec e).map fun r =>
      { tcb := r.1, irs := c.nextIrs e, delivered := c.delivered ++ r.2, sent := c.nextSent e }
  else none

theorem exec_cases {c d : TcpConn} {e : TcpEvent} (e' : c.exec e = some d) : c.tcb.used = true ∧ d.irs = c.nextIrs e ∧ d.sent = c.nextSent e ∧
    ∃ out, c.tcb.exec e = some (d.tcb, out) ∧ d.delivered = c.delivered ++ out := by
  rw [exec] at e'
  split at e'
  · next hu =>
    obtain ⟨⟨t, out⟩, he, rfl⟩ := map_eq_some_iff.mp e'
    exact ⟨hu, rfl, rfl, out, he, rfl⟩
  · cases e'

/-- The bytes accepted so far. -/
def accepted (c : TcpConn) : List UInt8 := c.delivered ++ c.tcb.rx

def sample (seq ack : UInt32) (offset flags : UInt8) (data : List UInt8) (h : 20 ≤ UInt16.ofNat (20 + data.length)) : Segment :=
  let fields : List UInt8 :=
    [0, 0, 0, 0, (seq >>> 24).toUInt8, (seq >>> 16).toUInt8, (seq >>> 8).toUInt8, seq.toUInt8, (ack >>> 24).toUInt8,
      (ack >>> 16).toUInt8, (ack >>> 8).toUInt8, ack.toUInt8, offset, flags, 0, 0, 0, 0, 0, 0]
  { srcIp := 0, dstIp := 0, packet := fun a => (fields ++ data).getD a 0, len := UInt16.ofNat (20 + data.length), header := h }

/-- The answer to the SYN, of a peer that starts with the last number. -/
def synAck : Segment := sample 0xFFFFFFFF 0x1001 0x50 0x12 [] (by decide)

end TcpConn
end RetroOs.Net
