import RetroOs.Net.Icmp
import RetroOs.Net.Sockets
import RetroOs.Net.TcpTable

/-! The receive path: which bytes of its buffer the handlers of a frame read, and which they hand on. -/
namespace RetroOs.Net
open Lib

/-- A range of bytes in a buffer of which `limit` bytes were received. -/
structure Span where
  start : Int
  size : Nat
  limit : Nat
  deriving DecidableEq, Repr

/-- Every byte of the range was received. -/
def Span.Inside (r : Span) : Prop := ∀ x : Int, r.start ≤ x → x < r.start + r.size → 0 ≤ x ∧ x < r.limit

/-- What the receive path reads of the state of the kernel; the size that a slot expects has 16 bits. -/
structure Receiver where
  localIp : UInt32
  gatewayIp : UInt32
  reassembly : Reassembly
  udp : Udp
  tcp : Tcp
  sizes : ∀ i, (reassembly.slots i).totalExpected < 65536

def arpRequest : UInt16 := 1
def arpReply : UInt16 := 2
def ethTypeArp : UInt16 := 0x0806

/-- `handle_arp`, which does not get the length of the frame. -/
def arpSpans (n : Receiver) (packet : Memory) (len : UInt16) : List Span :=
  let oper := htons (UInt16.ofNat (packet.load16 20))
  ⟨20, 2, len.toNat⟩ ::
    if oper = arpRequest then
      ⟨38, 4, len.toNat⟩ ::
        if packet.load32 38 = n.localIp.toNat then [⟨22, 6, len.toNat⟩, ⟨28, 4, len.toNat⟩] else []
    else if oper = arpReply then
      ⟨28, 4, len.toNat⟩ :: if packet.load32 28 = n.gatewayIp.toNat then [⟨22, 6, len.toNat⟩] else []
    else []

namespace IpPacket

/-- A packet in a buffer of its own. -/
def ofBytes (packet : List UInt8) : IpPacket where
  bytes a := packet.getD a 0
  received := packet.length

/-- A range from the first byte of a packet on, that starts behind `front` bytes of its buffer. -/
def span (ip : IpPacket) (front : Nat) (start : Int) (size : Nat) : Span := ⟨front + start, size, front + ip.received⟩

/-- The length of the message, as a handler gets it. -/
def messageLen (ip : IpPacket) : UInt16 := UInt16.ofNat (ip.payloadLen % 65536).toNat

/-- The message, from its first byte on. -/
def message (ip : IpPacket) : Memory := fun a => ip.bytes (ip.hdrLen + a)

variable (ip : IpPacket) (front : Nat)

/-- `handle_icmp` and `send_icmp_reply`, which looks for the sender in the Ethernet header in front of the packet. -/
def icmpSpans : List Span :=
  let total := ip.payloadLen.toNat
  ip.span front 0 1 :: ip.span front 2 2 ::
    if ip.payloadLen < icmpHeaderSize then []
    else
      ip.span front 20 1 ::
        if ip.bytes 20 = 8 then
          ip.span front 22 2 :: ip.span front 20 total ::
            if ip.bytes.load16 22 ≠ (htons (checksum (ip.bytes.store16 22 0) 20 total)).toNat then []
            else
              [ip.span front (-ethHeaderSize + 6) 6, ip.span front 0 headerSize, ip.span front 24 4,
                ip.span front 28 (total - icmpHeaderSize)]
        else []

/-- `handle_udp` and `udp_receive`: the datagram, the fields of its header, and the payload that a handler gets. -/
def udpSpans (n : Receiver) : List Span :=
  ip.span front 0 1 :: ip.span front 2 2 :: ip.span front 12 8 :: ip.span front ip.hdrLen ip.messageLen.toNat ::
    if ip.messageLen.toNat < Udp.headerSize then []
    else
      ip.span front ip.hdrLen 6 ::
        if Udp.len ip.message < Udp.headerSize then []
        else if (n.udp.portTable (Udp.dstPort ip.message)).isSome then
          [ip.span front (ip.hdrLen + Udp.headerSize) (Udp.len ip.message - Udp.headerSize)]
        else []

end IpPacket

/-- The bytes of a segment that a connection copies to its buffer (`receiveData_eq`): from where on, and how many. -/
def Tcb.copied (t : Tcb) (g : Segment) : Option (Nat × Nat) :=
  if t.state = .established ∧ t.Takes g then some (g.hdrLen.toNat + t.overlap g, g.dataLen.toNat - t.overlap g) else none

namespace IpPacket

variable (ip : IpPacket) (front : Nat)

def segment (h : 20 ≤ ip.messageLen) : Segment where
  srcIp := UInt32.ofNat ip.src
  dstIp := UInt32.ofNat ip.dst
  packet := ip.message
  len := ip.messageLen
  header := h

/-- The bytes that the connection copies for which the packet is, if there is one. -/
def copied (n : Receiver) : Option (Nat × Nat) :=
  if h : 20 ≤ ip.messageLen then (n.tcp.find (ip.segment h)).bind fun i => (n.tcp.table i).copied (ip.segment h) else none

/-- `handle_tcp` and `tcp_handle_packet`: the segment, its header, and the data that is copied. -/
def tcpSpans (n : Receiver) : List Span :=
  ip.span front 0 1 :: ip.span front 2 2 :: ip.span front 12 8 :: ip.span front ip.hdrLen ip.messageLen.toNat ::
    if ip.messageLen < 20 then []
    else
      ip.span front ip.hdrLen 14 ::
        match ip.copied n with
        | some (start, size) => [ip.span front (ip.hdrLen + start) size]
        | none => []

/-- `process_full_ip_packet` -/
def spans (n : Receiver) : List Span :=
  ip.span front 9 1 ::
    if ip.proto = ipProtoIcmp then ip.icmpSpans front
    else if ip.proto = ipProtoUdp then ip.udpSpans front n
    else if ip.proto = ipProtoTcp then ip.tcpSpans front n
    else []

/-- The payload is copied to the slot. Its length is a signed one, and that of `memcpy` is not. -/
def copySpans : List Span :=
  if ip.last ≤ ReassemblySlot.maxSize then [ip.span front ip.hdrLen (ip.payloadLen % 2 ^ 32).toNat] else []

end IpPacket

/-- All bytes up to the end are there. -/
def ReassemblySlot.Complete (slot : ReassemblySlot) : Prop := slot.totalExpected > 0 ∧ slot.currentSize ≥ slot.totalExpected

instance (slot : ReassemblySlot) : Decidable slot.Complete := inferInstanceAs (Decidable (_ ∧ _))

def ReassemblySlot.spans (slot : ReassemblySlot) (ip : IpPacket) (front : Nat) : List Span :=
  ip.copySpans front ++
    match slot.place ip with
    | some slot => if (slot.expect ip).Complete then [ip.span front 0 IpPacket.headerSize] else []
    | none => []

/-- `handle_ip_fragment`. The identification, which lies in front of the source, is read as well. -/
def fragmentSpans (n : Receiver) (ip : IpPacket) (now : UInt32) (buffer : Option Memory) (full : Bool) : List Span :=
  ip.span ethHeaderSize 6 2 :: ip.span ethHeaderSize 0 1 :: ip.span ethHeaderSize 2 2 ::
    (if ip.offset = 0 ∧ ip.moreFrags = false then []
      else
        ip.span ethHeaderSize 4 2 :: ip.span ethHeaderSize 12 4 ::
          match n.reassembly.claim ip now buffer with
          | none => []
          | some (s, i) => (s.slots i).spans ip ethHeaderSize) ++
    match n.reassembly.handleFragment ip now buffer full with
    | some (_, some (.whole ip)) => ip.spans ethHeaderSize n
    | some (_, some (.reassembled packet)) => (IpPacket.ofBytes packet).spans 0 n
    | _ => []

/-- `net_rx_handler`, with the time, and what `kmalloc` gives for a slot and for the full packet. -/
def rxSpans (n : Receiver) (packet : Memory) (len : UInt16) (now : UInt32) (buffer : Option Memory) (full : Bool) : List Span :=
  if len.toNat < ethHeaderSize then []
  else
    let type := htons (UInt16.ofNat (packet.load16 12))
    ⟨12, 2, len.toNat⟩ ::
      if type = ethTypeArp then arpSpans n packet len
      else if type = ethTypeIp then fragmentSpans n (frameIp packet len.toNat) now buffer full
      else []

end RetroOs.Net

/-! Which frames are read within their length: for each handler, what the lengths in its headers have to be. -/
namespace RetroOs.Net
open Lib

variable {n : Receiver} {ip : IpPacket} {front : Nat} {t : Tcb} {g : Segment} {slot : ReassemblySlot}
  {buffer : Option Memory} {full : Bool} {now : UInt32} {size : Nat}

theorem Span.inside_iff (r : Span) : r.Inside ↔ r.size = 0 ∨ 0 ≤ r.start ∧ r.start + r.size ≤ r.limit := by
  constructor
  · intro h
    by_cases hsize : r.size = 0
    · exact .inl hsize
    · have hfirst := h r.start (Int.le_refl _) (by omega)
      have hlast := h (r.start + r.size - 1) (by omega) (by omega)
      exact .inr ⟨hfirst.1, by omega⟩
  · intro h x hl hu
    omega

theorem IpPacket.span_inside {start : Int} :
    (ip.span front start size).Inside ↔ size = 0 ∨ -(front : Int) ≤ start ∧ start + size ≤ ip.received := by
  rw [Span.inside_iff, IpPacket.span]
  push_cast
  omega

/-! ### The ranges are those of the handlers -/

/-! ### What has to fit -/

/-- The addresses, and the message as its handler gets it. -/
structure MessageFits (ip : IpPacket) : Prop where
  header : IpPacket.headerSize ≤ ip.received
  message : ip.messageLen = 0 ∨ ip.hdrLen + ip.messageLen.toNat ≤ ip.received

/-- An echo request is read up to the end of its payload behind a header of twenty bytes, and one that is answered has to
lie behind an Ethernet header. A datagram is read for a port that is bound, as far as its own header says. A segment
whose header is longer than it is has more data than it, if the connection takes any. -/
structure PacketFits (n : Receiver) (front : Nat) (ip : IpPacket) : Prop where
  proto : 10 ≤ ip.received
  icmp : ip.proto = ipProtoIcmp → icmpHeaderSize ≤ ip.payloadLen → 21 ≤ ip.received ∧
    (ip.bytes 20 = 8 → 20 + ip.payloadLen ≤ ip.received ∧ (Accepted ip → 8 ≤ front))
  udp : ip.proto = ipProtoUdp → MessageFits ip ∧
    (8 ≤ ip.messageLen.toNat → (n.udp.portTable (Udp.dstPort ip.message)).isSome → ip.hdrLen + Udp.len ip.message ≤ ip.received)
  tcp : ip.proto = ipProtoTcp → MessageFits ip ∧
    ∀ (h : 20 ≤ ip.messageLen) (i : Nat), n.tcp.find (ip.segment h) = some i → (n.tcp.table i).state = .established →
      (n.tcp.table i).Takes (ip.segment h) → (ip.segment h).hdrLen ≤ ip.messageLen

/-- A payload that is copied lies behind its header, which is copied where the packet is complete; and the packet that is
put together fits in a buffer of its own. -/
structure SlotFits (n : Receiver) (slot : ReassemblySlot) (ip : IpPacket) (full : Bool) : Prop where
  copy : ip.last ≤ ReassemblySlot.maxSize → ip.payloadLen = 0 ∨ 0 ≤ ip.payloadLen ∧ ip.hdrLen + ip.payloadLen ≤ ip.received
  header : ∀ placed ∈ slot.place ip, (placed.expect ip).Complete → IpPacket.headerSize ≤ ip.received
  packet : ∀ after packet, slot.receive ip full = some (after, some (.reassembled packet)) → PacketFits n 0 (.ofBytes packet)

def IpFits (n : Receiver) (ip : IpPacket) (now : UInt32) (buffer : Option Memory) (full : Bool) : Prop :=
  if ip.offset = 0 ∧ ip.moreFrags = false then PacketFits n ethHeaderSize ip
  else 16 ≤ ip.received ∧ ∀ s i, n.reassembly.claim ip now buffer = some (s, i) → SlotFits n (s.slots i) ip full

/-- A frame that is read within its length. -/
structure FrameFits (n : Receiver) (packet : Memory) (len : UInt16) (now : UInt32) (buffer : Option Memory) (full : Bool) : Prop where
  arp : htons (UInt16.ofNat (packet.load16 12)) = ethTypeArp → 22 ≤ len.toNat ∧
    (htons (UInt16.ofNat (packet.load16 20)) = arpRequest → 42 ≤ len.toNat) ∧
    (htons (UInt16.ofNat (packet.load16 20)) = arpReply → 32 ≤ len.toNat)
  ip : htons (UInt16.ofNat (packet.load16 12)) = ethTypeIp → IpFits n (frameIp packet len.toNat) now buffer full

/-! ### The handlers -/

private theorem icmp_inside (hproto : 10 ≤ ip.received) :
    (∀ r ∈ ip.icmpSpans front, r.Inside) ↔
      (icmpHeaderSize ≤ ip.payloadLen → 21 ≤ ip.received ∧
        (ip.bytes 20 = 8 → 20 + ip.payloadLen ≤ ip.received ∧ (Accepted ip → 8 ≤ front))) := by
  have hmax := payloadLen_le ip
  rw [IpPacket.icmpSpans]
  simp only [List.forall_mem_cons, IpPacket.span_inside]
  by_cases hshort : ip.payloadLen < icmpHeaderSize
  · rw [if_pos hshort]
    refine iff_of_true ⟨by omega, by omega, fun _ h => absurd h List.not_mem_nil⟩ fun h => by omega
  · rw [if_neg hshort, forall_prop_of_true (Int.not_lt.mp hshort)]
    rw [icmpHeaderSize] at hshort
    have hlong : (8 : Int) ≤ ip.payloadLen := Int.not_lt.mp hshort
    by_cases htype : ip.bytes 20 = 8
    · rw [if_pos htype, forall_prop_of_true htype]
      have hacc : ip.bytes.load16 22 = (htons (checksum (ip.bytes.store16 22 0) 20 ip.payloadLen.toNat)).toNat ↔ Accepted ip := by
        rw [Accepted, and_iff_right htype, htons_checksum (by omega), memSum_zeroed ip hlong]
      by_cases hreply : Accepted ip
      · rw [if_neg (not_not.mpr (hacc.mpr hreply)), forall_prop_of_true hreply]
        simp only [List.forall_mem_cons, IpPacket.span_inside, ethHeaderSize, IpPacket.headerSize, icmpHeaderSize]
        constructor
        · intro h
          omega
        · intro h
          refine ⟨by omega, by omega, by omega, by omega, by omega, by omega, by omega, by omega, by omega, fun _ h => absurd h List.not_mem_nil⟩
      · rw [if_pos (mt hacc.mp hreply)]
        simp only [List.forall_mem_cons, IpPacket.span_inside]
        constructor
        · intro h
          exact ⟨by omega, by omega, fun h => absurd h hreply⟩
        · intro h
          refine ⟨by omega, by omega, by omega, by omega, by omega, fun _ h => absurd h List.not_mem_nil⟩
    · rw [if_neg htype]
      simp only [List.forall_mem_cons, IpPacket.span_inside]
      constructor
      · intro h
        exact ⟨by omega, fun h => absurd h htype⟩
      · intro h
        refine ⟨by omega, by omega, by omega, fun _ h => absurd h List.not_mem_nil⟩

private theorem message_inside (hproto : 10 ≤ ip.received) {rest : Prop} :
    (ip.span front 0 1).Inside ∧ (ip.span front 2 2).Inside ∧ (ip.span front 12 8).Inside ∧
      (ip.span front ip.hdrLen ip.messageLen.toNat).Inside ∧ rest ↔ MessageFits ip ∧ rest := by
  have hzero : ip.messageLen = 0 ↔ ip.messageLen.toNat = 0 := UInt16.toNat_inj.symm
  simp only [IpPacket.span_inside]
  constructor
  · rintro ⟨-, -, haddresses, hmessage, hrest⟩
    exact ⟨⟨by rw [IpPacket.headerSize]; omega, by rw [hzero]; omega⟩, hrest⟩
  · rintro ⟨⟨hheader, hmessage⟩, hrest⟩
    rw [IpPacket.headerSize] at hheader
    rw [hzero] at hmessage
    exact ⟨by omega, by omega, by omega, by omega, hrest⟩

theorem MessageFits.start (h : MessageFits ip) {k : Nat} (hk : k ≤ ip.messageLen.toNat) (hpos : 0 < k) :
    ip.hdrLen + k ≤ ip.received := by
  rcases h.message with hzero | hmessage
  · rw [hzero] at hk
    exact absurd (Nat.lt_of_lt_of_le hpos hk) (Nat.lt_irrefl 0)
  · exact Nat.le_trans (Nat.add_le_add_left hk _) hmessage

private theorem udp_inside (hproto : 10 ≤ ip.received) :
    (∀ r ∈ ip.udpSpans front n, r.Inside) ↔ MessageFits ip ∧
      (8 ≤ ip.messageLen.toNat → (n.udp.portTable (Udp.dstPort ip.message)).isSome →
        ip.hdrLen + Udp.len ip.message ≤ ip.received) := by
  rw [IpPacket.udpSpans, List.forall_mem_cons, List.forall_mem_cons, List.forall_mem_cons, List.forall_mem_cons, message_inside hproto]
  refine and_congr_right fun hfits => ?_
  have hheader : Udp.headerSize = 8 := rfl
  by_cases hshort : ip.messageLen.toNat < Udp.headerSize
  · rw [if_pos hshort]
    exact iff_of_true (fun _ h => absurd h List.not_mem_nil) fun h => by omega
  have hstart := hfits.start (k := 8) (by omega) (by decide)
  rw [if_neg hshort, List.forall_mem_cons, forall_prop_of_true (by omega : 8 ≤ ip.messageLen.toNat), IpPacket.span_inside,
    and_iff_right (by omega)]
  by_cases hlen : Udp.len ip.message < Udp.headerSize
  · rw [if_pos hlen]
    exact iff_of_true (fun _ h => absurd h List.not_mem_nil) fun _ => by omega
  rw [if_neg hlen]
  by_cases hbound : (n.udp.portTable (Udp.dstPort ip.message)).isSome = true
  · rw [if_pos hbound, List.forall_mem_singleton, forall_prop_of_true hbound, IpPacket.span_inside]
    omega
  · rw [if_neg hbound]
    exact iff_of_true (fun _ h => absurd h List.not_mem_nil) fun h => absurd h hbound

theorem Tcb.copied_end {start : Nat} (h : t.copied g = some (start, size)) :
    0 < size ∧ start + size = g.hdrLen.toNat + g.dataLen.toNat := by
  obtain ⟨htakes, heq⟩ := Option.ite_none_right_eq_some.mp h
  obtain ⟨rfl, rfl⟩ := Prod.mk.inj (Option.some.inj heq)
  have hnew := htakes.2.2.1
  omega

theorem Segment.data_end (g : Segment) :
    g.hdrLen.toNat + g.dataLen.toNat = g.len.toNat ∧ g.hdrLen ≤ g.len ∨
      g.hdrLen.toNat + g.dataLen.toNat = g.len.toNat + 65536 ∧ ¬ g.hdrLen ≤ g.len := by
  have hlen := g.len.toNat_lt
  have hhdr := g.hdrLen.toNat_lt
  have hdata : g.dataLen.toNat = (2 ^ 16 - g.hdrLen.toNat + g.len.toNat) % 2 ^ 16 := UInt16.toNat_sub ..
  rw [UInt16.le_iff_toNat_le]
  omega

private theorem tcp_inside (hproto : 10 ≤ ip.received) (hmax : ip.received ≤ 65555) :
    (∀ r ∈ ip.tcpSpans front n, r.Inside) ↔ MessageFits ip ∧
      ∀ (h : 20 ≤ ip.messageLen) (i : Nat), n.tcp.find (ip.segment h) = some i → (n.tcp.table i).state = .established →
        (n.tcp.table i).Takes (ip.segment h) → (ip.segment h).hdrLen ≤ ip.messageLen := by
  rw [IpPacket.tcpSpans, List.forall_mem_cons, List.forall_mem_cons, List.forall_mem_cons, List.forall_mem_cons, message_inside hproto]
  refine and_congr_right fun hfits => ?_
  by_cases hlong : 20 ≤ ip.messageLen
  · have htwenty : 20 ≤ ip.messageLen.toNat := UInt16.le_iff_toNat_le.mp hlong
    have hall := hfits.start (Nat.le_refl ip.messageLen.toNat) (by omega)
    rw [if_neg (UInt16.not_lt.mpr hlong), List.forall_mem_cons,
      IpPacket.span_inside, and_iff_right (by omega), forall_prop_of_true hlong, IpPacket.copied, dif_pos hlong]
    have hend := (ip.segment hlong).data_end
    have hseg : (ip.segment hlong).len = ip.messageLen := rfl
    rw [hseg] at hend
    cases hfind : n.tcp.find (ip.segment hlong) with
    | none => exact iff_of_true (fun _ h => absurd h List.not_mem_nil) fun _ h => absurd h (Option.some_ne_none _).symm
    | some i =>
      rw [Option.bind_some]
      cases hcopied : (n.tcp.table i).copied (ip.segment hlong) with
      | none =>
        refine iff_of_true (fun _ h => absurd h List.not_mem_nil) fun j hj hstate htakes => ?_
        obtain rfl := Option.some.inj hj
        rw [Tcb.copied, if_pos ⟨hstate, htakes⟩] at hcopied
        exact absurd hcopied (Option.some_ne_none _)
      | some r =>
        obtain ⟨start, size⟩ := r
        obtain ⟨hpos, hsum⟩ := Tcb.copied_end hcopied
        obtain ⟨htakes, -⟩ := Option.ite_none_right_eq_some.mp hcopied
        show (∀ r ∈ [ip.span front (ip.hdrLen + start) size], r.Inside) ↔ _
        rw [List.forall_mem_singleton, IpPacket.span_inside]
        constructor
        · intro hin j hj _ _
          rcases hend with ⟨-, hle⟩ | ⟨hwrap, -⟩
          · exact hle
          · omega
        · intro hle
          rcases hend with ⟨hdata, -⟩ | ⟨-, hnot⟩
          · omega
          · exact absurd (hle i rfl htakes.1 htakes.2) hnot
  · rw [if_pos (UInt16.not_le.mp hlong)]
    exact iff_of_true (fun _ h => absurd h List.not_mem_nil) fun h => absurd h hlong

private theorem spans_inside (hmax : ip.received ≤ 65555) : (∀ r ∈ ip.spans front n, r.Inside) ↔ PacketFits n front ip := by
  rw [IpPacket.spans, List.forall_mem_cons, IpPacket.span_inside]
  by_cases hproto : 10 ≤ ip.received
  · rw [and_iff_right (by omega)]
    have hne : ipProtoIcmp ≠ ipProtoUdp ∧ ipProtoIcmp ≠ ipProtoTcp ∧ ipProtoUdp ≠ ipProtoTcp := by decide
    by_cases hicmp : ip.proto = ipProtoIcmp
    · rw [if_pos hicmp, icmp_inside hproto]
      exact ⟨fun h => ⟨hproto, fun _ => h, fun hu => absurd (hicmp.symm.trans hu) hne.1, fun ht => absurd (hicmp.symm.trans ht) hne.2.1⟩,
        fun h => h.icmp hicmp⟩
    rw [if_neg hicmp]
    by_cases hudp : ip.proto = ipProtoUdp
    · rw [if_pos hudp, udp_inside hproto]
      exact ⟨fun h => ⟨hproto, fun hi => absurd hi hicmp, fun _ => h, fun ht => absurd (hudp.symm.trans ht) hne.2.2⟩, fun h => h.udp hudp⟩
    rw [if_neg hudp]
    by_cases htcp : ip.proto = ipProtoTcp
    · rw [if_pos htcp, tcp_inside hproto hmax]
      exact ⟨fun h => ⟨hproto, fun hi => absurd hi hicmp, fun hu => absurd hu hudp, fun _ => h⟩, fun h => h.tcp htcp⟩
    · rw [if_neg htcp]
      exact iff_of_true (fun _ h => absurd h List.not_mem_nil)
        ⟨hproto, fun hi => absurd hi hicmp, fun hu => absurd hu hudp, fun ht => absurd ht htcp⟩
  · exact iff_of_false (fun h => hproto (by omega)) fun h => hproto h.proto

/-! ### Fragments and frames -/

private theorem copy_inside (hmax : ip.received ≤ 65555) :
    (∀ r ∈ ip.copySpans front, r.Inside) ↔
      (ip.last ≤ ReassemblySlot.maxSize → ip.payloadLen = 0 ∨ 0 ≤ ip.payloadLen ∧ ip.hdrLen + ip.payloadLen ≤ ip.received) := by
  have hhigh := payloadLen_le ip
  have hlow : -60 ≤ ip.payloadLen := by
    have hnibble : (ip.bytes 0 &&& 0x0F).toNat ≤ 15 := Nat.and_le_right
    rw [IpPacket.payloadLen, IpPacket.hdrLen]
    omega
  rw [IpPacket.copySpans]
  by_cases hlast : ip.last ≤ ReassemblySlot.maxSize
  · rw [if_pos hlast, List.forall_mem_singleton, forall_prop_of_true hlast, IpPacket.span_inside]
    omega
  · rw [if_neg hlast]
    exact iff_of_true (fun _ h => absurd h List.not_mem_nil) fun h => absurd h hlast

private theorem slot_inside (hmax : ip.received ≤ 65555) :
    (∀ r ∈ slot.spans ip front, r.Inside) ↔
      (ip.last ≤ ReassemblySlot.maxSize → ip.payloadLen = 0 ∨ 0 ≤ ip.payloadLen ∧ ip.hdrLen + ip.payloadLen ≤ ip.received) ∧
        ∀ placed ∈ slot.place ip, (placed.expect ip).Complete → IpPacket.headerSize ≤ ip.received := by
  rw [ReassemblySlot.spans, List.forall_mem_append, copy_inside hmax]
  refine and_congr_right fun _ => ?_
  cases slot.place ip with
  | none => exact iff_of_true (fun _ h => absurd h List.not_mem_nil) fun _ h => absurd h (Option.not_mem_none _)
  | some placed =>
    simp only [Option.mem_some_iff, forall_eq']
    by_cases hcomplete : (placed.expect ip).Complete
    · rw [if_pos hcomplete, List.forall_mem_singleton, forall_prop_of_true hcomplete, IpPacket.span_inside]
      rw [IpPacket.headerSize]
      omega
    · rw [if_neg hcomplete]
      exact iff_of_true (fun _ h => absurd h List.not_mem_nil) fun h => absurd h hcomplete

private theorem receive_up {after : ReassemblySlot} {up : Upward} (hslot : slot.totalExpected < 65536)
    (h : slot.receive ip full = some (after, some up)) : ∃ packet, up = .reassembled packet ∧ packet.length ≤ 65555 := by
  obtain ⟨placed, hplace, h⟩ := Option.bind_eq_some_iff.mp h
  have hkeep : placed.totalExpected = slot.totalExpected := by
    rw [ReassemblySlot.place] at hplace
    split at hplace
    · split at hplace
      · exact absurd hplace (Option.some_ne_none _).symm
      · rw [← Option.some.inj hplace]
    · rw [← Option.some.inj hplace]
  have htotal : (placed.expect ip).totalExpected < 65536 := by
    rw [ReassemblySlot.expect]
    split
    · rwa [hkeep]
    · show (ip.last % 65536).toNat < 65536
      omega
  by_cases hcomplete : (placed.expect ip).totalExpected > 0 ∧ (placed.expect ip).currentSize ≥ (placed.expect ip).totalExpected
  · rw [if_pos hcomplete] at h
    obtain ⟨m, -, h⟩ := Option.bind_eq_some_iff.mp h
    obtain ⟨-, h⟩ := Option.ite_none_right_eq_some.mp h
    obtain ⟨-, h⟩ := Prod.mk.inj (Option.some.inj h)
    refine ⟨_, (Option.some.inj h).symm, ?_⟩
    rw [ReassemblySlot.fullPacket, List.length_append, Memory.length_bytes, Memory.length_bytes, IpPacket.headerSize]
    omega
  · rw [if_neg hcomplete] at h
    exact absurd (Prod.mk.inj (Option.some.inj h)).2 (Option.some_ne_none _).symm

theorem Receiver.claim_size (n : Receiver) {s : Reassembly} {i : Nat}
    (h : n.reassembly.claim ip now buffer = some (s, i)) : (s.slots i).totalExpected < 65536 := by
  rw [Reassembly.claim] at h
  split at h
  · obtain ⟨rfl, rfl⟩ := Prod.mk.inj (Option.some.inj h)
    exact n.sizes _
  · obtain ⟨j, -, h⟩ := Option.map_eq_some_iff.mp h
    obtain ⟨rfl, rfl⟩ := Prod.mk.inj h
    rw [Reassembly.setSlot]
    dsimp only
    rw [Function.update_self]
    exact Nat.zero_lt_succ _

private theorem fragment_inside (hmax : ip.received ≤ 65555) :
    (∀ r ∈ fragmentSpans n ip now buffer full, r.Inside) ↔ IpFits n ip now buffer full := by
  rw [fragmentSpans, IpFits, List.cons_append, List.cons_append, List.cons_append, List.forall_mem_cons, List.forall_mem_cons,
    List.forall_mem_cons, List.forall_mem_append, Reassembly.handleFragment]
  by_cases hwhole : ip.offset = 0 ∧ ip.moreFrags = false
  · rw [if_pos hwhole, if_pos hwhole, if_pos hwhole]
    simp only [List.not_mem_nil, false_imp_iff, implies_true, true_and]
    rw [spans_inside hmax]
    refine ⟨fun h => h.2.2.2, fun h => ?_⟩
    have hproto := h.proto
    simp only [IpPacket.span_inside]
    exact ⟨by omega, by omega, by omega, h⟩
  rw [if_neg hwhole, if_neg hwhole, if_neg hwhole, List.forall_mem_cons, List.forall_mem_cons]
  simp only [IpPacket.span_inside]
  by_cases hsource : 16 ≤ ip.received
  · rw [and_iff_right hsource, and_iff_right (by omega), and_iff_right (by omega), and_iff_right (by omega),
      and_assoc, and_iff_right (by omega), and_assoc, and_iff_right (by omega)]
    cases hclaim : n.reassembly.claim ip now buffer with
    | none =>
      exact iff_of_true ⟨fun _ h => absurd h List.not_mem_nil, fun _ h => absurd h List.not_mem_nil⟩
        fun s i h => absurd h (Option.some_ne_none _).symm
    | some r =>
      obtain ⟨s, i⟩ := r
      dsimp only
      rw [slot_inside hmax]
      have hone : (∀ s' i', some (s, i) = some (s', i') → SlotFits n (s'.slots i') ip full) ↔ SlotFits n (s.slots i) ip full :=
        ⟨fun h => h s i rfl, fun h s' i' heq => by obtain ⟨rfl, rfl⟩ := Prod.mk.inj (Option.some.inj heq); exact h⟩
      rw [hone]
      cases hreceive : (s.slots i).receive ip full with
      | none =>
        exact ⟨fun h => ⟨h.1.1, h.1.2, fun after packet heq => absurd (hreceive.symm.trans heq) (Option.some_ne_none _).symm⟩,
          fun h => ⟨⟨h.copy, h.header⟩, fun _ h => absurd h List.not_mem_nil⟩⟩
      | some r =>
        obtain ⟨after, up⟩ := r
        cases up with
        | none =>
          exact ⟨fun h => ⟨h.1.1, h.1.2, fun after' packet heq =>
              absurd (Prod.mk.inj (Option.some.inj (hreceive.symm.trans heq))).2 (Option.some_ne_none _).symm⟩,
            fun h => ⟨⟨h.copy, h.header⟩, fun _ h => absurd h List.not_mem_nil⟩⟩
        | some up =>
          obtain ⟨packet, rfl, hlen⟩ := receive_up (n.claim_size hclaim) hreceive
          show _ ∧ (∀ r ∈ (IpPacket.ofBytes packet).spans 0 n, r.Inside) ↔ _
          rw [@spans_inside n (.ofBytes packet) 0 hlen]
          refine ⟨fun h => ⟨h.1.1, h.1.2, fun after' packet' heq => ?_⟩, fun h => ⟨⟨h.copy, h.header⟩, h.packet after packet hreceive⟩⟩
          obtain rfl := Upward.reassembled.inj (Option.some.inj (Prod.mk.inj (Option.some.inj (hreceive.symm.trans heq))).2)
          exact h.2
  · exact iff_of_false (fun h => hsource (by omega)) fun h => hsource h.1

private theorem arp_inside {packet : Memory} {len : UInt16} :
    (∀ r ∈ arpSpans n packet len, r.Inside) ↔ 22 ≤ len.toNat ∧
      (htons (UInt16.ofNat (packet.load16 20)) = arpRequest → 42 ≤ len.toNat) ∧
      (htons (UInt16.ofNat (packet.load16 20)) = arpReply → 32 ≤ len.toNat) := by
  have hne : arpRequest ≠ arpReply := by decide
  rw [arpSpans, List.forall_mem_cons, Span.inside_iff]
  by_cases hrequest : htons (UInt16.ofNat (packet.load16 20)) = arpRequest
  · have hnot : ¬ htons (UInt16.ofNat (packet.load16 20)) = arpReply := fun h => hne (hrequest.symm.trans h)
    rw [if_pos hrequest, List.forall_mem_cons, Span.inside_iff, forall_prop_of_true hrequest, forall_prop_of_false hnot, and_true]
    by_cases hours : packet.load32 38 = n.localIp.toNat
    · rw [if_pos hours]
      simp only [List.forall_mem_cons, List.not_mem_nil, false_imp_iff, implies_true, and_true, Span.inside_iff]
      omega
    · rw [if_neg hours]
      simp only [List.not_mem_nil, false_imp_iff, implies_true, and_true]
      omega
  rw [if_neg hrequest, forall_prop_of_false hrequest, true_and]
  by_cases hreply : htons (UInt16.ofNat (packet.load16 20)) = arpReply
  · rw [if_pos hreply, List.forall_mem_cons, Span.inside_iff, forall_prop_of_true hreply]
    by_cases hgateway : packet.load32 28 = n.gatewayIp.toNat
    · rw [if_pos hgateway]
      simp only [List.forall_mem_cons, List.not_mem_nil, false_imp_iff, implies_true, and_true, Span.inside_iff]
      omega
    · rw [if_neg hgateway]
      simp only [List.not_mem_nil, false_imp_iff, implies_true, and_true]
      omega
  · rw [if_neg hreply, forall_prop_of_false hreply, and_true]
    simp only [List.not_mem_nil, false_imp_iff, implies_true, and_true]
    omega

/-- What the receive path reads and hands on lies in the frame, or in the packet that was put together. -/
theorem rxSpans_inside_iff (n : Receiver) (packet : Memory) (len : UInt16) (now : UInt32) (buffer : Option Memory) (full : Bool) :
    (∀ r ∈ rxSpans n packet len now buffer full, r.Inside) ↔
      (ethHeaderSize ≤ len.toNat → FrameFits n packet len now buffer full) := by
  rw [rxSpans]
  by_cases hshort : len.toNat < ethHeaderSize
  · rw [if_pos hshort]
    exact iff_of_true (fun _ h => absurd h List.not_mem_nil) fun h => absurd hshort (Nat.not_lt.mpr h)
  have hlong := Nat.not_lt.mp hshort
  rw [if_neg hshort, forall_prop_of_true hlong]
  rw [ethHeaderSize] at hlong
  dsimp only
  rw [List.forall_mem_cons, Span.inside_iff]
  dsimp only
  rw [and_iff_right (by omega)]
  have hne : ethTypeArp ≠ ethTypeIp := by decide
  by_cases harp : htons (UInt16.ofNat (packet.load16 12)) = ethTypeArp
  · rw [if_pos harp, arp_inside]
    exact ⟨fun h => ⟨fun _ => h, fun hip => absurd (harp.symm.trans hip) hne⟩, fun h => h.arp harp⟩
  rw [if_neg harp]
  by_cases hip : htons (UInt16.ofNat (packet.load16 12)) = ethTypeIp
  · have hmax : (frameIp packet len.toNat).received ≤ 65555 := by
      have hlt := len.toNat_lt
      show len.toNat - ethHeaderSize ≤ 65555
      omega
    rw [if_pos hip, fragment_inside hmax]
    exact ⟨fun h => ⟨fun ha => absurd ha harp, fun _ => h⟩, fun h => h.ip hip⟩
  · rw [if_neg hip]
    exact iff_of_true (fun _ h => absurd h List.not_mem_nil) ⟨fun ha => absurd ha harp, fun hi => absurd hi hip⟩

/-- A machine that has received nothing so far. -/
def idleReceiver : Receiver where
  localIp := 0x0F02000A
  gatewayIp := 0x0202000A
  reassembly := .init
  udp := .init
  tcp := { table := fun _ => .zero, buffers := ∅ }
  sizes _ := Nat.zero_lt_succ _

def longDatagram : Memory :=
  fun a => (List.replicate 12 (0 : UInt8) ++ [0x08, 0x00, 0x45, 0, 0xFF, 0xFF, 0, 0, 0, 0, 64, 17] ++ List.replicate 18 0).getD a 0

theorem longDatagram_outside : ∃ r ∈ rxSpans idleReceiver longDatagram 42 0 none false, ¬ r.Inside := by
  refine ⟨⟨34, 65515, 42⟩, by decide, ?_⟩
  rw [Span.inside_iff]
  decide

end RetroOs.Net
