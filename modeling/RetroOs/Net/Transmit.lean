import RetroOs.Net.Dns
import RetroOs.Net.Icmp
import Mathlib.Data.List.TakeWhile

/-! What is sent: `ip_send` and the calls above it. Each builds its packet in a buffer of fixed size, and a packet that goes
past the end of it has no value. -/
namespace RetroOs.Net
open Lib List Option Memory Segment UInt16 Dns Nat

/-- What `ip_send` reads, and the identification of the next packet. -/
structure Sender where
  localIp : UInt32
  gatewayMac : Memory
  gatewayMacKnown : Bool
  ipId : UInt16

def frameSize : Nat := 1500
def broadcastMac : List UInt8 := replicate 6 0xFF

def ipHeader (n : Sender) (dstIp : UInt32) (protocol : UInt8) (length : UInt16) : Memory :=
  let buf : Memory := fun _ => 0
  let buf := buf.memcpy 0 (if n.gatewayMacKnown then n.gatewayMac.bytes 0 6 else broadcastMac)
  let buf := (buf.memcpy 6 myMac).store16 12 (htons ethTypeIp).toNat
  let buf := ((buf.store8 14 0x45).store8 15 0).store16 16 (htons (20 + length)).toNat
  let buf := ((buf.store16 18 (htons n.ipId).toNat).store16 20 0).store8 22 64
  let buf := (((buf.store8 23 protocol).store32 26 n.localIp.toNat).store32 30 dstIp.toNat).store16 24 0
  buf.store16 24 (checksum buf 14 IpPacket.headerSize).toNat

def ipSend (n : Sender) (dstIp : UInt32) (protocol : UInt8) (data : Memory) (length : UInt16) : Option (Sender × List UInt8) :=
  if 34 + length.toNat ≤ frameSize then
    some ({ n with ipId := n.ipId + 1 },
      ((ipHeader n dstIp protocol length).memcpy 34 (data.bytes 0 length.toNat)).bytes 0 (34 + length.toNat))
  else none

def udpMaxPacket : UInt16 := 1472

def udpPacket (srcPort dstPort : UInt16) (data : Memory) (length : UInt16) : Memory :=
  let buffer : Memory := fun _ => 0
  let buffer := (buffer.store16 0 (htons srcPort).toNat).store16 2 (htons dstPort).toNat
  let buffer := (buffer.store16 4 (htons (8 + length)).toNat).store16 6 0
  (buffer.memcpy udpHeaderSize (data.bytes 0 length.toNat)).store16 6 0

/-- `udp_send`: a payload that is too large is refused. -/
def udpSend (n : Sender) (srcPort : UInt16) (dstIp : UInt32) (dstPort : UInt16) (data : Memory) (length : UInt16) :
    Option (Sender × Option (List UInt8)) :=
  if length > udpMaxPacket then some (n, none)
  else
    (ipSend n dstIp ipProtoUdp (udpPacket srcPort dstPort data length) (8 + length)).map fun r => (r.1, some r.2)

namespace Tcb

/-- The space that the connection advertises. -/
def window (t : Tcb) : UInt16 :=
  let freeSpace := UInt32.ofNat t.rxCapacity - UInt32.ofNat t.rx.length
  if freeSpace > 0xFFFF then 0xFFFF else freeSpace.toUInt16

def packet (t : Tcb) (flags : UInt8) (buffer data : Memory) (len : UInt16) : Memory :=
  let optionsLen := if flags &&& synFlag ≠ 0 then 4 else 0
  let buffer := buffer.fill 0 0 20
  let buffer := (buffer.store16 0 t.localPort.toNat).store16 2 t.remotePort.toNat
  let buffer := (buffer.store32 4 (htonl t.sndNxt).toNat).store32 8 (htonl t.rcvNxt).toNat
  let buffer := (buffer.store8 12 (UInt8.ofNat ((20 + optionsLen) / 4) <<< 4)).store8 13 flags
  let buffer :=
    if flags &&& synFlag ≠ 0 then ((buffer.store8 20 2).store8 21 4).store16 22 (htons 1460).toNat else buffer
  let buffer := ((buffer.store16 14 (htons t.window).toNat).store16 16 0).store16 18 0
  let buffer := buffer.memcpy (20 + optionsLen) (data.bytes 0 len.toNat)
  buffer.store16 16 (tcpChecksum t.localIp t.remoteIp buffer 0 (ofNat (20 + optionsLen + len.toNat))).toNat

/-- `tcp_send_segment`, with the buffer that `kmalloc` gives: what is sent. The length is passed on in 16 bits. -/
def transmit (t : Tcb) (n : Sender) (flags : UInt8) (buffer : Option Memory) (data : Memory) (len : UInt16) :
    Option (Tcb × Sender × List UInt8) := do
  let buffer ← buffer
  let optionsLen := if flags &&& synFlag ≠ 0 then 4 else 0
  let (n, frame) ← ipSend n t.remoteIp ipProtoTcp (t.packet flags buffer data len) (ofNat (20 + optionsLen + len.toNat))
  return (t.sendSegment flags len, n, frame)

def transmitData (t : Tcb) (n : Sender) (buffer : Option Memory) (data : Memory) (len : UInt16) :
    Option (Tcb × Sender × Option (List UInt8)) :=
  if t.state ≠ .established then some (t, n, none)
  else (t.transmit n (ackFlag ||| pshFlag) buffer data len).map fun r => (r.1, r.2.1, some r.2.2)

end Tcb

def dnsServer : UInt32 := 0x0302000A
def dnsPort : UInt16 := 53
def dnsLocalPort : UInt16 := 53053

def Dns.transmitQuery (s : Dns) (n : Sender) (hostname : CString) (qtype : UInt16) :
    Option (Dns × Sender × Option (List UInt8)) := do
  match ← s.sendQuery hostname qtype with
  | (s, none) => some (s, n, none)
  | (s, some packet) =>
    let (n, frame) ← udpSend n dnsLocalPort dnsServer dnsPort (fun a => packet.getD a 0) (ofNat packet.length)
    return (s, n, frame)

/-! ### Frames that are whole -/

/-- A frame built in a buffer of `size` bytes: it fits, the total length in its IP header is that of the bytes behind the
Ethernet header, and behind all headers stands the payload. -/
structure WholeFrame (size headers : Nat) (payload frame : List UInt8) : Prop where
  fits : frame.length ≤ size
  length : (sentIp frame).len = frame.length - ethHeaderSize
  payload : frame.drop headers = payload

def SendsWhole (size headers : Nat) (payload : List UInt8) (sent : Option (Option (List UInt8))) : Prop :=
  ∃ frame, sent = some frame ∧ ∀ f ∈ frame, WholeFrame size headers payload f

private theorem ipHeader_len (n : Sender) (dstIp : UInt32) (protocol : UInt8) (length : UInt16) :
    (ipHeader n dstIp protocol length).load16 16 = (htons (20 + length)).toNat := by
  rw [ipHeader]
  rw [(store16_agreeOn _ _ (.inl (by decide))).load16, (store16_agreeOn _ _ (.inl (by decide))).load16,
    (store32_agreeOn _ _ (.inl (by decide))).load16, (store32_agreeOn _ _ (.inl (by decide))).load16,
    (store8_agreeOn _ _ (.inr (by decide))).load16, (store8_agreeOn _ _ (.inr (by decide))).load16,
    (store16_agreeOn _ _ (.inl (by decide))).load16, (store16_agreeOn _ _ (.inl (by decide))).load16,
    load16_store16 _ _ (htons (20 + length)).toNat_lt]

variable {front : CString} {length : UInt16}

private theorem ipSend_spec (n : Sender) (dstIp : UInt32) (protocol : UInt8) (data : Memory)
    (h : 34 + length.toNat ≤ frameSize) :
    ∃ frame, ipSend n dstIp protocol data length = some ({ n with ipId := n.ipId + 1 }, frame) ∧
      WholeFrame frameSize 34 (data.bytes 0 length.toNat) frame := by
  refine ⟨_, if_pos h, ?_, ?_, ?_⟩
  · rwa [length_bytes]
  · have hkeep := memcpy_agreeOn (a := 16) (n := 2) (b := 34) (ipHeader n dstIp protocol length)
      (data.bytes 0 length.toNat) (.inl (by decide))
    rw [frameSize] at h
    have hword : ((ipHeader n dstIp protocol length).memcpy 34 (data.bytes 0 length.toNat)).load16 16 =
        (htons (20 + length)).toNat := by rw [hkeep.load16, ipHeader_len]
    rw [IpPacket.len, load16, sentIp_bytes _ (by omega), sentIp_bytes _ (by omega), length_bytes]
    rw [load16] at hword
    rw [hword, UInt16.ofNat_toNat, htons_htons, UInt16.toNat_add, show (20 : UInt16).toNat = 20 from rfl, ethHeaderSize]
    omega
  · rw [bytes_add, drop_left' (length_bytes ..), zero_add,
      bytes_memcpy _ (le_of_eq (length_bytes ..).symm), take_of_length_le (le_of_eq (length_bytes ..))]

theorem ipSend_none (n : Sender) (dstIp : UInt32) (protocol : UInt8) (data : Memory)
    (h : ¬ 34 + length.toNat ≤ frameSize) : ipSend n dstIp protocol data length = none := if_neg h

theorem WholeFrame.drop {size headers k : Nat} {payload frame : List UInt8} (h : WholeFrame size headers payload frame) :
    WholeFrame size (headers + k) (payload.drop k) frame :=
  ⟨h.fits, h.length, by rw [← drop_drop, h.payload]⟩

/-! ### The four calls -/

/-- The limit of `udp_send` leaves no place for the Ethernet header. -/
theorem udpSend_whole_iff (n : Sender) (srcPort : UInt16) (dstIp : UInt32) (dstPort : UInt16) (data : Memory) (length : UInt16) :
    SendsWhole frameSize 42 (data.bytes 0 length.toNat) ((udpSend n srcPort dstIp dstPort data length).map Prod.snd) ↔
      length.toNat ≤ 1458 ∨ 1472 < length.toNat := by
  rw [udpSend]
  by_cases hbig : length > udpMaxPacket
  · have hlt : 1472 < length.toNat := lt_iff_toNat_lt.mp hbig
    rw [if_pos hbig]
    exact iff_of_true ⟨none, rfl, fun _ hf => absurd hf (not_mem_none _)⟩ (.inr hlt)
  · have hle : ¬ 1472 < length.toNat := fun hlt => hbig (lt_iff_toNat_lt.mpr hlt)
    have htotal : (8 + length).toNat = 8 + length.toNat := by
      rw [UInt16.toNat_add, show (8 : UInt16).toNat = 8 from rfl]
      omega
    rw [if_neg hbig, or_iff_left hle]
    by_cases hfit : 34 + (8 + length).toNat ≤ frameSize
    · obtain ⟨frame, hsend, hwhole⟩ := ipSend_spec n dstIp ipProtoUdp (udpPacket srcPort dstPort data length) hfit
      rw [frameSize] at hfit
      rw [hsend]
      refine iff_of_true ⟨some frame, rfl, fun f hf => ?_⟩ (by omega)
      obtain rfl := mem_some.mp hf
      have hdrop := hwhole.drop (k := 8)
      have hpayload : ((udpPacket srcPort dstPort data length).bytes 0 (8 + length).toNat).drop 8 = data.bytes 0 length.toNat := by
        rw [htotal, bytes_add, drop_left' (length_bytes ..), zero_add, udpPacket,
          (store16_agreeOn _ _ (.inr (by decide))).bytes]
        show (memcpy _ 8 _).bytes 8 _ = _
        rw [bytes_memcpy _ (le_of_eq (length_bytes ..).symm),
          take_of_length_le (le_of_eq (length_bytes ..))]
      rwa [hpayload] at hdrop
    · rw [ipSend_none n dstIp ipProtoUdp _ hfit]
      rw [frameSize] at hfit
      exact iff_of_false (fun ⟨_, hsent, _⟩ => absurd hsent (some_ne_none _).symm) (by omega)

theorem Tcb.packet_data (t : Tcb) (buffer data : Memory) (len : UInt16) :
    (t.packet (ackFlag ||| pshFlag) buffer data len).bytes 20 len.toNat = data.bytes 0 len.toNat := by
  rw [Tcb.packet, if_neg (by decide)]
  rw [(store16_agreeOn _ _ (.inr (by decide))).bytes]
  show (memcpy _ 20 _).bytes 20 _ = _
  rw [bytes_memcpy _ (le_of_eq (length_bytes ..).symm),
    take_of_length_le (le_of_eq (length_bytes ..))]

private theorem transmitData_whole_iff (t : Tcb) (n : Sender) (buffer : Option Memory) (data : Memory) (len : UInt16) :
    SendsWhole frameSize 54 (data.bytes 0 len.toNat) ((t.transmitData n buffer data len).map fun r => r.2.2) ↔
      t.state ≠ .established ∨ buffer.isSome ∧ len.toNat ≤ 1446 := by
  rw [Tcb.transmitData]
  by_cases hstate : t.state ≠ .established
  · rw [if_pos hstate]
    exact iff_of_true ⟨none, rfl, fun _ hf => absurd hf (not_mem_none _)⟩ (.inl hstate)
  rw [if_neg hstate, or_iff_right hstate]
  cases buffer with
  | none => exact iff_of_false (fun ⟨_, hsent, _⟩ => absurd hsent (some_ne_none _).symm) fun h => absurd h.1 (by decide)
  | some buffer =>
    have htotal : (ofNat (20 + len.toNat)).toNat = (20 + len.toNat) % 65536 := toNat_ofNat'
    have hsend : t.transmit n (ackFlag ||| pshFlag) (some buffer) data len =
        (ipSend n t.remoteIp ipProtoTcp (t.packet (ackFlag ||| pshFlag) buffer data len)
          (ofNat (20 + len.toNat))).bind fun r => some (t.sendSegment (ackFlag ||| pshFlag) len, r.1, r.2) := rfl
    rw [hsend]
    by_cases hfit : 34 + (ofNat (20 + len.toNat)).toNat ≤ frameSize
    · obtain ⟨frame, hip, hwhole⟩ := ipSend_spec n t.remoteIp ipProtoTcp
        (t.packet (ackFlag ||| pshFlag) buffer data len) hfit
      rw [frameSize] at hfit
      rw [hip]
      have hdrop := hwhole.drop (k := 20)
      by_cases hwrap : len.toNat ≤ 1446
      · refine iff_of_true ⟨some frame, rfl, fun f hf => ?_⟩ ⟨rfl, hwrap⟩
        obtain rfl := mem_some.mp hf
        rw [htotal, mod_eq_of_lt (by omega), bytes_add, drop_left' (length_bytes ..), zero_add,
          Tcb.packet_data] at hdrop
        exact hdrop
      · refine iff_of_false (fun ⟨sent, hsent, hall⟩ => ?_) fun h => hwrap h.2
        cases hsent
        have hlen := congrArg length ((hall frame rfl).payload.symm.trans hdrop.payload)
        rw [length_drop, length_bytes, length_bytes] at hlen
        omega
    · rw [ipSend_none _ _ _ _ hfit]
      rw [frameSize] at hfit
      exact iff_of_false (fun ⟨_, hsent, _⟩ => absurd hsent (some_ne_none _).symm) fun h => by omega

private theorem handleIcmp_whole_iff (localIp : UInt32) (eth : Memory) (ip : IpPacket) :
    SendsWhole 512 42 (ip.bytes.bytes 28 (ip.payloadLen - 8).toNat) ((handleIcmp localIp eth ip).map Prod.snd) ↔
      (8 ≤ ip.payloadLen → Accepted ip → ip.hdrLen = IpPacket.headerSize ∧ ip.payloadLen ≤ 478) := by
  by_cases hlong : 8 ≤ ip.payloadLen
  · obtain ⟨k, hk⟩ : ∃ k : Nat, ip.payloadLen = 8 + k := ⟨(ip.payloadLen - 8).toNat, by omega⟩
    rw [handleIcmp_eq localIp eth hlong, forall_prop_of_true hlong, show (ip.payloadLen - 8).toNat = k by omega,
      show ip.payloadLen.toNat - 8 = k by omega]
    by_cases hacc : Accepted ip
    · rw [if_pos hacc, forall_prop_of_true hacc, sendIcmpReply]
      by_cases hfit : 42 + k ≤ 512
      · obtain ⟨-, hlen⟩ := sentIp_lengths localIp eth ip k
        have hpay : (ip.len : Int) - ip.hdrLen = 8 + k := hk
        rw [if_pos hfit]
        constructor
        · rintro ⟨sent, hsent, hall⟩
          cases hsent
          have hwhole := (hall _ rfl).length
          rw [hlen, length_bytes, ethHeaderSize] at hwhole
          rw [IpPacket.headerSize]
          omega
        · rintro ⟨h20, -⟩
          refine ⟨_, rfl, fun f hf => ?_⟩
          obtain rfl := mem_some.mp hf
          refine ⟨?_, ?_, ?_⟩
          · rwa [length_bytes]
          · rw [IpPacket.headerSize] at h20
            rw [hlen, length_bytes, ethHeaderSize]
            omega
          · have hcontent := congrArg (drop 4) (replyBuffer_content localIp eth ip k).2
            rw [bytes_add, bytes_add, drop_left' (length_bytes ..),
              drop_left' (length_bytes ..)] at hcontent
            rw [bytes_add, drop_left' (length_bytes ..), zero_add]
            exact hcontent
      · rw [if_neg hfit]
        exact iff_of_false (fun hwhole => absurd hwhole.choose_spec.1 (some_ne_none _).symm) fun h => by omega
    · rw [if_neg hacc]
      exact iff_of_true ⟨none, rfl, fun _ hf => absurd hf (not_mem_none _)⟩ fun h => absurd h hacc
  · rw [handleIcmp, if_pos (show ip.payloadLen < (icmpHeaderSize : Int) from Int.not_le.mp hlong)]
    exact iff_of_true ⟨none, rfl, fun _ hf => absurd hf (not_mem_none _)⟩ fun h => absurd h hlong

/-! ### The name of a query -/

namespace DnsName

/-- A label that can be encoded. -/
structure IsLabel (label : CString) : Prop where
  nonempty : label ≠ []
  short : label.length ≤ 63
  noDot : ∀ c ∈ label, isDot c = false

inductive Labels : CString → Prop
  | nil : Labels []
  | cons {label rest : CString} {c : CChar} (h : IsLabel label) (hc : isDot c = true) (hrest : Labels rest) :
    Labels (label ++ c :: rest)

/-- What starts with a label that cannot be encoded. -/
structure Faulty (name : CString) : Prop where
  nonempty : name ≠ []
  label : (name.takeWhile fun c => !isDot c) = [] ∨ 63 < (name.takeWhile fun c => !isDot c).length

variable {label : CString} {n : Nat}

theorem takeWhile_label (h : IsLabel label) {c : CChar} (hc : isDot c = true) (rest : CString) :
    (label ++ c :: rest).takeWhile (fun c => !isDot c) = label := by
  rw [takeWhile_append_of_pos fun d hd => by rw [h.noDot d hd]; rfl, takeWhile_cons_of_neg (by rw [hc]; decide),
    append_nil]

theorem IsLabel.takeWhile (h : IsLabel label) : label.takeWhile (fun c => !isDot c) = label :=
  takeWhile_eq_self_iff.mpr fun d hd => by rw [h.noDot d hd]; rfl

private theorem encodeLoop_label (name : CString) (h : IsLabel (name.takeWhile fun c => !isDot c)) :
    ∃ bytes : List UInt8, bytes.length = (name.takeWhile fun c => !isDot c).length + 1 ∧
      encodeLoop (n + 1) name =
        (bytes ++ (encodeLoop n (name.drop ((name.takeWhile fun c => !isDot c).length + 1))).1,
          (encodeLoop n (name.drop ((name.takeWhile fun c => !isDot c).length + 1))).2) := by
  have hpos := length_pos_of_ne_nil h.nonempty
  have hshort := h.short
  cases name with
  | nil => exact absurd rfl h.nonempty
  | cons c name =>
    refine ⟨_, ?_, (if_neg (by omega)).trans rfl⟩
    rw [length_cons, length_map]

private theorem encodeLoop_labels (h : Labels front) {rest : CString}
    (hn : (front ++ rest).length ≤ n) :
    ∃ (bytes : List UInt8) (k : Nat), bytes.length = front.length ∧ rest.length ≤ k ∧
      encodeLoop n (front ++ rest) = (bytes ++ (encodeLoop k rest).1, (encodeLoop k rest).2) := by
  induction h generalizing n with
  | nil => exact ⟨[], n, rfl, hn, rfl⟩
  | @cons label tail c h hc hrest ih =>
    rw [append_assoc, cons_append] at hn ⊢
    rw [length_append, length_cons] at hn
    obtain ⟨n, rfl⟩ : ∃ k, n = k + 1 := ⟨n - 1, by omega⟩
    have htake := takeWhile_label h hc (tail ++ rest)
    obtain ⟨bytes, hlen, heq⟩ := encodeLoop_label (n := n) (label ++ c :: (tail ++ rest)) (by rwa [htake])
    obtain ⟨more, k, hmore, hk, hloop⟩ := ih (n := n) (by omega)
    rw [htake] at hlen heq
    have hdrop : (label ++ c :: (tail ++ rest)).drop (label.length + 1) = tail ++ rest := by
      rw [append_cons, drop_left' (by rw [length_append, length_singleton])]
    refine ⟨bytes ++ more, k, ?_, hk, ?_⟩
    · rw [length_append, length_append, length_cons, hlen, hmore]
      omega
    · rw [heq, hdrop, hloop, append_assoc]

private theorem encodeLoop_last (h : IsLabel label) (hn : label.length ≤ n) :
    (encodeLoop n label).1.length = label.length + 2 ∧ (encodeLoop n label).2 = true := by
  have hpos := length_pos_of_ne_nil h.nonempty
  obtain ⟨n, rfl⟩ : ∃ k, n = k + 1 := ⟨n - 1, by omega⟩
  obtain ⟨bytes, hlen, heq⟩ := encodeLoop_label (n := n) label (by rwa [h.takeWhile])
  rw [h.takeWhile] at hlen heq
  have hend : encodeLoop n (label.drop (label.length + 1)) = ([0], true) := by
    rw [drop_of_length_le (le_succ _)]
    cases n <;> rfl
  rw [heq, hend, length_append, hlen]
  exact ⟨rfl, rfl⟩

private theorem encodeLoop_faulty {name : CString} (h : Faulty name) (n : Nat) : encodeLoop n name = ([], false) := by
  obtain ⟨c, rest, rfl⟩ := exists_cons_of_ne_nil h.nonempty
  cases n with
  | zero => rfl
  | succ n =>
    have hlabel := h.label.symm.imp_right fun hnil : _ = [] => length_eq_zero_iff.mpr hnil
    exact if_pos hlabel

private theorem labels_split (name : CString) :
    ∃ front rest, name = front ++ rest ∧ Labels front ∧ (rest = [] ∨ IsLabel rest ∨ Faulty rest) := by
  induction hlen : name.length using Nat.strong_induction_on generalizing name with
  | _ size ih =>
    by_cases hnil : name = []
    · exact ⟨[], name, rfl, .nil, .inl hnil⟩
    by_cases hlabel : IsLabel (name.takeWhile fun c => !isDot c)
    · have hsplit := takeWhile_append_dropWhile (p := fun c => !isDot c) (l := name)
      cases hdrop : name.dropWhile fun c => !isDot c with
      | nil =>
        rw [hdrop, append_nil] at hsplit
        rw [hsplit] at hlabel
        exact ⟨[], name, rfl, .nil, .inr (.inl hlabel)⟩
      | cons c rest =>
        have hc : isDot c = true := by
          have hhead := head?_dropWhile_not (fun c => !isDot c) name
          rw [hdrop] at hhead
          simpa using hhead
        rw [hdrop] at hsplit
        have hless : rest.length < size := by
          rw [← hlen, ← hsplit, length_append, length_cons]
          omega
        obtain ⟨front, tail, rfl, hfront, htail⟩ := ih _ hless rest rfl
        refine ⟨name.takeWhile (fun c => !isDot c) ++ c :: front, tail, ?_, .cons hlabel hc hfront, htail⟩
        rw [append_assoc, cons_append, hsplit]
    · refine ⟨[], name, rfl, .nil, .inr (.inr ⟨hnil, ?_⟩)⟩
      by_contra hfaulty
      obtain ⟨hne, hshort⟩ := not_or.mp hfaulty
      refine hlabel ⟨hne, not_lt.mp hshort, fun c hc => ?_⟩
      have hnot := mem_takeWhile_imp hc
      simpa using hnot

end DnsName

open DnsName

/-- A hostname for which there is place: its labels up to one that cannot be encoded, and where there is none, its end
and the type and the class behind it. -/
structure QueryFits (hostname : CString) : Prop where
  labels : ∀ front, Labels front → front <+: hostname → front.length ≤ 500
  closed : Labels hostname → hostname.length ≤ 495
  last : ∀ front label, Labels front → IsLabel label → hostname = front ++ label → hostname.length ≤ 494

theorem encode_append (h : Labels front) (rest : CString) :
    ∃ k, rest.length ≤ k ∧ (encode (front ++ rest)).1.length = front.length + (encodeLoop k rest).1.length ∧
      (encode (front ++ rest)).2 = (encodeLoop k rest).2 := by
  obtain ⟨bytes, k, hlen, hk, heq⟩ := encodeLoop_labels h (le_refl (front ++ rest).length)
  rw [encode, heq, length_append, hlen]
  exact ⟨k, hk, rfl, rfl⟩

theorem encodeLoop_nil (n : Nat) : encodeLoop n [] = ([0], true) := by cases n <;> rfl

private theorem queryFits_iff (hostname : CString) :
    QueryFits hostname ↔ (encode hostname).1.length ≤ 500 ∧ ((encode hostname).2 = true → (encode hostname).1.length ≤ 496) := by
  constructor
  · intro h
    obtain ⟨front, rest, rfl, hfront, hrest⟩ := labels_split hostname
    obtain ⟨k, hk, hlen, hend⟩ := encode_append hfront rest
    rw [hlen, hend]
    rcases hrest with rfl | hlast | hfaulty
    · have hclosed := h.closed (by rwa [append_nil])
      rw [append_nil] at hclosed
      rw [encodeLoop_nil, length_singleton]
      omega
    · have hlast' := h.last front rest hfront hlast rfl
      rw [length_append] at hlast'
      rw [(encodeLoop_last hlast hk).1]
      omega
    · have hlabels := h.labels front hfront (prefix_append front rest)
      rw [encodeLoop_faulty hfaulty, length_nil]
      exact ⟨hlabels, fun htrue => absurd htrue (by decide)⟩
  · rintro ⟨hall, htrue⟩
    refine ⟨fun front hfront ⟨rest, hrest⟩ => ?_, fun hlabels => ?_, fun front label hfront hlabel heq => ?_⟩
    · obtain ⟨k, -, hlen, -⟩ := encode_append hfront rest
      rw [hrest] at hlen
      omega
    · obtain ⟨k, -, hlen, hend⟩ := encode_append hlabels []
      rw [append_nil, encodeLoop_nil] at hlen hend
      rw [length_singleton] at hlen
      have hfit := htrue hend
      omega
    · obtain ⟨k, hk, hlen, hend⟩ := encode_append hfront label
      obtain ⟨hsize, hok⟩ := encodeLoop_last hlabel hk
      rw [← heq] at hlen hend
      have hfit := htrue (hend.trans hok)
      rw [heq, length_append]
      omega

private theorem length_query (txId : UInt16) (name : List UInt8) (qtype : UInt16) :
    (query txId name qtype).length = 16 + name.length := by
  simp only [query, field, length_append, length_cons, length_nil]
  omega

private theorem transmitQuery_whole_iff (s : Dns) (n : Sender) (hostname : CString) (qtype : UInt16) :
    SendsWhole frameSize 42 (query s.txId (encode hostname).1 qtype) ((s.transmitQuery n hostname qtype).map fun r => r.2.2) ↔
      QueryFits hostname := by
  rw [queryFits_iff, Dns.transmitQuery, Dns.sendQuery]
  simp only [show Dns.headerSize = 12 from rfl, show Dns.questionSize = 4 from rfl, show Dns.packetSize = 512 from rfl]
  by_cases hname : 12 + (encode hostname).1.length > 512
  · rw [if_pos hname]
    exact iff_of_false (fun ⟨_, hsent, _⟩ => absurd hsent (some_ne_none _).symm) fun h => by omega
  rw [if_neg hname]
  by_cases hend : (encode hostname).2 = false
  · rw [if_pos hend]
    refine iff_of_true ⟨none, rfl, fun _ hf => absurd hf (not_mem_none _)⟩ ⟨by omega, fun htrue => ?_⟩
    rw [hend] at htrue
    exact absurd htrue (by decide)
  rw [if_neg hend]
  by_cases hquestion : 12 + (encode hostname).1.length + 4 > 512
  · rw [if_pos hquestion]
    refine iff_of_false (fun ⟨_, hsent, _⟩ => absurd hsent (some_ne_none _).symm) fun h => ?_
    have hfit := h.2 (Bool.eq_true_of_not_eq_false hend)
    omega
  rw [if_neg hquestion]
  refine iff_of_true ?_ ⟨by omega, fun _ => by omega⟩
  generalize hpacket : query s.txId (encode hostname).1 qtype = packet
  have hlen : packet.length = 16 + (encode hostname).1.length := by rw [← hpacket, length_query]
  have hsize : (ofNat packet.length).toNat = packet.length := by
    rw [toNat_ofNat']
    omega
  obtain ⟨data, hdata⟩ : ∃ data : Memory, (fun a => packet.getD a 0) = data := ⟨_, rfl⟩
  obtain ⟨sent, hsent, hall⟩ := (udpSend_whole_iff n dnsLocalPort dnsServer dnsPort data (ofNat packet.length)).mpr
    (.inl (by omega))
  obtain ⟨r, hr, rfl⟩ := map_eq_some_iff.mp hsent
  have hbytes : data.bytes 0 packet.length = packet := by
    rw [← hdata]
    refine ext_getElem (length_bytes ..) fun i hi _ => ?_
    rw [length_bytes] at hi
    simp [bytes, hi]
  rw [hsize, hbytes] at hall
  exact ⟨r.2, by rw [bind_eq_bind, bind_some]; simp only [hdata, hr]; rfl, hall⟩

/-! ### What is sent is whole -/

/-- Each call sends a packet that fits and has the length that it says, or sends nothing: for which lengths and names. -/
theorem sends_whole_iff (n : Sender) :
    (∀ srcPort dstIp dstPort data (length : UInt16),
      SendsWhole frameSize 42 (data.bytes 0 length.toNat) ((udpSend n srcPort dstIp dstPort data length).map Prod.snd) ↔
        length.toNat ≤ 1458 ∨ 1472 < length.toNat) ∧
    (∀ (t : Tcb) buffer data (len : UInt16),
      SendsWhole frameSize 54 (data.bytes 0 len.toNat) ((t.transmitData n buffer data len).map fun r => r.2.2) ↔
        t.state ≠ .established ∨ buffer.isSome ∧ len.toNat ≤ 1446) ∧
    (∀ localIp eth (ip : IpPacket),
      SendsWhole 512 42 (ip.bytes.bytes 28 (ip.payloadLen - 8).toNat) ((handleIcmp localIp eth ip).map Prod.snd) ↔
        (8 ≤ ip.payloadLen → Accepted ip → ip.hdrLen = IpPacket.headerSize ∧ ip.payloadLen ≤ 478)) ∧
    ∀ (s : Dns) hostname qtype,
      SendsWhole frameSize 42 (query s.txId (encode hostname).1 qtype) ((s.transmitQuery n hostname qtype).map fun r => r.2.2) ↔
        QueryFits hostname :=
  ⟨udpSend_whole_iff n, fun t => transmitData_whole_iff t n, handleIcmp_whole_iff, fun s => transmitQuery_whole_iff s n⟩

/-- A payload that `udp_send` takes and for which `ip_send` has no place. -/
theorem udpSend_past_frame :
    (1459 : UInt16) ≤ udpMaxPacket ∧
      udpSend { localIp := 0x0F02000A, gatewayMac := fun _ => 0, gatewayMacKnown := false, ipId := 0 } 0 0 0 (fun _ => 0) 1459 = none := by
  refine ⟨by decide, ?_⟩
  rw [udpSend, if_neg (by decide), ipSend_none _ _ _ _ (by decide)]
  rfl

end RetroOs.Net
