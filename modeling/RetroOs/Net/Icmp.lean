import RetroOs.Net.Checksum
import RetroOs.Net.Reassembly
import Mathlib.Tactic.IntervalCases

/-! Echo requests: when `handle_icmp` replies, and what it replies. Both compare or store a checksum whose bytes are
exchanged, which is right for those checksums alone that stay the same. -/
namespace RetroOs.Net
open Lib OnesComplement Memory IpPacket Option Nat

variable {m frame : Memory} {a k n len : Nat} {localIp : UInt32} {eth : Memory} {ip : IpPacket} {x : Nat}

/-! ### Requests and replies -/

def ipProtoIcmp : UInt8 := 1
def icmpHeaderSize : Nat := 8
def ethTypeIp : UInt16 := 0x0800

def myMac : List UInt8 := [0x52, 0x54, 0x00, 0x12, 0x34, 0x56]

/-- The IP header of the reply: that of the request with other addresses, and a checksum of zero. -/
def replyIp (localIp : UInt32) (eth : Memory) (ip : IpPacket) : Memory :=
  let buf : Memory := fun _ => 0
  let buf := ((buf.memcpy 0 (eth.bytes 6 6)).memcpy 6 myMac).store16 12 (htons ethTypeIp).toNat
  let buf := buf.memcpy 14 (ip.bytes.bytes 0 headerSize)
  ((buf.store32 26 localIp.toNat).store32 30 (ip.bytes.load32 12)).store16 24 0

/-- The message of the reply behind the header in `buf`, with a checksum of zero. -/
def replyIcmp (buf : Memory) (ip : IpPacket) (dataLen : Nat) : Memory :=
  let buf := ((buf.store8 34 0).store8 35 0).store16 38 (ip.bytes.load16 24)
  ((buf.store16 40 (ip.bytes.load16 26)).store16 36 0).memcpy 42 (ip.bytes.bytes 28 dataLen)

def replyBuffer (localIp : UInt32) (eth : Memory) (ip : IpPacket) (dataLen : Nat) : Memory :=
  let buf := replyIp localIp eth ip
  let buf := buf.store16 24 (htons (checksum buf 14 headerSize)).toNat
  let buf := replyIcmp buf ip dataLen
  buf.store16 36 (htons (checksum buf 34 (icmpHeaderSize + dataLen))).toNat

/-- `send_icmp_reply`, with the address of the machine and the Ethernet header of the request. A payload that goes
past the end of the buffer has no value. -/
def sendIcmpReply (localIp : UInt32) (eth : Memory) (ip : IpPacket) (dataLen : Nat) : Option (List UInt8) :=
  if 42 + dataLen ≤ 512 then some ((replyBuffer localIp eth ip dataLen).bytes 0 (42 + dataLen)) else none

/-- `handle_icmp`: the packet as it leaves it, and the frame that it sends. The message is read behind a header of
twenty bytes, whatever the packet says. -/
def handleIcmp (localIp : UInt32) (eth : Memory) (ip : IpPacket) : Option (IpPacket × Option (List UInt8)) :=
  if ip.payloadLen < icmpHeaderSize then some (ip, none)
  else
    let total := ip.payloadLen.toNat
    if ip.bytes 20 = 8 then
      let received := ip.bytes.load16 22
      let zeroed := ip.bytes.store16 22 0
      if received ≠ (htons (checksum zeroed 20 total)).toNat then some ({ ip with bytes := zeroed }, none)
      else
        let ip := { ip with bytes := zeroed.store16 22 received }
        (sendIcmpReply localIp eth ip (total - icmpHeaderSize)).map fun reply => (ip, some reply)
    else some (ip, none)

/-- What the packet says it is: its message lies behind its header, wherever that ends. -/
structure EchoRequest (ip : IpPacket) : Prop where
  header : headerSize ≤ ip.hdrLen
  message : icmpHeaderSize ≤ ip.payloadLen
  type : ip.bytes ip.hdrLen = 8

def ValidIcmp (ip : IpPacket) : Prop := rfc1071 ip.payload = 0

def sentIp (reply : List UInt8) : IpPacket := frameIp (fun a => reply.getD a 0) reply.length

/-- A frame that answers the request: the packet in it is whole, and behind the checksum of its message stand the
identifier, the sequence number and the payload of the request. -/
structure Answers (ip : IpPacket) (reply : List UInt8) : Prop where
  whole : (sentIp reply).len ≤ (sentIp reply).received
  type : (sentIp reply).payload.take 2 = [0, 0]
  content : (sentIp reply).payload.drop 4 = ip.payload.drop 4
  header : rfc1071 ((sentIp reply).bytes.bytes 0 (sentIp reply).hdrLen) = 0
  message : ValidIcmp (sentIp reply)

def RightlyAnswered (localIp : UInt32) (eth : Memory) (ip : IpPacket) : Prop :=
  ∃ after reply, handleIcmp localIp eth ip = some (after, reply) ∧ (reply.isSome ↔ ValidIcmp ip) ∧
    ∀ frame ∈ reply, Answers ip frame

/-! ### Checksums that stay the same -/

private theorem rfc1071_eq_zero (l : List UInt8) : rfc1071 l = 0 ↔ OnesComplement.checksum 65536 (memSum l) = 0 := by
  have hswap : OnesComplement.checksum 65536 (netSum l) = swap 256 (OnesComplement.checksum 65536 (memSum l)) :=
    checksum_highFirst (c := 256) (by decide) _
  rw [← UInt16.toNat_inj, rfc1071, UInt16.toNat_ofNat', Nat.mod_eq_of_lt (checksum_lt (by decide) _), hswap]
  exact swap_eq_zero (by decide)

private theorem rfc1071_store16 (m : Memory) (a len : Nat) {v : Nat} (hk : k % 2 = 0) (h : k + 2 ≤ len) (h0 : m.load16 (a + k) = 0)
    (hv : v < 2 ^ 16) :
    rfc1071 ((m.store16 (a + k) v).bytes a len) = 0 ↔
      v = OnesComplement.checksum 65536 (memSum (m.bytes a len)) ∨
        OnesComplement.checksum 65536 (memSum (m.bytes a len)) = 0 ∧ v = 65535 := by
  rw [rfc1071_eq_zero, memSum_store16 m a hk h h0 hv]
  exact checksum_add_eq_zero (by decide) hv _

theorem htons_checksum (h : len ≤ 65535) :
    (htons (checksum m a len)).toNat = swap 256 (OnesComplement.checksum 65536 (memSum (m.bytes a len))) := by
  rw [htons_toNat, checksum_toNat h]
  rfl

private theorem rfc1071_store_htons (m : Memory) (a : Nat) (hk : k % 2 = 0) (h : k + 2 ≤ len) (hlen : len ≤ 65535)
    (h0 : m.load16 (a + k) = 0) :
    rfc1071 ((m.store16 (a + k) (htons (checksum m a len)).toNat).bytes a len) = 0 ↔ 257 ∣ memSum (m.bytes a len) := by
  have hsame := swap_checksum_eq_self (c := 256) (by decide) (memSum (m.bytes a len))
  rw [rfc1071_store16 m a len hk h h0 (htons (checksum m a len)).toNat_lt, htons_checksum hlen, ← hsame]
  refine ⟨fun hv => hv.elim id fun ⟨hz, htop⟩ => ?_, .inl⟩
  rw [hz] at htop
  exact absurd htop (by decide)

/-! ### The reply -/

private theorem ofNat_load16 (m : Memory) (a : Nat) : UInt8.ofNat (m.load16 a) = m a := by
  have h0 := (m a).toNat_lt
  rw [← UInt8.toNat_inj, UInt8.toNat_ofNat', load16]
  omega

private theorem ofNat_load16_div (m : Memory) (a : Nat) : UInt8.ofNat (m.load16 a / 256) = m (a + 1) := by
  have h0 := (m a).toNat_lt
  have h1 := (m (a + 1)).toNat_lt
  rw [← UInt8.toNat_inj, UInt8.toNat_ofNat', load16]
  omega

private theorem replyIcmp_agreeOn (buf : Memory) (ip : IpPacket) (dataLen : Nat) : Memory.AgreeOn buf (replyIcmp buf ip dataLen) 0 34 :=
  (store8_agreeOn buf 0 (b := 34) (.inr (by decide))).trans <|
    (store8_agreeOn _ 0 (b := 35) (.inr (by decide))).trans <|
      (store16_agreeOn _ _ (b := 38) (.inl (by decide))).trans <|
        (store16_agreeOn _ _ (b := 40) (.inl (by decide))).trans <|
          (store16_agreeOn _ 0 (b := 36) (.inl (by decide))).trans (memcpy_agreeOn _ _ (b := 42) (.inl (by decide)))

theorem replyIcmp_message (buf : Memory) (ip : IpPacket) (dataLen : Nat) (h : x < 8 + dataLen) :
    replyIcmp buf ip dataLen (34 + x) = if x < 4 then 0 else ip.bytes (20 + x) := by
  by_cases hx : 8 ≤ x
  · obtain ⟨y, rfl⟩ := Nat.exists_eq_add_of_le hx
    rw [if_neg (by omega), replyIcmp, memcpy, if_pos (by omega), show 34 + (8 + y) - 42 = y by omega,
      bytes_getD _ _ (by omega)]
    congr 1
    omega
  · have hdata : ∀ l : List UInt8, ∀ m : Memory, (m.memcpy 42 l) (34 + x) = m (34 + x) := fun l m => by
      rw [memcpy, if_neg (by omega)]
    rw [replyIcmp, hdata]
    interval_cases x <;> simp [store8, store16, ofNat_load16, ofNat_load16_div]

private theorem replyIcmp_bytes (buf : Memory) (ip : IpPacket) (dataLen : Nat) :
    (replyIcmp buf ip dataLen).bytes 34 (8 + dataLen) = [0, 0, 0, 0] ++ ip.bytes.bytes 24 (4 + dataLen) := by
  have hmsg := fun x h => replyIcmp_message buf ip dataLen (x := x) h
  let zeros : Memory := fun _ => 0
  have hzeros : (replyIcmp buf ip dataLen).bytes 34 4 = zeros.bytes 0 4 :=
    bytes_shift fun x hx => (hmsg x (by omega)).trans (if_pos hx)
  rw [show 8 + dataLen = 4 + (4 + dataLen) by omega, bytes_add, hzeros]
  congr 1
  refine bytes_shift fun x hx => ?_
  rw [add_assoc, hmsg (4 + x) (by omega), if_neg (by omega), ← add_assoc]

theorem memSum_four (m : Memory) (a : Nat) : memSum (m.bytes a 4) = m.load32 a % 65536 + m.load32 a / 65536 := by
  have h0 := (m a).toNat_lt
  have h1 := (m (a + 1)).toNat_lt
  have h2 := (m (a + 2)).toNat_lt
  have h3 := (m (a + 3)).toNat_lt
  have hwords : memSum (m.bytes a 4) = m.load16 a + (m.load16 (a + 2) + 0) := by
    rw [memSum_two, memSum_two]
    rfl
  rw [hwords, load16, load16, load32, add_assoc a 2 1]
  omega

private theorem replyIp_checksum (localIp : UInt32) (eth : Memory) (ip : IpPacket) : (replyIp localIp eth ip).load16 24 = 0 :=
  load16_store16 _ 24 (by decide)

private theorem replyIp_front (localIp : UInt32) (eth : Memory) (ip : IpPacket) :
    (replyIp localIp eth ip).bytes 14 10 = ip.bytes.bytes 0 10 := by
  let buf : Memory := fun _ => 0
  let buf := ((buf.memcpy 0 (eth.bytes 6 6)).memcpy 6 myMac).store16 12 (htons ethTypeIp).toNat
  have hkeep : Memory.AgreeOn (buf.memcpy 14 (ip.bytes.bytes 0 headerSize)) (replyIp localIp eth ip) 14 10 :=
    ((store32_agreeOn _ localIp.toNat (b := 26) (.inl (by decide))).trans
      (store32_agreeOn _ (ip.bytes.load32 12) (b := 30) (.inl (by decide)))).trans
        (store16_agreeOn _ 0 (b := 24) (.inl (by decide)))
  rw [hkeep.bytes, bytes_memcpy _ (by rw [length_bytes]; decide), show headerSize = 10 + 10 from rfl,
    bytes_add, List.take_left' (length_bytes ..)]

def replyHeaderSum (localIp : UInt32) (ip : IpPacket) : Nat :=
  memSum (ip.bytes.bytes 0 10) + localIp.toNat % 65536 + localIp.toNat / 65536 + memSum (ip.bytes.bytes 12 4)

private theorem memSum_replyIp (localIp : UInt32) (eth : Memory) (ip : IpPacket) :
    memSum ((replyIp localIp eth ip).bytes 14 headerSize) = replyHeaderSum localIp ip := by
  have hsrc : (replyIp localIp eth ip).load32 26 = localIp.toNat := by
    rw [replyIp, (store16_agreeOn _ 0 (.inr (by decide))).load32,
      (store32_agreeOn _ _ (.inl (by decide))).load32, load32_store32 _ _ localIp.toNat_lt]
  have hdst : (replyIp localIp eth ip).load32 30 = ip.bytes.load32 12 := by
    rw [replyIp, (store16_agreeOn _ 0 (.inr (by decide))).load32, load32_store32 _ _ (load32_lt ..)]
  have hfield : memSum ((replyIp localIp eth ip).bytes 24 2) = 0 := by
    rw [memSum_two, replyIp_checksum]
    rfl
  rw [show headerSize = 10 + (2 + (4 + 4)) from rfl, bytes_add, bytes_add, bytes_add,
    memSum_append (by rw [length_bytes]), memSum_append (by rw [length_bytes]),
    memSum_append (by rw [length_bytes]), replyIp_front, hfield, memSum_four _ 26, memSum_four _ 30, hsrc, hdst,
    ← memSum_four, replyHeaderSum]
  omega

private theorem replyBuffer_agreeOn (localIp : UInt32) (eth : Memory) (ip : IpPacket) (dataLen : Nat) :
    Memory.AgreeOn ((replyIp localIp eth ip).store16 (14 + 10)
      (htons (checksum (replyIp localIp eth ip) 14 headerSize)).toNat) (replyBuffer localIp eth ip dataLen) 0 34 :=
  (replyIcmp_agreeOn _ ip dataLen).trans (store16_agreeOn _ _ (b := 36) (.inl (by decide)))

private theorem replyBuffer_header (localIp : UInt32) (eth : Memory) (ip : IpPacket) (dataLen : Nat) :
    rfc1071 ((replyBuffer localIp eth ip dataLen).bytes 14 headerSize) = 0 ↔ 257 ∣ replyHeaderSum localIp ip := by
  rw [((replyBuffer_agreeOn localIp eth ip dataLen).mono (by decide) (by decide)).bytes,
    rfc1071_store_htons _ 14 (by decide) (by decide) (by decide) (replyIp_checksum ..), memSum_replyIp]

private theorem replyBuffer_message (localIp : UInt32) (eth : Memory) (ip : IpPacket) {dataLen : Nat} (h : 42 + dataLen ≤ 512) :
    rfc1071 ((replyBuffer localIp eth ip dataLen).bytes 34 (8 + dataLen)) = 0 ↔
      257 ∣ memSum (ip.bytes.bytes 24 (4 + dataLen)) := by
  generalize hbuf : (replyIp localIp eth ip).store16 24
    (htons (checksum (replyIp localIp eth ip) 14 headerSize)).toNat = buf
  have hmsg := replyIcmp_bytes buf ip dataLen
  have hfield : (replyIcmp buf ip dataLen).load16 (34 + 2) = 0 := by
    have h2 := replyIcmp_message buf ip dataLen (x := 2) (by omega)
    have h3 := replyIcmp_message buf ip dataLen (x := 3) (by omega)
    rw [load16, h2, h3]
    rfl
  rw [replyBuffer]
  simp only [hbuf]
  rw [show icmpHeaderSize + dataLen = 8 + dataLen from rfl,
    rfc1071_store_htons (replyIcmp buf ip dataLen) 34 (k := 2) (by decide) (by omega) (by omega) hfield, hmsg,
    memSum_append (by decide), show memSum [0, 0, 0, 0] = 0 from rfl, zero_add]

theorem replyBuffer_content (localIp : UInt32) (eth : Memory) (ip : IpPacket) (dataLen : Nat) :
    (replyBuffer localIp eth ip dataLen).bytes 34 2 = [0, 0] ∧
      (replyBuffer localIp eth ip dataLen).bytes 38 (4 + dataLen) = ip.bytes.bytes 24 (4 + dataLen) := by
  generalize hbuf : (replyIp localIp eth ip).store16 24
    (htons (checksum (replyIp localIp eth ip) 14 headerSize)).toNat = buf
  rw [replyBuffer]
  simp only [hbuf]
  have hmsg := fun x h => replyIcmp_message buf ip dataLen (x := x) h
  constructor
  · rw [(store16_agreeOn _ _ (a := 34) (n := 2) (b := 36) (.inl (by decide))).bytes]
    let zeros : Memory := fun _ => 0
    show _ = zeros.bytes 0 2
    exact bytes_shift fun x hx => (hmsg x (by omega)).trans (if_pos (by omega))
  · rw [(store16_agreeOn _ _ (a := 38) (n := 4 + dataLen) (b := 36) (.inr (by decide))).bytes]
    refine bytes_shift fun x hx => ?_
    rw [show 38 + x = 34 + (4 + x) by omega, hmsg (4 + x) (by omega), if_neg (by omega), ← add_assoc]

section Sent
variable {dataLen : Nat}

theorem sentIp_bytes (m : Memory) (h : 14 + x < n) : (sentIp (m.bytes 0 n)).bytes x = m (14 + x) := by
  have hget : (m.bytes 0 n).getD (14 + x) 0 = m (0 + (14 + x)) := bytes_getD m 0 h
  rwa [zero_add] at hget

private theorem sentIp_front (localIp : UInt32) (eth : Memory) (ip : IpPacket) (dataLen : Nat) (h : x < 10) :
    (sentIp ((replyBuffer localIp eth ip dataLen).bytes 0 (42 + dataLen))).bytes x = ip.bytes x := by
  have hfront := congrArg (fun l => l.getD x 0) (replyIp_front localIp eth ip)
  simp only [bytes_getD _ _ h, zero_add] at hfront
  rw [sentIp_bytes _ (by omega), replyBuffer_agreeOn localIp eth ip dataLen (14 + x) (by omega) (by omega),
    store16_agreeOn _ _ (a := 14) (n := 10) (.inl (by decide)) (14 + x) (by omega) (by omega), hfront]

theorem sentIp_lengths (localIp : UInt32) (eth : Memory) (ip : IpPacket) (dataLen : Nat) :
    (sentIp ((replyBuffer localIp eth ip dataLen).bytes 0 (42 + dataLen))).hdrLen = ip.hdrLen ∧
      (sentIp ((replyBuffer localIp eth ip dataLen).bytes 0 (42 + dataLen))).len = ip.len := by
  have hfront := fun x h => sentIp_front localIp eth ip dataLen (x := x) h
  refine ⟨?_, ?_⟩
  · rw [hdrLen, hfront 0 (by decide), hdrLen]
  · rw [len, load16, hfront 2 (by decide), hfront 3 (by decide), len, load16]

private theorem sentIp_received (m : Memory) (n : Nat) : (sentIp (m.bytes 0 (42 + n))).received = 28 + n := by
  have hlen : (sentIp (m.bytes 0 (42 + n))).received = (m.bytes 0 (42 + n)).length - 14 := rfl
  rw [hlen, length_bytes]
  omega

private theorem sentIp_payload (localIp : UInt32) (eth : Memory) (h20 : ip.hdrLen = headerSize)
    (hpay : ip.payloadLen = 8 + dataLen) :
    (sentIp ((replyBuffer localIp eth ip dataLen).bytes 0 (42 + dataLen))).payload =
      (replyBuffer localIp eth ip dataLen).bytes 34 (8 + dataLen) := by
  obtain ⟨hhl, hlen⟩ := sentIp_lengths localIp eth ip dataLen
  rw [payload, payloadLen, hlen, hhl, ← payloadLen, h20, hpay,
    show ((8 : Int) + dataLen).toNat = 8 + dataLen by omega]
  refine bytes_shift fun x hx => ?_
  rw [headerSize, sentIp_bytes _ (by omega), ← add_assoc]

private theorem payload_drop (h20 : ip.hdrLen = headerSize) (hpay : ip.payloadLen = 8 + dataLen) :
    ip.payload.drop 4 = ip.bytes.bytes 24 (4 + dataLen) := by
  rw [payload, h20, hpay, show ((8 : Int) + dataLen).toNat = 4 + (4 + dataLen) by omega, bytes_add,
    List.drop_left' (length_bytes ..)]
  rfl

private theorem answers_iff (localIp : UInt32) (eth : Memory) {ip : IpPacket} (hhdr : headerSize ≤ ip.hdrLen)
    (hpay : ip.payloadLen = 8 + dataLen) (hfit : 42 + dataLen ≤ 512) :
    Answers ip ((replyBuffer localIp eth ip dataLen).bytes 0 (42 + dataLen)) ↔
      ip.hdrLen = headerSize ∧ 257 ∣ replyHeaderSum localIp ip ∧ 257 ∣ memSum (ip.bytes.bytes 24 (4 + dataLen)) := by
  obtain ⟨hhl, hlen⟩ := sentIp_lengths localIp eth ip dataLen
  obtain ⟨htype, hcontent⟩ := replyBuffer_content localIp eth ip dataLen
  -- the frame has a header of twenty bytes, whatever it says
  have hwhole : (sentIp ((replyBuffer localIp eth ip dataLen).bytes 0 (42 + dataLen))).len ≤
      (sentIp ((replyBuffer localIp eth ip dataLen).bytes 0 (42 + dataLen))).received ↔ ip.hdrLen = headerSize := by
    have hpay' : (ip.len : Int) - ip.hdrLen = 8 + dataLen := hpay
    rw [headerSize] at hhdr ⊢
    rw [hlen, sentIp_received]
    omega
  have hheader : (sentIp ((replyBuffer localIp eth ip dataLen).bytes 0 (42 + dataLen))).bytes.bytes 0 headerSize =
      (replyBuffer localIp eth ip dataLen).bytes 14 headerSize :=
    bytes_shift fun x hx => by
      rw [headerSize] at hx
      rw [zero_add, sentIp_bytes _ (by omega)]
  have hsplit : (replyBuffer localIp eth ip dataLen).bytes 34 (8 + dataLen) = (replyBuffer localIp eth ip dataLen).bytes 34 2 ++
      ((replyBuffer localIp eth ip dataLen).bytes 36 2 ++ (replyBuffer localIp eth ip dataLen).bytes 38 (4 + dataLen)) := by
    rw [show 8 + dataLen = 2 + (2 + (4 + dataLen)) by omega, bytes_add, bytes_add]
  rw [← replyBuffer_header localIp eth ip dataLen, ← replyBuffer_message localIp eth ip hfit, ← hheader]
  constructor
  · intro h
    have h20 := hwhole.mp h.whole
    have hmessage := h.message
    have hhead := h.header
    rw [hhl, h20] at hhead
    rw [ValidIcmp, sentIp_payload localIp eth h20 hpay] at hmessage
    exact ⟨h20, hhead, hmessage⟩
  · rintro ⟨h20, hhead, hmessage⟩
    have hpayload := sentIp_payload localIp eth h20 hpay
    refine ⟨hwhole.mpr h20, ?_, ?_, ?_, ?_⟩
    · rw [hpayload, hsplit, htype]
      rfl
    · rw [hpayload, payload_drop h20 hpay, hsplit, ← List.append_assoc, List.drop_left' (by simp [length_bytes]), hcontent]
    · rw [hhl, h20, hhead]
    · rw [ValidIcmp, hpayload, hmessage]

end Sent

/-! ### Requests that are answered rightly -/

/-- The sum of the words of the message behind a header of twenty bytes, without its checksum. -/
def requestSum (ip : IpPacket) : Nat :=
  memSum (ip.bytes.bytes 20 2) + memSum (ip.bytes.bytes 24 (ip.payloadLen.toNat - 4))

/-- What `handle_icmp` takes for a valid request. -/
def Accepted (ip : IpPacket) : Prop :=
  ip.bytes 20 = 8 ∧ ip.bytes.load16 22 = swap 256 (OnesComplement.checksum 65536 (requestSum ip))

instance : Decidable (Accepted ip) := inferInstanceAs (Decidable (_ ∧ _))

theorem memSum_zeroed (ip : IpPacket) (h : 8 ≤ ip.payloadLen) :
    memSum ((ip.bytes.store16 22 0).bytes 20 ip.payloadLen.toNat) = requestSum ip := by
  have hfield : memSum ((ip.bytes.store16 22 0).bytes 22 2) = 0 := by
    rw [memSum_two, load16_store16 _ 22 (by decide)]
    rfl
  rw [bytes_store16 ip.bytes 20 (k := 2) (by omega), memSum_append (by rw [length_bytes]),
    memSum_append (by rw [length_bytes]), hfield, requestSum, Nat.zero_add, Nat.sub_sub]

theorem payloadLen_le (ip : IpPacket) : ip.payloadLen ≤ 65535 := by
  have hlt := (htons (UInt16.ofNat (ip.bytes.load16 2))).toNat_lt
  rw [payloadLen, len]
  omega

theorem handleIcmp_eq (localIp : UInt32) (eth : Memory) {ip : IpPacket} (h : 8 ≤ ip.payloadLen) :
    handleIcmp localIp eth ip =
      if Accepted ip then (sendIcmpReply localIp eth ip (ip.payloadLen.toNat - 8)).map fun reply => (ip, some reply)
      else some (if ip.bytes 20 = 8 then { ip with bytes := ip.bytes.store16 22 0 } else ip, none) := by
  have hlen := payloadLen_le ip
  have hcheck : (htons (checksum (ip.bytes.store16 22 0) 20 ip.payloadLen.toNat)).toNat =
      swap 256 (OnesComplement.checksum 65536 (requestSum ip)) := by rw [htons_checksum (by omega), memSum_zeroed ip h]
  have hlong : ¬ ip.payloadLen < (icmpHeaderSize : Int) := by
    rw [icmpHeaderSize]
    omega
  rw [handleIcmp, if_neg hlong]
  by_cases htype : ip.bytes 20 = 8
  · simp only [if_pos htype, hcheck, store16_store16_load16, icmpHeaderSize]
    by_cases heq : ip.bytes.load16 22 = swap 256 (OnesComplement.checksum 65536 (requestSum ip))
    · rw [if_neg (not_not.mpr heq), if_pos (show Accepted ip from ⟨htype, heq⟩)]
    · rw [if_pos heq, if_neg fun hacc : Accepted ip => heq hacc.2]
  · rw [if_neg htype, if_neg fun hacc : Accepted ip => htype hacc.1, if_neg htype]

private theorem validIcmp_iff (h20 : ip.hdrLen = headerSize) (h : 8 ≤ ip.payloadLen) :
    ValidIcmp ip ↔ ip.bytes.load16 22 = OnesComplement.checksum 65536 (requestSum ip) ∨
      OnesComplement.checksum 65536 (requestSum ip) = 0 ∧ ip.bytes.load16 22 = 65535 := by
  have hstore := rfc1071_store16 (ip.bytes.store16 22 0) 20 ip.payloadLen.toNat (k := 2) (by decide) (by omega)
    (load16_store16 _ 22 (by decide)) (load16_lt ip.bytes 22)
  rw [store16_store16_load16, memSum_zeroed ip h] at hstore
  rw [ValidIcmp, payload, h20]
  exact hstore

/-- An accepted request is answered rightly where nothing is changed by the exchange of the bytes and the reply has its
place in the buffer. -/
structure Palindromic (localIp : UInt32) (ip : IpPacket) : Prop where
  header : ip.hdrLen = headerSize
  fits : ip.payloadLen ≤ 478
  code : ip.bytes 21 = 8
  request : 257 ∣ requestSum ip
  reply : 257 ∣ replyHeaderSum localIp ip

private theorem requestSum_eq (hpay : ip.payloadLen = 8 + n) (htype : ip.bytes 20 = 8) :
    requestSum ip = 8 + 256 * (ip.bytes 21).toNat + memSum (ip.bytes.bytes 24 (4 + n)) := by
  have hword : memSum (ip.bytes.bytes 20 2) = 8 + 256 * (ip.bytes 21).toNat := by
    rw [memSum_two, load16, htype]
    rfl
  rw [requestSum, hword, hpay, show ((8 : Int) + n).toNat - 4 = 4 + n by omega]

theorem Accepted.valid_iff (hacc : Accepted ip) (h20 : ip.hdrLen = IpPacket.headerSize) (h : 8 ≤ ip.payloadLen) :
    ValidIcmp ip ↔ 257 ∣ requestSum ip := by
  rw [validIcmp_iff h20 h, hacc.2, ← swap_checksum_eq_self (c := 256) (by decide)]
  refine ⟨fun hv => hv.elim id fun ⟨hz, htop⟩ => ?_, .inl⟩
  rw [hz] at htop
  exact absurd htop (by decide)

/-- An echo request is answered rightly where it is accepted and none of the slips has an effect, or where it is not accepted
and its checksum is wrong. -/
theorem handleIcmp_answers_iff (localIp : UInt32) (eth : Memory) (ip : IpPacket) (h : EchoRequest ip) :
    RightlyAnswered localIp eth ip ↔ if Accepted ip then Palindromic localIp ip else ¬ ValidIcmp ip := by
  have hmessage : (8 : Int) ≤ ip.payloadLen := h.message
  obtain ⟨n, hpay⟩ : ∃ n : Nat, ip.payloadLen = 8 + n := ⟨(ip.payloadLen - 8).toNat, by omega⟩
  rw [RightlyAnswered, handleIcmp_eq localIp eth hmessage]
  by_cases hacc : Accepted ip
  · rw [if_pos hacc, if_pos hacc, sendIcmpReply, show ip.payloadLen.toNat - 8 = n by omega]
    by_cases hfit : 42 + n ≤ 512
    · rw [if_pos hfit, map_some]
      have hanswers := answers_iff localIp eth h.header hpay hfit
      have hsum := requestSum_eq hpay hacc.1
      constructor
      · rintro ⟨after, reply, hsent, hiff, hall⟩
        cases hsent
        obtain ⟨h20, hhead, hmsg⟩ := hanswers.mp (hall _ rfl)
        have hreq := (hacc.valid_iff h20 hmessage).mp (hiff.mp rfl)
        refine ⟨h20, by omega, ?_, hreq, hhead⟩
        -- the reply leaves out the word with the type and the code
        have hcode := (ip.bytes 21).toNat_lt
        rw [← UInt8.toNat_inj, show (8 : UInt8).toNat = 8 from rfl]
        rw [hsum] at hreq
        omega
      · intro hp
        have hmsg : 257 ∣ memSum (ip.bytes.bytes 24 (4 + n)) := by
          have hreq := hp.request
          rw [hsum, hp.code, show (8 : UInt8).toNat = 8 from rfl] at hreq
          omega
        refine ⟨_, _, rfl, iff_of_true rfl ((hacc.valid_iff hp.header hmessage).mpr hp.request), fun frame hframe => ?_⟩
        obtain rfl := mem_some.mp hframe
        exact hanswers.mpr ⟨hp.header, hp.reply, hmsg⟩
    · rw [if_neg hfit, map_none]
      refine iff_of_false (fun ⟨_, _, hsent, _⟩ => absurd hsent (some_ne_none _).symm) fun hp => hfit ?_
      have hfits := hp.fits
      omega
  · rw [if_neg hacc, if_neg hacc]
    constructor
    · rintro ⟨after, reply, hsent, hiff, -⟩ hvalid
      obtain ⟨-, rfl⟩ := Prod.mk.inj (some.inj hsent)
      exact absurd (hiff.mpr hvalid) (by decide)
    · intro hinvalid
      exact ⟨_, _, rfl, iff_of_false (by decide) hinvalid, fun _ hframe => absurd hframe (not_mem_none _)⟩

/-- An echo request of 28 bytes without a payload, from the address zero. -/
def ping (id code : UInt8) (chk : List UInt8) : IpPacket where
  bytes a := ([0x45, 0, 0, 28, id, 0, 0, 0, 64, 1, 0, 0, 0, 0, 0, 0, 0, 0, 0, 0, 8, code] ++ chk ++ [0, 0, 0, 0]).getD a 0
  received := 28

theorem handleIcmp_answers_palindrome : RightlyAnswered 0 (fun _ => 0) (ping 153 8 [0xF7, 0xF7]) := by
  have hfold : fold 65536 2056 = 2056 := fold_of_lt (by decide)
  have hsum : requestSum (ping 153 8 [0xF7, 0xF7]) = 2056 := by decide
  have hacc : Accepted (ping 153 8 [0xF7, 0xF7]) := by
    refine ⟨rfl, ?_⟩
    rw [hsum, OnesComplement.checksum, hfold]
    decide
  apply (handleIcmp_answers_iff 0 (fun _ => 0) (ping 153 8 [0xF7, 0xF7]) ⟨by decide, by decide, rfl⟩).mpr
  rw [if_pos hacc]
  exact ⟨rfl, by decide, rfl, by decide, by decide⟩

theorem ping_not_answered :
    EchoRequest (ping 0 0 [0xF7, 0xFF]) ∧ ValidIcmp (ping 0 0 [0xF7, 0xFF]) ∧
      ¬ RightlyAnswered 0 (fun _ => 0) (ping 0 0 [0xF7, 0xFF]) := by
  have hfold : fold 65536 8 = 8 := fold_of_lt (by decide)
  have hsum : requestSum (ping 0 0 [0xF7, 0xFF]) = 8 := by decide
  have hlen : (8 : Int) ≤ (ping 0 0 [0xF7, 0xFF]).payloadLen := by decide
  have hvalid : ValidIcmp (ping 0 0 [0xF7, 0xFF]) := by
    rw [validIcmp_iff rfl hlen, hsum, OnesComplement.checksum, hfold]
    exact .inl rfl
  have hacc : ¬ Accepted (ping 0 0 [0xF7, 0xFF]) := by
    rw [Accepted, hsum, OnesComplement.checksum, hfold]
    decide
  refine ⟨⟨by decide, by decide, rfl⟩, hvalid, ?_⟩
  rintro ⟨after, reply, hsent, hiff, -⟩
  rw [handleIcmp_eq 0 _ hlen, if_neg hacc] at hsent
  obtain ⟨-, rfl⟩ := Prod.mk.inj (Option.some.inj hsent)
  exact absurd (hiff.mpr hvalid) (by decide)

end RetroOs.Net
