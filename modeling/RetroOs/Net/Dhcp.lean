import RetroOs.Lib.CString
import RetroOs.Lib.Runs
import RetroOs.Net.Tcp

/-! The DHCP client: its packets, the handler of responses, the calls, and their runs. A call gives the client and what
it sends. The loop of `dhcp_configure` only polls the network, so a message that arrives in it is an event of its own. -/
namespace RetroOs.Net
open Lib UInt32

inductive DhcpState where
  | init
  | discover
  | request
  | bound
  deriving DecidableEq, Repr

structure NetworkConfig where
  ipAddr : UInt32
  subnetMask : UInt32
  gateway : UInt32
  dnsServer : UInt32
  dhcpServer : UInt32
  leaseTime : UInt32
  leaseStart : UInt32
  configured : Bool

def NetworkConfig.zero : NetworkConfig := ⟨0, 0, 0, 0, 0, 0, 0, false⟩

/-- The fields of a packet that the client sets; the others are zero. -/
structure DhcpPacket where
  op : UInt8
  htype : UInt8
  hlen : UInt8
  xid : UInt32
  flags : UInt16
  ciaddr : UInt32
  chaddr : List UInt8
  magic : UInt32
  options : List UInt8

/-- A call of `udp_send` from the client's port to the server's. -/
structure DhcpSend where
  srcIp : UInt32
  dstIp : UInt32
  packet : DhcpPacket

namespace Dhcp

def magicCookie : UInt32 := 0x63825363

def msgDiscover : UInt8 := 1
def msgOffer : UInt8 := 2
def msgRequest : UInt8 := 3
def msgAck : UInt8 := 5
def msgNak : UInt8 := 6
def msgRelease : UInt8 := 7

def optPad : UInt8 := 0
def optSubnet : UInt8 := 1
def optRouter : UInt8 := 3
def optDns : UInt8 := 6
def optRequestedIp : UInt8 := 50
def optLeaseTime : UInt8 := 51
def optMsgType : UInt8 := 53
def optServerId : UInt8 := 54
def optParamReq : UInt8 := 55
def optEnd : UInt8 := 255

def optionsOffset : Nat := 240
def optionsSize : Nat := 308

def localMac : List UInt8 := [0x52, 0x54, 0x00, 0x12, 0x34, 0x56]

/-- The search for an option from offset `i` on; each round goes on by one byte at least. -/
def findOption (data : Memory) (code : UInt8) : Nat → Nat → Option Nat
  | 0, _ => none
  | n + 1, i =>
    if i < optionsSize then
      let c := data (optionsOffset + i)
      if c = optPad then findOption data code n (i + 1)
      else if c = optEnd then none
      else if c = code then some (optionsOffset + i)
      else findOption data code n (i + (2 + (data (optionsOffset + i + 1)).toNat))
    else none

/-- The word that an option holds. -/
def option (data : Memory) (code : UInt8) : Option UInt32 :=
  (findOption data code optionsSize 0).map fun o => ofNat (data.load32 (o + 2))

def yiaddr (data : Memory) : UInt32 := ofNat (data.load32 16)
def siaddr (data : Memory) : UInt32 := ofNat (data.load32 20)

def wordBytes (v : UInt32) : List UInt8 := [v.toUInt8, (v >>> 8).toUInt8, (v >>> 16).toUInt8, (v >>> 24).toUInt8]

def addOption (code : UInt8) (data : List UInt8) : List UInt8 := code :: UInt8.ofNat data.length :: data

def params : List UInt8 := addOption optParamReq [optSubnet, optRouter, optDns]

def packet (xid : UInt32) (flags : UInt16) (ciaddr : UInt32) (options : List UInt8) : DhcpPacket where
  op := 1
  htype := 1
  hlen := 6
  xid := htonl xid
  flags := htons flags
  ciaddr := ciaddr
  chaddr := localMac
  magic := htonl magicCookie
  options := options ++ [optEnd]

end Dhcp

structure Dhcp where
  netConfig : NetworkConfig
  xid : UInt32
  state : DhcpState

namespace Dhcp
variable (s : Dhcp)

def sendDiscover : Dhcp × DhcpSend :=
  ({ s with state := .discover },
    ⟨0, 0xFFFFFFFF, packet s.xid 0x8000 0 (addOption optMsgType [msgDiscover] ++ params)⟩)

def sendRequest (offeredIp serverIp : UInt32) : Dhcp × DhcpSend :=
  ({ s with state := .request },
    ⟨0, 0xFFFFFFFF, packet s.xid 0x8000 0 (addOption optMsgType [msgRequest] ++
      addOption optRequestedIp (wordBytes offeredIp) ++ addOption optServerId (wordBytes serverIp) ++ params)⟩)

/-- The type of a message that passes the checks. The header is looked at where the message has its length, the options
where they would be. -/
def msgType (data : Memory) (length : UInt16) : Option UInt8 :=
  if length.toNat < optionsOffset then none
  else if htonl (ofNat (data.load32 4)) ≠ s.xid then none
  else if htonl (ofNat (data.load32 236)) ≠ magicCookie then none
  else (findOption data optMsgType optionsSize 0).map fun o => data (o + 2)

def rxOffer (data : Memory) : Dhcp × Option DhcpSend :=
  if s.state ≠ .discover then (s, none)
  else
    let serverIp := (option data optServerId).getD (siaddr data)
    let r := { s with netConfig := { s.netConfig with dhcpServer := serverIp } }.sendRequest (yiaddr data) serverIp
    (r.1, some r.2)

def rxAck (data : Memory) (now : UInt32) : Dhcp × Option DhcpSend :=
  if s.state ≠ .request then (s, none)
  else
    let c := s.netConfig
    ({ s with
      state := .bound
      netConfig := { c with
        ipAddr := yiaddr data
        leaseStart := now
        subnetMask := (option data optSubnet).getD c.subnetMask
        gateway := (option data optRouter).getD c.gateway
        dnsServer := (option data optDns).getD c.dnsServer
        leaseTime := ((option data optLeaseTime).map htonl).getD c.leaseTime
        configured := true } }, none)

def rxNak : Dhcp × Option DhcpSend :=
  let r := { s with state := .init, xid := s.xid + 1 }.sendDiscover
  (r.1, some r.2)

def rxHandler (data : Memory) (length : UInt16) (now : UInt32) : Dhcp × Option DhcpSend :=
  match s.msgType data length with
  | none => (s, none)
  | some t =>
    if t = msgOffer then s.rxOffer data
    else if t = msgAck then s.rxAck data now
    else if t = msgNak then s.rxNak
    else (s, none)

def configure (now : UInt32) : Dhcp × DhcpSend :=
  sendDiscover { state := .init, xid := now ^^^ 0xDEADBEEF, netConfig := .zero }

def release : Dhcp × Option DhcpSend :=
  if s.netConfig.configured = false then (s, none)
  else
    ({ s with netConfig := .zero, state := .init },
      some ⟨s.netConfig.ipAddr, s.netConfig.dhcpServer, packet s.xid 0 s.netConfig.ipAddr
        (addOption optMsgType [msgRelease] ++ addOption optServerId (wordBytes s.netConfig.dhcpServer))⟩)

/-- Seconds since the lease began. -/
def elapsed (now : UInt32) : UInt32 := (now - s.netConfig.leaseStart) / 1000

def PastRenewal (now : UInt32) : Prop :=
  s.netConfig.configured = true ∧ s.netConfig.leaseTime / 2 < s.elapsed now

instance (now : UInt32) : Decidable (s.PastRenewal now) := inferInstanceAs (Decidable (_ ∧ _))

def checkLease (now : UInt32) : Dhcp × Option DhcpSend :=
  if s.PastRenewal now ∧ s.state = .bound then
    let r := { s with xid := s.xid + 1 }.sendRequest s.netConfig.ipAddr s.netConfig.dhcpServer
    (r.1, some r.2)
  else (s, none)

def dhcpInit : Dhcp := { s with netConfig := .zero }

/-- Before any call. -/
def boot : Dhcp where
  netConfig := .zero
  xid := 0x12345678
  state := .init

end Dhcp

inductive DhcpEvent where
  | init
  | configure (now : UInt32)
  | receive (data : Memory) (length : UInt16) (now : UInt32)
  | checkLease (now : UInt32)
  | release

/-- A message that the client acted on, with the transaction it is for. -/
inductive DhcpReply where
  | ack (xid ip : UInt32)
  | nak (xid : UInt32)
  deriving DecidableEq

namespace DhcpReply

def ack? : DhcpReply → Option (UInt32 × UInt32)
  | ack xid ip => some (xid, ip)
  | nak _ => none

/-- Transaction and address of the most recent ACK. -/
def lastAck (replies : List DhcpReply) : Option (UInt32 × UInt32) := replies.findSome? ack?

def sinceAck (replies : List DhcpReply) : List DhcpReply := replies.takeWhile fun r => r.ack?.isNone

end DhcpReply

/-- The client with the replies accepted so far, the latest first. -/
structure DhcpRun extends Dhcp where
  replies : List DhcpReply

namespace Dhcp

def exec (s : Dhcp) : DhcpEvent → Dhcp
  | .init => s.dhcpInit
  | .configure now => (configure now).1
  | .receive data length now => (s.rxHandler data length now).1
  | .checkLease now => (s.checkLease now).1
  | .release => s.release.1

/-- The reply that a message is, when the client accepts it. -/
def reply (s : Dhcp) : DhcpEvent → Option DhcpReply
  | .receive data length _ =>
    if s.msgType data length = some msgAck ∧ s.state = .request then some (.ack s.xid (yiaddr data))
    else if s.msgType data length = some msgNak then some (.nak s.xid)
    else none
  | _ => none

end Dhcp

namespace DhcpRun
open Dhcp DhcpReply

def exec (s : DhcpRun) (e : DhcpEvent) : DhcpRun where
  toDhcp := s.toDhcp.exec e
  replies := (s.toDhcp.reply e).toList ++ s.replies

def boot : DhcpRun := ⟨.boot, []⟩

/-- Where the client is configured, it has the address of the most recent ACK, and has accepted no NAK for its
transaction since. -/
def Addressed (s : DhcpRun) : Prop :=
  s.netConfig.configured = true →
    ∃ xid, lastAck s.replies = some (xid, s.netConfig.ipAddr) ∧ .nak xid ∉ sinceAck s.replies

/-- A NAK for the transaction of the lease in use. -/
def LeaseRefused (s : DhcpRun) (e : DhcpEvent) : Prop :=
  s.netConfig.configured = true ∧ s.toDhcp.reply e = some (.nak s.xid) ∧
    (lastAck s.replies).map Prod.fst = some s.xid

end DhcpRun

namespace Dhcp
variable {s : Dhcp} {e : DhcpEvent} {r : DhcpReply} {data : Memory} {length : UInt16} {now xid ip : UInt32}

private theorem exec_configured (h : (s.exec e).netConfig.configured = true) :
    s.reply e = some (.ack s.xid (s.exec e).netConfig.ipAddr) ∨
      s.netConfig.configured = true ∧ (s.exec e).netConfig.ipAddr = s.netConfig.ipAddr ∧
        (s.reply e = none ∨ s.reply e = some (.nak s.xid)) := by
  cases e with
  | init => cases h
  | configure now => cases h
  | release =>
    rw [exec, Dhcp.release] at h ⊢
    split at h
    · next hc =>
      rw [hc] at h
      cases h
    · cases h
  | checkLease now =>
    rw [exec, Dhcp.checkLease] at h ⊢
    split at h
    · next hdue =>
      rw [if_pos hdue]
      exact .inr ⟨h, rfl, .inl rfl⟩
    · next hno =>
      rw [if_neg hno]
      exact .inr ⟨h, rfl, .inl rfl⟩
  | receive data length now =>
    rw [exec, rxHandler] at h ⊢
    rw [reply]
    cases htype : s.msgType data length with
    | none =>
      rw [htype] at h
      exact .inr ⟨h, rfl, .inl rfl⟩
    | some t =>
      rw [htype] at h
      dsimp only at h ⊢
      by_cases hoffer : t = msgOffer
      · subst hoffer
        rw [if_pos rfl, rxOffer] at h ⊢
        split at h
        · next hno =>
          rw [if_pos hno]
          exact .inr ⟨h, rfl, .inl rfl⟩
        · next hyes =>
          rw [if_neg hyes]
          exact .inr ⟨h, rfl, .inl rfl⟩
      rw [if_neg hoffer] at h ⊢
      by_cases hack : t = msgAck
      · subst hack
        rw [if_pos rfl, rxAck] at h ⊢
        split at h
        · next hno =>
          rw [if_pos hno]
          exact .inr ⟨h, rfl, .inl (by rw [if_neg fun hr => hno hr.2]; rfl)⟩
        · next hyes =>
          rw [if_neg hyes, if_pos ⟨rfl, not_not.mp hyes⟩]
          exact .inl rfl
      rw [if_neg hack] at h ⊢
      rw [if_neg fun hr => hack (Option.some.inj hr.1)]
      by_cases hnak : t = msgNak
      · subst hnak
        rw [if_pos rfl] at h ⊢
        exact .inr ⟨h, rfl, .inr rfl⟩
      · rw [if_neg hnak] at h ⊢
        exact .inr ⟨h, rfl, .inl (if_neg fun hr => hnak (Option.some.inj hr))⟩

private theorem exec_nak (h : s.reply e = some (.nak xid)) : (s.exec e).netConfig = s.netConfig := by
  cases e with
  | receive data length now =>
    rw [reply] at h
    split at h
    · cases h
    · split at h
      · next hnak =>
        rw [exec, rxHandler, hnak]
        rfl
      · cases h
  | init => cases h
  | configure now => cases h
  | checkLease now => cases h
  | release => cases h

end Dhcp

namespace DhcpRun
open Dhcp DhcpReply
variable {s : DhcpRun} {e : DhcpEvent}

private theorem addressed_step (h : s.Addressed) : (s.exec e).Addressed ↔ ¬ s.LeaseRefused e := by
  constructor
  · rintro ha ⟨hc, hnak, hlast⟩
    have hconf : (s.exec e).netConfig.configured = true := (congrArg NetworkConfig.configured (exec_nak hnak)).trans hc
    obtain ⟨xid, hxid, hno⟩ := ha hconf
    have hreplies : (s.exec e).replies = .nak s.xid :: s.replies := by rw [DhcpRun.exec, hnak]; rfl
    rw [hreplies] at hxid hno
    have hsame : (lastAck s.replies).map Prod.fst = some xid := congrArg (Option.map Prod.fst) hxid
    cases hlast.symm.trans hsame
    exact hno (.head _)
  · intro hok hc
    obtain hack | ⟨hold, hip, hreply⟩ := exec_configured hc
    · have hreplies : (s.exec e).replies = .ack s.xid (s.exec e).netConfig.ipAddr :: s.replies := by
        rw [DhcpRun.exec, hack]
        rfl
      rw [hreplies]
      exact ⟨s.xid, rfl, List.not_mem_nil⟩
    · obtain ⟨xid, hxid, hno⟩ := h hold
      have haddr : (s.exec e).netConfig.ipAddr = s.netConfig.ipAddr := hip
      rw [haddr]
      obtain hnone | hnak := hreply
      · have hreplies : (s.exec e).replies = s.replies := by rw [DhcpRun.exec, hnone]; rfl
        rw [hreplies]
        exact ⟨xid, hxid, hno⟩
      · have hreplies : (s.exec e).replies = .nak s.xid :: s.replies := by rw [DhcpRun.exec, hnak]; rfl
        rw [hreplies]
        refine ⟨xid, hxid, ?_⟩
        intro hmem
        cases hmem with
        | head => exact hok ⟨hold, hnak, by rw [hxid]; rfl⟩
        | tail _ hmem => exact hno hmem

end DhcpRun

namespace Dhcp
variable {s : Dhcp} {now : UInt32}

/-- Lease checks alone come to one that sends a renewal. -/
def Renews (s : Dhcp) : Prop :=
  ∃ (checks : List UInt32) (now : UInt32),
    ((checks.foldl (fun s t => (s.checkLease t).1) s).checkLease now).2.isSome = true

/-- With a request outstanding or a lease past its renewal time, a later lease check can still send. -/
def CanRenew (s : Dhcp) (now : UInt32) : Prop := s.state = .request ∨ s.PastRenewal now → s.Renews

private theorem checkLease_idle (h : s.state ≠ .bound) (now : UInt32) : s.checkLease now = (s, none) := if_neg fun hr => h hr.2

theorem not_renews (h : s.state ≠ .bound) : ¬ s.Renews := by
  rintro ⟨checks, now, hsome⟩
  have hsame : ∀ checks : List UInt32, checks.foldl (fun s t => (s.checkLease t).1) s = s := by
    intro checks
    induction checks with
    | nil => rfl
    | cons t checks ih => rw [List.foldl_cons, checkLease_idle h, ih]
  rw [hsame, checkLease_idle h] at hsome
  cases hsome

private theorem canRenew_iff (s : Dhcp) (now : UInt32) :
    s.CanRenew now ↔ s.state ≠ .request ∧ (s.PastRenewal now → s.state = .bound) := by
  constructor
  · intro h
    refine ⟨fun hreq => ?_, fun hpast => ?_⟩
    · exact not_renews (by rw [hreq]; decide) (h (.inl hreq))
    · by_contra hno
      exact not_renews hno (h (.inr hpast))
  · rintro ⟨hreq, hbound⟩ (h | hpast)
    · exact absurd h hreq
    · refine ⟨[], now, ?_⟩
      rw [List.foldl_nil, checkLease, if_pos ⟨hpast, hbound hpast⟩]
      rfl

end Dhcp

namespace DhcpRun
open Dhcp

/-- In a run the address stays that of the lease exactly where no step refuses the lease; and exactly in the states where
no request is outstanding and a lease past its renewal time is bound can the client still renew. -/
theorem lease_runs (es : List DhcpEvent) :
    (Along exec (fun s e => (s.exec e).Addressed) boot es ↔ Along exec (fun s e => ¬ s.LeaseRefused e) boot es) ∧
      let s := es.foldl exec boot
      ∀ now, s.CanRenew now ↔ s.state ≠ .request ∧ (s.PastRenewal now → s.state = .bound) :=
  ⟨Along.keeps_iff (fun _ _ => addressed_step) (fun h => nomatch h), fun now => canRenew_iff _ now⟩

def serverReply (xid : UInt32) (type : UInt8) (ip now : UInt32) : DhcpEvent :=
  let m := ((Memory.store32 (fun _ => 0) 4 (htonl xid).toNat).store32 16 ip.toNat).store32 236 (htonl magicCookie).toNat
  let options := addOption optMsgType [type] ++ addOption optLeaseTime [0, 0, 0, 100] ++ [optEnd]
  .receive (m.memcpy optionsOffset options) 548 now

/-- The address 10.0.2.15 is offered and acknowledged. -/
def leased : DhcpRun :=
  let xid := 1000 ^^^ 0xDEADBEEF
  [.configure 1000, serverReply xid msgOffer 0x0F02000A 1001, serverReply xid msgAck 0x0F02000A 1002].foldl exec boot

/-- The client stays configured after a NAK for its lease; and no lease check does anything once a renewal was sent, though
no answer comes. -/
theorem lease_lost :
    (let s := leased.exec (serverReply leased.xid msgNak 0 1003)
    s.netConfig.configured = true ∧ DhcpReply.lastAck s.replies = some (leased.xid, s.netConfig.ipAddr) ∧
      .nak leased.xid ∈ DhcpReply.sinceAck s.replies) ∧
    let s := leased.exec (.checkLease 52002)
    s.state = .request ∧ s.PastRenewal 52002 ∧ ¬ s.Renews := by
  refine ⟨by decide +kernel, by decide +kernel, by decide +kernel, ?_⟩
  have hstate : (leased.exec (.checkLease 52002)).state = .request := by decide +kernel
  exact not_renews (by rw [hstate]; decide)

end DhcpRun
end RetroOs.Net
