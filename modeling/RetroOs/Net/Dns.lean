import RetroOs.Lib.CString
import RetroOs.Net.Tcp

/-! The DNS resolver: names on the wire, the cache, the handler of responses, and the calls. What would write outside the
packet of a query, and what would read names for ever, has no value. -/
namespace RetroOs.Net
open Lib UInt16

namespace DnsName

def dot : UInt8 := 0x2E

def isDot (c : CChar) : Bool := c.val == dot

/-- The labels one after the other; there are at most as many as characters. -/
def encodeLoop : Nat → CString → List UInt8 × Bool
  | _, [] => ([0], true)
  | 0, _ :: _ => ([], false)
  | n + 1, name =>
    let label := name.takeWhile fun c => !isDot c
    if label.length > 63 ∨ label.length = 0 then ([], false)
    else
      let rest := encodeLoop n (name.drop (label.length + 1))
      (UInt8.ofNat label.length :: label.map Subtype.val ++ rest.1, rest.2)

/-- `dns_encode_name`: what it writes, and whether it ends well. -/
def encode (name : CString) : List UInt8 × Bool := encodeLoop name.length name

/-- The loop of `dns_decode_name` at `ptr`, with what is written so far, and what a first jump made of the length. -/
def decodeLoop (response : Memory) (responseLen maxLen start : Nat) :
    Nat → Nat → List UInt8 → Option Nat → Option (Option (List UInt8 × Nat))
  | 0, _, _, _ => none
  | n + 1, ptr, out, jump =>
    if response ptr ≠ 0 ∧ out.length < maxLen - 1 then
      if response ptr &&& 0xC0 = 0xC0 then
        let jump := jump.getD (ptr - start + 2)
        let offset := (response ptr &&& 0x3F).toNat * 256 + (response (ptr + 1)).toNat
        if offset ≥ responseLen then some none else decodeLoop response responseLen maxLen start n offset out (some jump)
      else
        let labelLen := (response ptr).toNat
        if labelLen > 63 then some none
        else
          let out := if out.isEmpty then out else out ++ [dot]
          let copied := min labelLen (maxLen - 1 - out.length)
          decodeLoop response responseLen maxLen start n (ptr + 1 + copied) (out ++ response.bytes (ptr + 1) copied) jump
    else some (some (out, jump.getD (ptr - start + 1)))

/-- `dns_decode_name`: the name and the length of what it was read from. A loop that ends jumps to each offset once at
most between two labels. -/
def decode (response : Memory) (responseLen ptr maxLen : Nat) : Option (Option (List UInt8 × Nat)) :=
  decodeLoop response responseLen maxLen ptr (maxLen * (2 ^ 14 + 2)) ptr [] none

def skipLoop (data : Memory) : Nat → Nat → Option Nat
  | 0, _ => none
  | n + 1, ptr =>
    if data ptr = 0 then some ptr
    else if data ptr &&& 0xC0 = 0xC0 then some (ptr + 2)
    else skipLoop data n (ptr + ((data ptr).toNat + 1))

end DnsName

structure DnsCacheEntry where
  name : CString
  ip : UInt32
  ttl : UInt32
  timestamp : UInt32
  valid : Bool

def DnsCacheEntry.invalidate (e : DnsCacheEntry) : DnsCacheEntry := { e with valid := false }

def DnsCacheEntry.Named (e : DnsCacheEntry) (name : CString) : Prop := e.valid = true ∧ e.name = name

instance (e : DnsCacheEntry) (name : CString) : Decidable (e.Named name) := inferInstanceAs (Decidable (_ ∧ _))

structure Dns where
  cache : Nat → DnsCacheEntry
  txId : UInt16
  responseReceived : Int
  resolvedIp : UInt32
  pendingId : UInt16

namespace Dns

def cacheSize : Nat := 32
def maxName : Nat := 256
def timeoutMs : UInt32 := 5000
def maxRetries : Nat := 3
def headerSize : Nat := 12
def questionSize : Nat := 4
def rrDataSize : Nat := 10
def packetSize : Nat := 512
def typeA : UInt16 := 1
def classIn : UInt16 := 1

variable (s : Dns)

def setEntry (i : Nat) (e : DnsCacheEntry) : Dns := { s with cache := Function.update s.cache i e }

def oldest (cache : Nat → DnsCacheEntry) : List Nat → Nat → UInt32 → Nat
  | [], i, _ => i
  | k :: ks, i, time =>
    if (cache k).valid = false then k
    else if (cache k).timestamp < time then oldest cache ks k (cache k).timestamp
    else oldest cache ks i time

def cacheInsert (name : CString) (ip ttl now : UInt32) : Dns :=
  match (List.range cacheSize).find? fun i => decide ((s.cache i).Named name) with
  | some i => s.setEntry i { s.cache i with ip, ttl, timestamp := now }
  | none =>
    s.setEntry (oldest s.cache (List.range cacheSize) 0 0xFFFFFFFF)
      { name := name.take (maxName - 1), ip, ttl, timestamp := now, valid := true }

/-- The search goes on behind an entry that has expired. -/
def lookupLoop (name : CString) (now : UInt32) : List Nat → Dns → Dns × UInt32
  | [], s => (s, 0)
  | i :: is, s =>
    if (s.cache i).Named name then
      if now - (s.cache i).timestamp < (s.cache i).ttl * 1000 then (s, (s.cache i).ip)
      else lookupLoop name now is (s.setEntry i (s.cache i).invalidate)
    else lookupLoop name now is s

def cacheLookup (name : CString) (now : UInt32) : Dns × UInt32 := lookupLoop name now (List.range cacheSize) s

def id (data : Memory) : UInt16 := htons (ofNat (data.load16 0))
def flags (data : Memory) : UInt16 := htons (ofNat (data.load16 2))
def qdcount (data : Memory) : UInt16 := htons (ofNat (data.load16 4))
def ancount (data : Memory) : UInt16 := htons (ofNat (data.load16 6))

def skipQuestions (data : Memory) : Nat → Nat → Option Nat
  | 0, ptr => some ptr
  | n + 1, ptr => do
    let ptr ← DnsName.skipLoop data (2 ^ 32) ptr
    skipQuestions data n (if data ptr = 0 then ptr + 1 + questionSize else ptr + questionSize)

/-- The address of the first record of type A among the answers. -/
def findAnswer (data : Memory) (length : Nat) : Nat → Nat → Option (Option UInt32)
  | 0, _ => some none
  | n + 1, ptr => do
    match ← DnsName.decode data length ptr maxName with
    | none => some none
    | some (_, nameLen) =>
      let ptr := ptr + nameLen
      if ptr + rrDataSize > length then some none
      else
        let rtype := htons (ofNat (data.load16 ptr))
        let rdlen := (htons (ofNat (data.load16 (ptr + 8)))).toNat
        let ptr := ptr + rrDataSize
        if rtype = typeA ∧ rdlen = 4 then some (some (UInt32.ofNat (data.load32 ptr)))
        else findAnswer data length n (ptr + rdlen)

/-- What a response says: no address where it is too short or reports an error. -/
def answer (data : Memory) (length : Nat) : Option (Option UInt32) :=
  if length < headerSize then some none
  else if flags data &&& 0x000F ≠ 0 then some none
  else if ancount data = 0 then some none
  else do
    let ptr ← skipQuestions data (qdcount data).toNat headerSize
    findAnswer data length (ancount data).toNat ptr

def rxHandler (data : Memory) (length : Nat) : Option Dns :=
  if length < headerSize then some s
  else if id data ≠ s.pendingId then some s
  else if flags data &&& 0x000F ≠ 0 ∨ ancount data = 0 then some { s with responseReceived := -1 }
  else
    (answer data length).map fun
      | some ip => { s with resolvedIp := ip, responseReceived := 1 }
      | none => if s.responseReceived = 0 then { s with responseReceived := -1 } else s

/-- The bytes of a 16-bit field, as the network orders them. -/
def field (x : UInt16) : List UInt8 := [UInt8.ofNat (x.toNat / 256), UInt8.ofNat x.toNat]

def query (txId : UInt16) (name : List UInt8) (qtype : UInt16) : List UInt8 :=
  field txId ++ field 0x0100 ++ field 1 ++ field 0 ++ field 0 ++ field 0 ++ name ++ field qtype ++ field classIn

def sendQuery (hostname : CString) (qtype : UInt16) : Option (Dns × Option (List UInt8)) :=
  let name := DnsName.encode hostname
  if headerSize + name.1.length > packetSize then none
  else if name.2 = false then some (s, none)
  else if headerSize + name.1.length + questionSize > packetSize then none
  else
    some ({ s with txId := s.txId + 1, pendingId := s.txId, responseReceived := 0, resolvedIp := 0 },
      some (query s.txId name.1 qtype))

end Dns

/-- A call of `dns_resolve` in its loop. -/
structure DnsWait where
  hostname : CString
  start : UInt32
  retries : Nat

inductive DnsResult where
  | returns (ip : UInt32)
  | waits (w : DnsWait)

namespace Dns

variable (s : Dns)

def resolve (hostname : CString) (now start : UInt32) : Option (Dns × DnsResult × Option (List UInt8)) :=
  let (s, cached) := s.cacheLookup hostname now
  if cached ≠ 0 then some (s, .returns cached, none)
  else (s.sendQuery hostname typeA).map fun r => (r.1, .waits { hostname, start, retries := 0 }, r.2)

/-- Once through the loop up to `net_poll`, or the return behind it, with the times at which the clock is read. -/
def iterate (w : DnsWait) (now start : UInt32) : Option (Dns × DnsResult × Option (List UInt8)) :=
  if w.retries ≥ maxRetries then some (s, .returns 0, none)
  else if s.responseReceived = 1 then some (s.cacheInsert w.hostname s.resolvedIp 300 now, .returns s.resolvedIp, none)
  else if s.responseReceived = -1 then some (s, .returns 0, none)
  else if now - w.start > timeoutMs then
    if w.retries + 1 < maxRetries then
      (s.sendQuery w.hostname typeA).map fun r => (r.1, .waits { w with retries := w.retries + 1, start }, r.2)
    else some (s, .waits { w with retries := w.retries + 1 }, none)
  else some (s, .waits w, none)

def resolveAsync (hostname : CString) (now : UInt32) : Option (Dns × Option (List UInt8)) :=
  let (s, cached) := s.cacheLookup hostname now
  if cached ≠ 0 then some ({ s with resolvedIp := cached, responseReceived := 1 }, none)
  else s.sendQuery hostname typeA

def getResult : Int × Option UInt32 :=
  if s.responseReceived = 1 then (1, some s.resolvedIp)
  else if s.responseReceived = -1 then (-1, none)
  else (0, none)

def cacheClear : Dns := { s with cache := fun i => (s.cache i).invalidate }

def init : Dns where
  cache _ := { name := [], ip := 0, ttl := 0, timestamp := 0, valid := false }
  txId := 0x1234
  responseReceived := 0
  resolvedIp := 0
  pendingId := 0

end Dns
end RetroOs.Net
