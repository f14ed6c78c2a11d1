import RetroOs.Lib.Assembly
import RetroOs.Lib.Runs
import RetroOs.Net.Tcp

/-! IP reassembly: eight slots with a buffer of 65535 bytes each. A copy that would leave its buffer, or goes through
a null pointer, has no value. -/
namespace RetroOs.Net
open Lib

/-- A packet as it lies in memory from its first byte on, and how many bytes of it were received. -/
structure IpPacket where
  bytes : Memory
  received : Nat

namespace IpPacket

def headerSize : Nat := 20

variable (ip : IpPacket)

def hdrLen : Nat := (ip.bytes 0 &&& 0x0F).toNat * 4
def len : Nat := (htons (UInt16.ofNat (ip.bytes.load16 2))).toNat
def id : Nat := ip.bytes.load16 4
def fragInfo : UInt16 := htons (UInt16.ofNat (ip.bytes.load16 6))
def offset : Nat := ((ip.fragInfo &&& 0x1FFF) * 8).toNat
def moreFrags : Bool := ip.fragInfo &&& 0x2000 != 0
def proto : UInt8 := ip.bytes 9
def src : Nat := ip.bytes.load32 12
def dst : Nat := ip.bytes.load32 16

/-- Negative where the header is longer than the packet. -/
def payloadLen : Int := ip.len - ip.hdrLen

/-- The end of the payload in the packet it is a fragment of. -/
def last : Int := ip.offset + ip.payloadLen

def payload : List UInt8 := ip.bytes.bytes ip.hdrLen ip.payloadLen.toNat

end IpPacket

inductive Upward where
  | whole (ip : IpPacket)
  | reassembled (packet : List UInt8)

structure ReassemblySlot where
  srcIp : Nat
  id : Nat
  buffer : Option Memory
  currentSize : Nat
  totalExpected : Nat
  timeout : UInt32
  used : Bool

namespace ReassemblySlot

def maxSize : Nat := 65535

def place (slot : ReassemblySlot) (ip : IpPacket) : Option ReassemblySlot :=
  if ip.last ≤ maxSize then
    if ip.payloadLen < 0 ∨ slot.buffer.isNone ∧ ip.payloadLen > 0 then none
    else
      some { slot with
        buffer := slot.buffer.map fun m => m.memcpy ip.offset ip.payload
        currentSize := if ip.last > slot.currentSize then ip.last.toNat else slot.currentSize }
  else some slot

/-- The last fragment gives the size, in 16 bits. -/
def expect (slot : ReassemblySlot) (ip : IpPacket) : ReassemblySlot :=
  if ip.moreFrags then slot else { slot with totalExpected := (ip.last % 65536).toNat }

/-- The packet that is handed on: the header of the fragment that came last, and the buffer. -/
def fullPacket (slot : ReassemblySlot) (ip : IpPacket) (m : Memory) : List UInt8 :=
  let len := htons (UInt16.ofNat (slot.totalExpected + IpPacket.headerSize))
  ((ip.bytes.store16 2 len.toNat).store16 6 0).bytes 0 IpPacket.headerSize ++ m.bytes 0 slot.totalExpected

/-- What `handle_ip_fragment` does with the slot that it found or took. -/
def receive (slot : ReassemblySlot) (ip : IpPacket) (full : Bool) : Option (ReassemblySlot × Option Upward) := do
  let slot ← slot.place ip
  let slot := slot.expect ip
  if slot.totalExpected > 0 ∧ slot.currentSize ≥ slot.totalExpected then
    let m ← slot.buffer
    if full then some ({ slot with used := false }, some (.reassembled (slot.fullPacket ip m))) else none
  else some (slot, none)

end ReassemblySlot

structure Reassembly where
  slots : Nat → ReassemblySlot
  lastCleanup : UInt32

namespace Reassembly

def maxSlots : Nat := 8

def setSlot (s : Reassembly) (i : Nat) (slot : ReassemblySlot) : Reassembly :=
  { s with slots := Function.update s.slots i slot }

/-- The slot of the fragment, by its source and its identification. -/
def lookup (s : Reassembly) (ip : IpPacket) : Option Nat :=
  (List.range maxSlots).find? fun i => (s.slots i).used && (s.slots i).srcIp == ip.src && (s.slots i).id == ip.id

def freeSlot (s : Reassembly) : Option Nat := (List.range maxSlots).find? fun i => !(s.slots i).used

def claim (s : Reassembly) (ip : IpPacket) (now : UInt32) (buffer : Option Memory) : Option (Reassembly × Nat) :=
  match s.lookup ip with
  | some i => some (s, i)
  | none =>
    s.freeSlot.map fun i =>
      (s.setSlot i { srcIp := ip.src, id := ip.id, buffer, currentSize := 0, totalExpected := 0, timeout := now + 5000
                     used := true }, i)

def handleFragment (s : Reassembly) (ip : IpPacket) (now : UInt32) (buffer : Option Memory) (full : Bool) :
    Option (Reassembly × Option Upward) :=
  if ip.offset = 0 ∧ ip.moreFrags = false then some (s, some (.whole ip))
  else
    match s.claim ip now buffer with
    | none => some (s, none)
    | some (s, i) => ((s.slots i).receive ip full).map fun r => (s.setSlot i r.1, r.2)

/-- The part of `net_poll` that frees the slots whose time is over. -/
def cleanup (s : Reassembly) (now : UInt32) : Reassembly :=
  if now - s.lastCleanup > 1000 then
    { slots := fun i => if (s.slots i).used ∧ now > (s.slots i).timeout then { s.slots i with used := false } else s.slots i
      lastCleanup := now }
  else s

def init : Reassembly where
  slots _ := { srcIp := 0, id := 0, buffer := none, currentSize := 0, totalExpected := 0, timeout := 0, used := false }
  lastCleanup := 0

end Reassembly

inductive NetEvent where
  | frame (packet : Memory) (len : Nat) (now : UInt32) (buffer : Option Memory) (full : Bool)
  | poll (now : UInt32)

def ethHeaderSize : Nat := 14

def frameIp (packet : Memory) (len : Nat) : IpPacket where
  bytes a := packet (ethHeaderSize + a)
  received := len - ethHeaderSize

def Reassembly.exec (s : Reassembly) : NetEvent → Option (Reassembly × Option Upward)
  | .frame packet len now buffer full =>
    if len < ethHeaderSize ∨ htons (UInt16.ofNat (packet.load16 12)) ≠ 0x0800 then some (s, none)
    else s.handleFragment (frameIp packet len) now buffer full
  | .poll now => some (s.cleanup now, none)

end RetroOs.Net

/-! What the reassembly hands on, over any run of frames and polls. -/
namespace RetroOs.Net
open Lib

namespace IpPacket

def WellFormed (ip : IpPacket) : Prop := headerSize ≤ ip.hdrLen ∧ ip.hdrLen ≤ ip.len ∧ ip.len ≤ ip.received

instance (ip : IpPacket) : Decidable ip.WellFormed := inferInstanceAs (Decidable (_ ∧ _))

/-- The two are fragments of one datagram. -/
def SameDatagram (ip ip' : IpPacket) : Prop := ip.src = ip'.src ∧ ip.dst = ip'.dst ∧ ip.proto = ip'.proto ∧ ip.id = ip'.id

instance (ip ip' : IpPacket) : Decidable (ip.SameDatagram ip') := inferInstanceAs (Decidable (_ ∧ _))

def piece (ip : IpPacket) : Piece where
  start := ip.offset
  bytes := ip.payload

def IsFragment (ip : IpPacket) : Prop := ¬ (ip.offset = 0 ∧ ip.moreFrags = false)

instance (ip : IpPacket) : Decidable ip.IsFragment := inferInstanceAs (Decidable (¬ _))

end IpPacket

/-- The slots, with the fragments that were copied into each since it was taken. -/
structure ReassemblyRun extends Reassembly where
  frags : Nat → List IpPacket

namespace ReassemblyRun

variable {s t : ReassemblyRun} {ip f : IpPacket} {e : NetEvent} {es : List NetEvent} {i j : Nat} {now : UInt32}
  {buffer : Option Memory} {full : Bool} {packet : Memory} {len : Nat} {frags : List IpPacket} {seen : List NetEvent}
  {slot : ReassemblySlot}

def init : ReassemblyRun where
  toReassembly := .init
  frags _ := []

/-- The slot that a fragment goes to. -/
def slotOf (s : ReassemblyRun) (ip : IpPacket) : Option Nat :=
  match s.toReassembly.lookup ip with
  | some i => some i
  | none => s.toReassembly.freeSlot

def claimed (s : ReassemblyRun) (ip : IpPacket) (now : UInt32) (buffer : Option Memory) : ReassemblySlot × List IpPacket :=
  match s.toReassembly.lookup ip with
  | some i => (s.slots i, s.frags i)
  | none =>
    ({ srcIp := ip.src, id := ip.id, buffer, currentSize := 0, totalExpected := 0, timeout := now + 5000, used := true }, [])

def arrived : NetEvent → Option IpPacket
  | .frame packet len _ _ _ =>
    if len < ethHeaderSize ∨ htons (UInt16.ofNat (packet.load16 12)) ≠ 0x0800 then none else some (frameIp packet len)
  | .poll _ => none

/-- A fragment that fits is added to those of its slot. -/
def nextFrags (s : ReassemblyRun) (ip : IpPacket) : Nat → List IpPacket :=
  match s.slotOf ip with
  | none => s.frags
  | some i =>
    let frags := (s.claimed ip 0 none).2
    Function.update s.frags i (if ip.last ≤ ReassemblySlot.maxSize then frags ++ [ip] else frags)

def exec (s : ReassemblyRun) (e : NetEvent) : Option (ReassemblyRun × Option Upward) :=
  (s.toReassembly.exec e).map fun r =>
    ({ r.1 with
        frags := match arrived e with
          | none => s.frags
          | some ip => if ip.IsFragment then s.nextFrags ip else s.frags }, r.2)

structure Fits (s : ReassemblyRun) (ip : IpPacket) (now : UInt32) (buffer : Option Memory) (full : Bool) : Prop where
  wellFormed : ip.last ≤ ReassemblySlot.maxSize → ip.WellFormed
  same : ip.last ≤ ReassemblySlot.maxSize → ∀ f ∈ (s.claimed ip now buffer).2, f.SameDatagram ip
  hasBuffer : ip.last ≤ ReassemblySlot.maxSize → (s.claimed ip now buffer).1.buffer.isSome = true
  size : ip.moreFrags = false → ip.last + IpPacket.headerSize ≤ 65535
  header : ip.moreFrags = false → ip.hdrLen = IpPacket.headerSize
  hasPacket : ip.moreFrags = false → full = true
  before : ip.moreFrags = false → ∀ k < ip.offset, ∃ f ∈ (s.claimed ip now buffer).2, f.piece.Covers k

instance (s : ReassemblyRun) (ip : IpPacket) (now : UInt32) (buffer : Option Memory) (full : Bool) :
    Decidable (Fits s ip now buffer full) :=
  decidable_of_iff ((ip.last ≤ ReassemblySlot.maxSize → ip.WellFormed ∧
      (∀ f ∈ (s.claimed ip now buffer).2, f.SameDatagram ip) ∧ (s.claimed ip now buffer).1.buffer.isSome = true) ∧
      (ip.moreFrags = false → ip.last + IpPacket.headerSize ≤ 65535 ∧ ip.hdrLen = IpPacket.headerSize ∧ full = true ∧
        ∀ k < ip.offset, ∃ f ∈ (s.claimed ip now buffer).2, f.piece.Covers k))
    ⟨fun h => ⟨fun hl => (h.1 hl).1, fun hl => (h.1 hl).2.1, fun hl => (h.1 hl).2.2, fun hm => (h.2 hm).1,
      fun hm => (h.2 hm).2.1, fun hm => (h.2 hm).2.2.1, fun hm => (h.2 hm).2.2.2⟩,
    fun h => ⟨fun hl => ⟨h.wellFormed hl, h.same hl, h.hasBuffer hl⟩,
      fun hm => ⟨h.size hm, h.header hm, h.hasPacket hm, h.before hm⟩⟩⟩

def EventFits (s : ReassemblyRun) : NetEvent → Prop
  | .frame packet len now buffer full =>
    ∀ ip ∈ arrived (.frame packet len now buffer full), ip.IsFragment → (s.slotOf ip).isSome = true → Fits s ip now buffer full
  | .poll _ => True

instance (s : ReassemblyRun) (e : NetEvent) : Decidable (EventFits s e) :=
  match e with
  | .frame packet len now buffer full => inferInstanceAs (Decidable (∀ ip ∈ arrived (.frame packet len now buffer full),
      ip.IsFragment → (s.slotOf ip).isSome = true → Fits s ip now buffer full))
  | .poll _ => inferInstanceAs (Decidable True)

/-- The packet as the handlers see it. -/
def asIp (packet : List UInt8) : IpPacket where
  bytes a := packet.getD a 0
  received := packet.length

/-- Every byte of the payload came in a fragment of this datagram, and the header tells the lengths. -/
structure Complete (seen : List NetEvent) (packet : List UInt8) : Prop where
  hdrLen : (asIp packet).hdrLen = IpPacket.headerSize
  len : (asIp packet).len = packet.length
  bytes : ∀ (k : Nat) (h : IpPacket.headerSize + k < packet.length), ∃ e ∈ seen, ∃ f ∈ arrived e,
    f.WellFormed ∧ f.SameDatagram (asIp packet) ∧ f.piece.Has k packet[IpPacket.headerSize + k]

/-- What a run of fitting events keeps of a slot in use. -/
structure SlotInv (seen : List NetEvent) (slot : ReassemblySlot) (frags : List IpPacket) : Prop where
  arrived : ∀ f ∈ frags, ∃ e ∈ seen, f ∈ arrived e
  wellFormed : ∀ f ∈ frags, f.WellFormed
  assembled : ∀ m ∈ slot.buffer, Assembled m (frags.map IpPacket.piece)
  waiting : slot.totalExpected = 0

private theorem claim_eq (s : ReassemblyRun) (ip : IpPacket) (now : UInt32) (buffer : Option Memory) :
    s.toReassembly.claim ip now buffer =
      (s.slotOf ip).map fun i => (s.toReassembly.setSlot i (s.claimed ip now buffer).1, i) := by
  cases hfound : s.toReassembly.lookup ip with
  | some i => simp [Reassembly.claim, slotOf, claimed, hfound, Reassembly.setSlot]
  | none => simp [Reassembly.claim, slotOf, claimed, hfound]

private theorem claimed_frags (s : ReassemblyRun) (ip : IpPacket) (now now' : UInt32) (buffer buffer' : Option Memory) :
    (s.claimed ip now buffer).2 = (s.claimed ip now' buffer').2 := by
  rw [claimed, claimed]
  split
  · rfl
  · rfl

private theorem fullPacket_header (slot : ReassemblySlot) (ip : IpPacket) (m : Memory) {x : Nat} (hx : x < IpPacket.headerSize) :
    (asIp (slot.fullPacket ip m)).bytes x = (ip.bytes.store16 2
      (htons (UInt16.ofNat (slot.totalExpected + IpPacket.headerSize))).toNat).store16 6 0 x := by
  simp [asIp, ReassemblySlot.fullPacket, Memory.bytes, List.getElem?_append, hx]

theorem header_agrees (slot : ReassemblySlot) (ip : IpPacket) (m : Memory) {a n : Nat}
    (ha : a + n ≤ 2 ∨ 4 ≤ a) (ha' : a + n ≤ 6 ∨ 8 ≤ a) (hn : a + n ≤ IpPacket.headerSize) :
    Memory.AgreeOn ip.bytes (asIp (slot.fullPacket ip m)).bytes a n := by
  have hstored := (Memory.store16_agreeOn ip.bytes (htons (UInt16.ofNat (slot.totalExpected + IpPacket.headerSize))).toNat ha).trans
    (Memory.store16_agreeOn _ 0 ha')
  intro x hl hu
  rw [← hstored x hl hu]
  exact fullPacket_header slot ip m (Nat.lt_of_lt_of_le hu hn)

private theorem fullPacket_length (slot : ReassemblySlot) (ip : IpPacket) (m : Memory) :
    (slot.fullPacket ip m).length = IpPacket.headerSize + slot.totalExpected := by
  simp [ReassemblySlot.fullPacket, Memory.bytes]

private theorem stored_len (m : Memory) {v : Nat} (hv : v < 2 ^ 16) : ((m.store16 2 v).store16 6 0).load16 2 = v := by
  have hflags : Memory.AgreeOn (m.store16 2 v) ((m.store16 2 v).store16 6 0) 2 2 :=
    Memory.store16_agreeOn _ 0 (.inl (by decide))
  rw [hflags.load16, Memory.load16_store16 m 2 hv]

private theorem fullPacket_len (slot : ReassemblySlot) (ip : IpPacket) (m : Memory)
    (hsize : slot.totalExpected + IpPacket.headerSize ≤ 65535) :
    (asIp (slot.fullPacket ip m)).len = (slot.fullPacket ip m).length := by
  have hload : (asIp (slot.fullPacket ip m)).bytes.load16 2 =
      (htons (UInt16.ofNat (slot.totalExpected + IpPacket.headerSize))).toNat := by
    have hlt := (htons (UInt16.ofNat (slot.totalExpected + IpPacket.headerSize))).toNat_lt
    refine Eq.trans ?_ (stored_len ip.bytes hlt)
    apply Memory.AgreeOn.load16
    intro x hl hu
    exact fullPacket_header slot ip m (Nat.lt_trans hu (by decide))
  rw [IpPacket.len, hload, UInt16.ofNat_toNat, htons_htons, UInt16.toNat_ofNat_of_lt' (Nat.lt_succ_of_le hsize),
    fullPacket_length, Nat.add_comm]

private theorem complete_of {m : Memory} (harrived : ∀ f ∈ frags, ∃ e ∈ seen, f ∈ arrived e) (hwf : ∀ f ∈ frags, f.WellFormed)
    (hsame : ∀ f ∈ frags, f.SameDatagram ip) (hasm : Assembled m (frags.map IpPacket.piece))
    (hcov : ∀ k < slot.totalExpected, ∃ f ∈ frags, f.piece.Covers k) (hhdr : ip.hdrLen = IpPacket.headerSize)
    (hsize : slot.totalExpected + IpPacket.headerSize ≤ 65535) : Complete seen (slot.fullPacket ip m) := by
  have hsrc : (asIp (slot.fullPacket ip m)).src = ip.src := (header_agrees slot ip m (.inr (by decide)) (.inr (by decide)) (by decide)).load32
  have hdst : (asIp (slot.fullPacket ip m)).dst = ip.dst := (header_agrees slot ip m (.inr (by decide)) (.inr (by decide)) (by decide)).load32
  have hid : (asIp (slot.fullPacket ip m)).id = ip.id := (header_agrees slot ip m (.inr (by decide)) (.inl (by decide)) (by decide)).load16
  have hproto : (asIp (slot.fullPacket ip m)).proto = ip.proto :=
    header_agrees slot ip m (a := 9) (n := 1) (.inr (by decide)) (.inr (by decide)) (by decide) 9 (by decide) (by decide)
  refine ⟨?_, fullPacket_len slot ip m hsize, ?_⟩
  · have hfirst := header_agrees slot ip m (a := 0) (n := 1) (.inl (by decide)) (.inl (by decide)) (by decide) 0 (by decide) (by decide)
    rw [IpPacket.hdrLen, hfirst]
    exact hhdr
  · intro k hk
    have hk' : k < slot.totalExpected := by
      rw [fullPacket_length] at hk
      exact Nat.lt_of_add_lt_add_left hk
    obtain ⟨f, hf, hcf⟩ := hcov k hk'
    obtain ⟨p, hp, hhas⟩ := hasm k ⟨f.piece, List.mem_map_of_mem hf, hcf⟩
    obtain ⟨f', hf', rfl⟩ := List.mem_map.mp hp
    obtain ⟨e, he, hfe⟩ := harrived f' hf'
    have hbyte : (slot.fullPacket ip m)[IpPacket.headerSize + k] = m k := by
      simp [ReassemblySlot.fullPacket, Memory.bytes]
    refine ⟨e, he, f', hfe, hwf f' hf', ?_, ?_⟩
    · obtain ⟨h₁, h₂, h₃, h₄⟩ := hsame f' hf'
      exact ⟨h₁.trans hsrc.symm, h₂.trans hdst.symm, h₃.trans hproto.symm, h₄.trans hid.symm⟩
    · rw [hbyte]
      exact hhas

/-- A fragment that fits is copied. -/
theorem place_inv (h : SlotInv seen slot frags)
    (harr : ip ∈ arrived e) (hwf : ip.last ≤ ReassemblySlot.maxSize → ip.WellFormed)
    (hbuf : ip.last ≤ ReassemblySlot.maxSize → slot.buffer.isSome = true) :
    ∃ slot', slot.place ip = some slot' ∧
      SlotInv (seen ++ [e]) slot' (if ip.last ≤ ReassemblySlot.maxSize then frags ++ [ip] else frags) ∧
      (ip.last ≤ ReassemblySlot.maxSize → ip.last.toNat ≤ slot'.currentSize ∧ slot'.buffer.isSome = true) := by
  have hseen : ∀ f ∈ frags, ∃ e' ∈ seen ++ [e], f ∈ arrived e' := by
    intro f hf
    obtain ⟨e', he', hfe⟩ := h.arrived f hf
    exact ⟨e', List.mem_append_left _ he', hfe⟩
  by_cases hlast : ip.last ≤ ReassemblySlot.maxSize
  · obtain ⟨m, hm⟩ := Option.isSome_iff_exists.mp (hbuf hlast)
    have hwf := hwf hlast
    have hpos : ¬ ip.payloadLen < 0 := by
      have hle := hwf.2.1
      rw [IpPacket.payloadLen]
      omega
    refine ⟨{ slot with
      buffer := slot.buffer.map fun m => m.memcpy ip.offset ip.payload
      currentSize := if ip.last > slot.currentSize then ip.last.toNat else slot.currentSize }, ?_, ?_, ?_⟩
    · rw [ReassemblySlot.place, if_pos hlast, if_neg]
      rintro (hneg | ⟨hnone, -⟩)
      · exact hpos hneg
      · rw [hm] at hnone
        cases hnone
    · rw [if_pos hlast]
      refine ⟨?_, ?_, ?_, h.waiting⟩
      · intro f hf
        rcases List.mem_append.mp hf with hf | hf
        · exact hseen f hf
        · rw [List.mem_singleton.mp hf]
          exact ⟨e, List.mem_append_right _ (List.mem_singleton_self e), harr⟩
      · intro f hf
        rcases List.mem_append.mp hf with hf | hf
        · exact h.wellFormed f hf
        · rw [List.mem_singleton.mp hf]
          exact hwf
      · intro m' hm'
        obtain ⟨m₀, hm₀, rfl⟩ := Option.map_eq_some_iff.mp hm'
        rw [List.map_append]
        exact (h.assembled m₀ hm₀).memcpy ip.piece
    · intro _
      refine ⟨?_, ?_⟩
      · show ip.last.toNat ≤ if ip.last > slot.currentSize then ip.last.toNat else slot.currentSize
        split
        · exact Nat.le_refl _
        · omega
      · rw [hm]
        rfl
  · refine ⟨slot, ?_, ?_, fun h => absurd h hlast⟩
    · rw [ReassemblySlot.place, if_neg hlast]
    · rw [if_neg hlast]
      exact ⟨hseen, h.wellFormed, h.assembled, h.waiting⟩

private theorem handleFragment_eq (hfrag : ip.IsFragment) (hslot : s.slotOf ip = some i) :
    s.toReassembly.handleFragment ip now buffer full =
      ((s.claimed ip now buffer).1.receive ip full).map fun r => (s.toReassembly.setSlot i r.1, r.2) := by
  rw [Reassembly.handleFragment, if_neg hfrag, claim_eq, hslot]
  simp [Reassembly.setSlot]

theorem Fits.receive (hfit : Fits s ip now buffer full) (hfrag : ip.IsFragment) (harr : ip ∈ arrived e)
    (h : SlotInv seen (s.claimed ip now buffer).1 (s.claimed ip now buffer).2) :
    ∃ slot up, (s.claimed ip now buffer).1.receive ip full = some (slot, up) ∧
      (slot.used = true → SlotInv (seen ++ [e]) slot (if ip.last ≤ ReassemblySlot.maxSize
        then (s.claimed ip now buffer).2 ++ [ip] else (s.claimed ip now buffer).2)) ∧
      ∀ packet, up = some (.reassembled packet) → Complete (seen ++ [e]) packet := by
  obtain ⟨slot, hplace, hinv, hcopied⟩ := place_inv h harr hfit.wellFormed hfit.hasBuffer
  by_cases hmore : ip.moreFrags = true
  · have hexp : slot.expect ip = slot := if_pos hmore
    refine ⟨slot, none, ?_, fun _ => hinv, fun _ hup => nomatch hup⟩
    rw [ReassemblySlot.receive, hplace]
    simp [hexp, hinv.waiting]
  · have hmore := Bool.eq_false_of_not_eq_true hmore
    have hsize := hfit.size hmore
    have hlast : ip.last ≤ ReassemblySlot.maxSize := by
      rw [ReassemblySlot.maxSize]
      omega
    obtain ⟨hcur, hbuf⟩ := hcopied hlast
    obtain ⟨m, hm⟩ := Option.isSome_iff_exists.mp hbuf
    have hoff : ip.offset ≠ 0 := fun h0 => hfrag ⟨h0, hmore⟩
    have hlen : (ip.offset : Int) ≤ ip.last := by
      have hle := (hfit.wellFormed hlast).2.1
      rw [IpPacket.last, IpPacket.payloadLen]
      omega
    have hexp : slot.expect ip = { slot with totalExpected := ip.last.toNat } := by
      rw [ReassemblySlot.expect, hmore, if_neg Bool.false_ne_true]
      congr 2
      rw [IpPacket.headerSize] at hsize
      omega
    refine ⟨{ slot with totalExpected := ip.last.toNat, used := false },
      some (.reassembled ({ slot with totalExpected := ip.last.toNat }.fullPacket ip m)), ?_, fun hu => (nomatch hu), ?_⟩
    · have hpos : 0 < ip.last.toNat := by omega
      rw [ReassemblySlot.receive, hplace]
      simp [hexp, hm, hfit.hasPacket hmore, hcur, hpos]
    · intro packet hup
      obtain rfl := Upward.reassembled.inj (Option.some.inj hup)
      rw [if_pos hlast] at hinv
      apply complete_of hinv.arrived hinv.wellFormed ?_ (hinv.assembled m hm) ?_ (hfit.header hmore)
      · show ip.last.toNat + IpPacket.headerSize ≤ 65535
        omega
      · intro f hf
        rcases List.mem_append.mp hf with hf | hf
        · exact hfit.same hlast f hf
        · rw [List.mem_singleton.mp hf]
          exact ⟨rfl, rfl, rfl, rfl⟩
      · intro k hk
        have hk : k < ip.last.toNat := hk
        by_cases hbefore : k < ip.offset
        · obtain ⟨f, hf, hcov⟩ := hfit.before hmore k hbefore
          exact ⟨f, List.mem_append_left _ hf, hcov⟩
        · refine ⟨ip, List.mem_append_right _ (List.mem_singleton_self ip), Nat.not_lt.mp hbefore, ?_⟩
          have hpay : ip.piece.bytes.length = ip.payloadLen.toNat := by
            simp [IpPacket.piece, IpPacket.payload, Memory.bytes]
          rw [hpay]
          rw [IpPacket.last] at hk hlen
          show k < ip.offset + ip.payloadLen.toNat
          omega

theorem SlotInv.mono (h : SlotInv seen slot frags)
    (e : NetEvent) : SlotInv (seen ++ [e]) slot frags := by
  refine ⟨?_, h.wellFormed, h.assembled, h.waiting⟩
  intro f hf
  obtain ⟨e', he', hfe⟩ := h.arrived f hf
  exact ⟨e', List.mem_append_left _ he', hfe⟩

def SlotsInv (seen : List NetEvent) (s : ReassemblyRun) : Prop :=
  ∀ i, (s.slots i).used = true → SlotInv seen (s.slots i) (s.frags i)

private theorem lookup_used (h : s.toReassembly.lookup ip = some i) : (s.slots i).used = true := by
  have hfound := List.find?_some h
  simp only [Bool.and_eq_true] at hfound
  exact hfound.1.1

private theorem claimed_inv (h : SlotsInv seen s) :
    SlotInv seen (s.claimed ip now buffer).1 (s.claimed ip now buffer).2 := by
  rw [claimed]
  split
  · next i hi => exact h i (lookup_used hi)
  · refine ⟨fun _ hf => (nomatch hf), fun _ hf => (nomatch hf), ?_, rfl⟩
    intro m _
    exact assembled_nil m

theorem SlotsInv.keep (h : SlotsInv seen s) (e : NetEvent) : SlotsInv (seen ++ [e]) s :=
  fun i hu => (h i hu).mono e

private theorem exec_fragment (harr : arrived (.frame packet len now buffer full) = some ip) :
    s.exec (.frame packet len now buffer full) = (s.toReassembly.handleFragment ip now buffer full).map fun r =>
      ({ r.1 with frags := if ip.IsFragment then s.nextFrags ip else s.frags }, r.2) := by
  rw [exec, harr, Reassembly.exec]
  rw [arrived] at harr
  split at harr
  · cases harr
  · next hip =>
    cases harr
    rw [if_neg hip]

private theorem cleanup_slot {r : Reassembly} (hu : ((r.cleanup now).slots i).used = true) :
    (r.cleanup now).slots i = r.slots i := by
  rw [Reassembly.cleanup] at hu ⊢
  split at hu
  · next hdue =>
    rw [if_pos hdue]
    dsimp only at hu ⊢
    split at hu
    · cases hu
    · next hkeep => exact if_neg hkeep
  · next hearly => rw [if_neg hearly]

theorem SlotsInv.cleanup (h : SlotsInv seen s) (now : UInt32) (e : NetEvent) :
    SlotsInv (seen ++ [e]) { s.toReassembly.cleanup now with frags := s.frags } := by
  intro i hu
  have hslot : (s.toReassembly.cleanup now).slots i = s.slots i := cleanup_slot hu
  have hused : (s.slots i).used = true := hslot ▸ hu
  rw [hslot]
  exact (h i hused).mono _

theorem SlotsInv.update (h : SlotsInv seen s)
    (e : NetEvent) (hslot : slot.used = true → SlotInv (seen ++ [e]) slot frags) :
    SlotsInv (seen ++ [e]) { s with slots := Function.update s.slots i slot, frags := Function.update s.frags i frags } := by
  intro j hj
  have hj : (Function.update s.slots i slot j).used = true := hj
  show SlotInv _ (Function.update s.slots i slot j) (Function.update s.frags i frags j)
  by_cases hji : j = i
  · subst hji
    rw [Function.update_self] at hj ⊢
    rw [Function.update_self]
    exact hslot hj
  · rw [Function.update_of_ne hji] at hj ⊢
    rw [Function.update_of_ne hji]
    exact (h j hj).mono _

private theorem fits_step (h : SlotsInv seen s) (hf : EventFits s e) :
    ∃ t up, s.exec e = some (t, up) ∧ SlotsInv (seen ++ [e]) t ∧
      ∀ packet, up = some (.reassembled packet) → Complete (seen ++ [e]) packet := by
  cases e with
  | poll now =>
    exact ⟨{ s.toReassembly.cleanup now with frags := s.frags }, none, rfl, h.cleanup now _, fun _ hup => nomatch hup⟩
  | frame packet len now buffer full =>
    cases harr : arrived (.frame packet len now buffer full) with
    | none =>
      refine ⟨s, none, ?_, h.keep _, fun _ hup => nomatch hup⟩
      rw [exec, harr, Reassembly.exec]
      rw [arrived] at harr
      split at harr
      · next hno =>
        rw [if_pos hno]
        rfl
      · cases harr
    | some ip =>
      rw [exec_fragment harr]
      by_cases hfrag : ip.IsFragment
      · rw [if_pos hfrag]
        cases hslot : s.slotOf ip with
        | none =>
          refine ⟨s, none, ?_, h.keep _, fun _ hup => nomatch hup⟩
          rw [Reassembly.handleFragment, if_neg hfrag, claim_eq, hslot, nextFrags, hslot]
          rfl
        | some i =>
          have hfit := hf ip harr hfrag (by rw [hslot]; rfl)
          obtain ⟨slot, up, hrec, hinv, hcomplete⟩ := hfit.receive hfrag harr (claimed_inv h)
          have hfrags : s.nextFrags ip = Function.update s.frags i (if ip.last ≤ ReassemblySlot.maxSize
              then (s.claimed ip now buffer).2 ++ [ip] else (s.claimed ip now buffer).2) := by
            rw [nextFrags, hslot, claimed_frags s ip 0 now none buffer]
          rw [handleFragment_eq hfrag hslot, hrec, hfrags]
          exact ⟨_, up, rfl, h.update _ hinv, hcomplete⟩
      · rw [if_neg hfrag]
        have hwhole : ip.offset = 0 ∧ ip.moreFrags = false := Decidable.not_not.mp hfrag
        refine ⟨s, some (.whole ip), ?_, h.keep _, fun _ hup => nomatch hup⟩
        rw [Reassembly.handleFragment, if_pos hwhole]
        rfl

def FitStep (s : ReassemblyRun) (e : NetEvent) (t : ReassemblyRun) : Prop :=
  EventFits s e ∧ ∃ up, s.exec e = some (t, up)

theorem run_inv (hrun : Trace FitStep init es s) : SlotsInv es s := by
  induction hrun with
  | nil => exact fun i hu => nomatch hu
  | snoc _ hstep ih =>
    obtain ⟨hfit, up, he⟩ := hstep
    obtain ⟨t, up', he', hinv, -⟩ := fits_step ih hfit
    rw [he] at he'
    obtain ⟨rfl, -⟩ := Prod.mk.inj (Option.some.inj he')
    exact hinv

/-- In every run of fitting events: each copy stays in its buffer, and each reassembled packet is complete. -/
theorem complete_runs (hrun : Trace FitStep init es s) (hf : EventFits s e) :
    ∃ t up, s.exec e = some (t, up) ∧ ∀ packet, up = some (.reassembled packet) → Complete (es ++ [e]) packet := by
  obtain ⟨t, up, he, -, hcomplete⟩ := fits_step (run_inv hrun) hf
  exact ⟨t, up, he, hcomplete⟩

def fragmentFrame (flagsHi flagsLo : UInt8) (payload : List UInt8) : NetEvent :=
  let bytes := List.replicate 12 0 ++ [8, 0, 0x45, 0, 0, 28, 0, 7, flagsHi, flagsLo, 64, 17, 0, 0, 1, 0, 0, 0, 2, 0, 0, 0] ++ payload
  .frame (fun a => bytes.getD a 0) 42 0 (some fun _ => 0) true

theorem two_fragments : ∃ s t up, Trace FitStep init [fragmentFrame 0x20 0 [1, 2, 3, 4, 5, 6, 7, 8]] s ∧
    s.exec (fragmentFrame 0 1 [9, 10, 11, 12, 13, 14, 15, 16]) = some (t, up) ∧
    ∀ packet, up = some (.reassembled packet) → Complete ([fragmentFrame 0x20 0 [1, 2, 3, 4, 5, 6, 7, 8]] ++
      [fragmentFrame 0 1 [9, 10, 11, 12, 13, 14, 15, 16]]) packet := by
  have hev : ∃ s ∈ [fragmentFrame 0x20 0 [1, 2, 3, 4, 5, 6, 7, 8]].foldlM
      (fun s e => if EventFits s e then (s.exec e).map Prod.fst else none) init,
      EventFits s (fragmentFrame 0 1 [9, 10, 11, 12, 13, 14, 15, 16]) := by decide +kernel
  obtain ⟨s, hs, hfits⟩ := hev
  have hrun : Trace FitStep init [fragmentFrame 0x20 0 [1, 2, 3, 4, 5, 6, 7, 8]] s := by
    apply (trace_of_checked hs).mono
    rintro s e t ⟨hfit, he⟩
    obtain ⟨⟨t', up⟩, he, ht⟩ := Option.map_eq_some_iff.mp he
    exact ⟨hfit, up, ht ▸ he⟩
  obtain ⟨t, up, he, hcomplete⟩ := complete_runs hrun hfits
  exact ⟨s, t, up, hrun, he, hcomplete⟩

/-- The last fragment alone passes for the whole datagram. -/
theorem last_alone_delivered : ∃ t packet, init.exec (fragmentFrame 0 1 [9, 10, 11, 12, 13, 14, 15, 16]) =
    some (t, some (.reassembled packet)) ∧ ¬ Complete [fragmentFrame 0 1 [9, 10, 11, 12, 13, 14, 15, 16]] packet := by
  have hev : ∃ r ∈ init.exec (fragmentFrame 0 1 [9, 10, 11, 12, 13, 14, 15, 16]),
      r.2.elim 0 (fun up => up.rec (fun _ => 0) List.length) = 36 := by decide +kernel
  have hoff : ∀ f ∈ arrived (fragmentFrame 0 1 [9, 10, 11, 12, 13, 14, 15, 16]), f.offset = 8 := by decide +kernel
  obtain ⟨⟨t, up⟩, he, hlen⟩ := hev
  rcases up with _ | (_ | packet)
  · cases hlen
  · cases hlen
  · have hlen : packet.length = 36 := hlen
    refine ⟨t, packet, he, fun hcomplete => ?_⟩
    obtain ⟨e, hmem, f, hf, -, -, hhas⟩ := hcomplete.bytes 0 (by rw [hlen]; decide)
    rw [List.mem_singleton.mp hmem] at hf
    have hstart : f.offset ≤ 0 := hhas.1
    rw [hoff f hf] at hstart
    exact absurd hstart (by decide)

end ReassemblyRun
end RetroOs.Net
