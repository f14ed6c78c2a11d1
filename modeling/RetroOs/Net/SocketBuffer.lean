import RetroOs.Net.SocketsRuns

/-! The buffer of a datagram socket: the datagrams that wait in it, and over any run what comes in and what goes out. -/
namespace RetroOs.Net
open Lib List Option Memory Nat

/-- The datagram that lies in a buffer at `p`, behind its source and its length. -/
def datagramAt (m : Memory) (p : Nat) : Datagram where
  srcIp := UInt32.ofNat (m.load32 p)
  srcPort := UInt16.ofNat (m.load16 (p + 4))
  data := m.bytes (p + 8) (m.load16 (p + 6))

/-- From `p` to `q` datagrams lie in the buffer, one behind the other. -/
inductive Frames (m : Memory) : Nat → List Datagram → Nat → Prop
  | nil (p : Nat) : Frames m p [] p
  | cons {p q : Nat} {ds : List Datagram} (hrest : Frames m (p + (8 + m.load16 (p + 6))) ds q) :
    Frames m p (datagramAt m p :: ds) q

variable {m m' : Memory} {p q n : Nat} {ds ds' : List Datagram} {d : Datagram}

private theorem datagramAt_length (m : Memory) (p : Nat) : (datagramAt m p).data.length = m.load16 (p + 6) := length_bytes ..

theorem Frames.le (h : Frames m p ds q) : p + 8 * ds.length ≤ q := by
  induction h with
  | nil => exact le_refl _
  | cons _ ih =>
    rw [length_cons]
    omega

theorem Frames.unique (h : Frames m p ds q) (h' : Frames m p ds' q) : ds = ds' := by
  induction h generalizing ds' with
  | nil p =>
    cases h' with
    | nil => rfl
    | cons hrest =>
      have hle := hrest.le
      omega
  | cons hrest ih =>
    cases h' with
    | nil =>
      have hle := hrest.le
      omega
    | cons hrest' => rw [ih hrest']

theorem Frames.agree (h : Frames m p ds q) (hm : ∀ x < q, m' x = m x) : Frames m' p ds q := by
  induction h with
  | nil p => exact .nil p
  | @cons p q ds hrest ih =>
    have hle := hrest.le
    have hsame : ∀ a n, a + n ≤ p + (8 + m.load16 (p + 6)) → Memory.AgreeOn m m' a n := fun a n hend x _ hx => hm x (by omega)
    have hlen : m'.load16 (p + 6) = m.load16 (p + 6) := (hsame _ 2 (by omega)).load16
    have hfirst : datagramAt m' p = datagramAt m p := by
      rw [datagramAt, datagramAt, hlen, (hsame p 4 (by omega)).load32, (hsame (p + 4) 2 (by omega)).load16,
        (hsame (p + 8) _ (by omega)).bytes]
    rw [← hfirst]
    refine .cons ?_
    rw [hlen]
    exact ih hm

theorem Frames.snoc (h : Frames m p ds q) (hd : datagramAt m q = d) : Frames m p (ds ++ [d]) (q + (8 + d.data.length)) := by
  induction h with
  | nil p =>
    subst hd
    refine .cons ?_
    rw [datagramAt_length]
    exact .nil _
  | cons _ ih => exact .cons (ih hd)

theorem Frames.head (h : Frames m p ds q) (hlt : p < q) :
    ∃ rest, ds = datagramAt m p :: rest ∧ Frames m (p + (8 + m.load16 (p + 6))) rest q := by
  cases h with
  | nil => exact absurd hlt (lt_irrefl _)
  | cons hrest => exact ⟨_, rfl, hrest⟩

namespace SocketEntry
variable {e e' : SocketEntry} {len : Nat}

def Waits (e : SocketEntry) (ds : List Datagram) : Prop :=
  match e.rxBuffer with
  | some m => Frames m e.rxHead ds e.rxTail
  | none => ds = [] ∧ e.rxTail ≤ e.rxHead

/-- There is room for the datagram behind the others, up to the end of the buffer. -/
def Fits (e : SocketEntry) (d : Datagram) : Prop := e.rxBuffer.isSome = true ∧ e.rxTail + (8 + d.data.length) ≤ bufferSize

instance (e : SocketEntry) (d : Datagram) : Decidable (e.Fits d) := inferInstanceAs (Decidable (_ ∧ _))

/-- The datagram takes the room to the last byte. -/
def Fills (e : SocketEntry) (d : Datagram) : Prop := e.rxBuffer.isSome = true ∧ e.rxTail + (8 + d.data.length) = bufferSize

structure Sound (e : SocketEntry) : Prop where
  used : e.used = true
  type : e.type = sockDgram
  capacity : e.rxCapacity = bufferSize
  tail : e.rxTail ≤ bufferSize

theorem Waits.unique (h : e.Waits ds) (h' : e.Waits ds') : ds = ds' := by
  rw [Waits] at h h'
  cases hbuffer : e.rxBuffer with
  | none =>
    rw [hbuffer] at h h'
    exact h.1.trans h'.1.symm
  | some m =>
    rw [hbuffer] at h h'
    exact Frames.unique h h'

private theorem datagramAt_store (m : Memory) (q : Nat) (d : Datagram) (hlen : d.data.length < 2 ^ 16) :
    datagramAt ((((m.store32 q d.srcIp.toNat).store16 (q + 4) d.srcPort.toNat).store16 (q + 6) d.data.length).memcpy (q + 8)
      d.data) q = d := by
  have hlength : ((((m.store32 q d.srcIp.toNat).store16 (q + 4) d.srcPort.toNat).store16 (q + 6) d.data.length).memcpy (q + 8)
      d.data).load16 (q + 6) = d.data.length := by
    rw [(memcpy_agreeOn _ _ (.inl (le_refl _))).load16, load16_store16 _ _ hlen]
  have hip : ((((m.store32 q d.srcIp.toNat).store16 (q + 4) d.srcPort.toNat).store16 (q + 6) d.data.length).memcpy (q + 8)
      d.data).load32 q = d.srcIp.toNat := by
    rw [(memcpy_agreeOn _ _ (.inl (by omega))).load32, (store16_agreeOn _ _ (.inl (by omega))).load32,
      (store16_agreeOn _ _ (.inl (by omega))).load32, load32_store32 _ _ d.srcIp.toNat_lt]
  have hport : ((((m.store32 q d.srcIp.toNat).store16 (q + 4) d.srcPort.toNat).store16 (q + 6) d.data.length).memcpy (q + 8)
      d.data).load16 (q + 4) = d.srcPort.toNat := by
    rw [(memcpy_agreeOn _ _ (.inl (by omega))).load16, (store16_agreeOn _ _ (.inl (by omega))).load16,
      load16_store16 _ _ d.srcPort.toNat_lt]
  rw [datagramAt, hlength, hip, hport, bytes_memcpy _ (le_refl _), take_length, UInt32.ofNat_toNat,
    UInt16.ofNat_toNat]

private theorem store_skipped (h : ¬ (e.rxBuffer.isSome = true ∧ e.rxTail + (8 + d.data.length) < e.rxCapacity)) : e.store d = e := by
  rw [store]
  cases hbuffer : e.rxBuffer with
  | none => rfl
  | some m =>
    rw [hbuffer, isSome_some] at h
    exact if_neg fun hroom => h ⟨rfl, by omega⟩

theorem Waits.store (h : e.Waits ds) (hsound : e.Sound) (hroom : e.rxTail + (8 + d.data.length) < bufferSize)
    (hbuffer : e.rxBuffer.isSome = true) : (e.store d).Waits (ds ++ [d]) ∧ (e.store d).Sound := by
  obtain ⟨m, hm⟩ := isSome_iff_exists.mp hbuffer
  rw [Waits, hm] at h
  have hbound : bufferSize < 2 ^ 16 := by decide
  have hstored : e.store d = { e with
      rxBuffer := some ((((m.store32 e.rxTail d.srcIp.toNat).store16 (e.rxTail + 4) d.srcPort.toNat).store16 (e.rxTail + 6)
        d.data.length).memcpy (e.rxTail + 8) d.data)
      rxTail := e.rxTail + (8 + d.data.length) } := by
    rw [SocketEntry.store, hm]
    exact if_pos (by rw [hsound.capacity]; omega)
  rw [hstored]
  refine ⟨(h.agree fun x hx => ?_).snoc (datagramAt_store m _ d (by omega)), hsound.used, hsound.type, hsound.capacity, hroom.le⟩
  have hkeep : Memory.AgreeOn m ((((m.store32 e.rxTail d.srcIp.toNat).store16 (e.rxTail + 4) d.srcPort.toNat).store16
      (e.rxTail + 6) d.data.length).memcpy (e.rxTail + 8) d.data) x 1 :=
    (((store32_agreeOn _ _ (.inl hx)).trans (store16_agreeOn _ _ (.inl (by omega)))).trans
      (store16_agreeOn _ _ (.inl (by omega)))).trans (memcpy_agreeOn _ _ (.inl (by omega)))
  exact hkeep x (le_refl _) (lt_succ_self x)

theorem Waits.take (h : e.Waits ds) (hsound : e.Sound) (hsome : e.rxHead < e.rxTail) (len : Nat) :
    ∃ d rest, ds = d :: rest ∧ (e.take len).2 = some { d with data := d.data.take len } ∧ (e.take len).1.Waits rest ∧
      (e.take len).1.Sound ∧ e.rxHead + (8 + d.data.length) ≤ e.rxTail := by
  rw [Waits] at h
  cases hbuffer : e.rxBuffer with
  | none =>
    rw [hbuffer] at h
    exact absurd hsome (not_lt.mpr h.2)
  | some m =>
    rw [hbuffer] at h
    obtain ⟨rest, rfl, hrest⟩ := h.head hsome
    have hle := hrest.le
    have hhead : e.rxHead + (8 + (e.packet m).data.length) = e.rxHead + (8 + m.load16 (e.rxHead + 6)) := by
      rw [packet, length_bytes]
    refine ⟨datagramAt m e.rxHead, rest, rfl, ?_, ?_, ?_, ?_⟩
    · rw [SocketEntry.take, hbuffer]
      rfl
    · rw [SocketEntry.take, hbuffer, Waits]
      dsimp only
      rw [hhead]
      by_cases hend : e.rxHead + (8 + m.load16 (e.rxHead + 6)) ≥ e.rxTail
      · rw [if_pos hend, if_pos hend]
        obtain rfl : rest = [] := eq_nil_of_length_eq_zero (by omega)
        exact .nil 0
      · rw [if_neg hend, if_neg hend]
        exact hrest
    · rw [SocketEntry.take, hbuffer]
      refine ⟨hsound.used, hsound.type, hsound.capacity, ?_⟩
      dsimp only
      split
      · exact zero_le _
      · exact hsound.tail
    · rw [datagramAt_length]
      omega

structure SameQueue (e e' : SocketEntry) : Prop where
  used : e'.used = e.used
  type : e'.type = e.type
  rxBuffer : e'.rxBuffer = e.rxBuffer
  rxHead : e'.rxHead = e.rxHead
  rxTail : e'.rxTail = e.rxTail
  rxCapacity : e'.rxCapacity = e.rxCapacity

theorem SameQueue.refl (e : SocketEntry) : SameQueue e e := ⟨rfl, rfl, rfl, rfl, rfl, rfl⟩

theorem SameQueue.sound (h : SameQueue e e') (hsound : e.Sound) : e'.Sound :=
  ⟨h.used.trans hsound.used, h.type.trans hsound.type, h.rxCapacity.trans hsound.capacity, h.rxTail.trans_le hsound.tail⟩

theorem SameQueue.waits (h : SameQueue e e') (hwaits : e.Waits ds) : e'.Waits ds := by
  rw [Waits, h.rxBuffer, h.rxHead, h.rxTail]
  exact hwaits

end SocketEntry

namespace SocketTable
open SocketEntry
variable {s : SocketTable} {c : SocketCall} {i len : Nat} {fd : Int}

def deliveredTo (s : SocketTable) (i : Nat) : SocketCall → Option Datagram
  | .datagram srcIp packet length =>
    match s.udp.receive srcIp packet length with
    | some (.socketRx, d) =>
      if ((range maxSockets).find? fun j => decide (s.sockets j).Receives) = some i then some d else none
    | _ => none
  | _ => none

/-- What a call returns from the socket in a slot, with the length that was asked for. -/
def returnedFrom (s : SocketTable) (i : Nat) : SocketCall → Option (Datagram × Nat)
  | .recv fd len => if s.socketGet fd = some i then (s.netRecv fd len).2.map fun d => (d, len) else none
  | .recvfrom fd len => if s.socketGet fd = some i then (s.netRecvfrom fd len).2.map fun d => (d, len) else none
  | _ => none

def takeFrom (s : SocketTable) (i len : Nat) : SocketTable × Option Datagram :=
  if (s.sockets i).rxHead ≥ (s.sockets i).rxTail then (s, none)
  else (s.setSocket i ((s.sockets i).take len).1, ((s.sockets i).take len).2)

inductive SlotStep (s : SocketTable) (i : Nat) (c : SocketCall) : Prop
  | delivers (d : Datagram) (hdelivered : s.deliveredTo i c = some d) (hreturned : s.returnedFrom i c = none)
    (hslot : (s.exec c).sockets i = (s.sockets i).store d)
  | returns (len : Nat) (hdelivered : s.deliveredTo i c = none) (hsome : (s.sockets i).rxHead < (s.sockets i).rxTail)
    (hreturned : s.returnedFrom i c = ((s.sockets i).take len).2.map fun d => (d, len))
    (hslot : (s.exec c).sockets i = ((s.sockets i).take len).1)
  | keeps (hdelivered : s.deliveredTo i c = none) (hreturned : s.returnedFrom i c = none)
    (hslot : SameQueue (s.sockets i) ((s.exec c).sockets i))

theorem setSocket_self (s : SocketTable) (i : Nat) (e : SocketEntry) : (s.setSocket i e).sockets i = e := Function.update_self ..

private theorem socketGet_eq (h : s.socketGet fd = some i) : fd = i := by
  rw [socketGet] at h
  split at h
  · cases h
  · next hfd =>
    split at h
    · cases h
      omega
    · cases h

theorem SlotStep.same (hdelivered : s.deliveredTo i c = none) (hreturned : s.returnedFrom i c = none)
    (h : (s.exec c).sockets i = s.sockets i) : s.SlotStep i c :=
  .keeps hdelivered hreturned (h ▸ .refl _)

theorem SlotStep.receive {r : SocketTable × Option Datagram} (hdelivered : s.deliveredTo i c = none) (hexec : s.exec c = r.1)
    (hreturned : s.returnedFrom i c = if s.socketGet fd = some i then r.2.map fun d => (d, len) else none)
    (hmine : s.socketGet fd = some i → r = s.takeFrom i len) (hother : s.socketGet fd ≠ some i → r.1.sockets i = s.sockets i) :
    s.SlotStep i c := by
  by_cases hfd : s.socketGet fd = some i
  · rw [if_pos hfd] at hreturned
    rw [hmine hfd, takeFrom] at hreturned hexec
    by_cases hempty : (s.sockets i).rxHead ≥ (s.sockets i).rxTail
    · rw [if_pos hempty] at hreturned hexec
      exact .same hdelivered hreturned (by rw [hexec])
    · rw [if_neg hempty] at hreturned hexec
      exact .returns len hdelivered (not_le.mp hempty) hreturned (by rw [hexec, setSocket_self])
  · rw [if_neg hfd] at hreturned
    exact .same hdelivered hreturned (by rw [hexec, hother hfd])

private theorem netRecv_slot (h : (s.sockets i).Sound) (hfd : s.socketGet fd = some i) : s.netRecv fd len = s.takeFrom i len := by
  rw [netRecv, hfd, takeFrom]
  dsimp only
  have htype : ¬ (s.sockets i).type = sockStream := by
    rw [h.type]
    decide
  by_cases hempty : (s.sockets i).rxHead ≥ (s.sockets i).rxTail
  · rw [if_pos hempty, if_pos (.inr hempty)]
  · rw [if_neg hempty, if_neg (not_or.mpr ⟨htype, hempty⟩)]

private theorem netRecvfrom_slot (h : (s.sockets i).Sound) (hfd : s.socketGet fd = some i) :
    s.netRecvfrom fd len = s.takeFrom i len := by
  rw [netRecvfrom, hfd, takeFrom]
  dsimp only
  by_cases hempty : (s.sockets i).rxHead ≥ (s.sockets i).rxTail
  · rw [if_pos hempty, if_pos (.inr hempty)]
  · rw [if_neg hempty, if_neg (not_or.mpr ⟨not_not.mpr h.type, hempty⟩)]

private theorem netRecv_other (hfd : s.socketGet fd ≠ some i) : (s.netRecv fd len).1.sockets i = s.sockets i := by
  rw [netRecv]
  split
  · rfl
  · next j hj =>
    split
    · rfl
    · exact setSocket_other fun hij => hfd (hij ▸ hj)

private theorem netRecvfrom_other (hfd : s.socketGet fd ≠ some i) : (s.netRecvfrom fd len).1.sockets i = s.sockets i := by
  rw [netRecvfrom]
  split
  · rfl
  · next j hj =>
    split
    · rfl
    · exact setSocket_other fun hij => hfd (hij ▸ hj)

private theorem datagram_slot (s : SocketTable) (i : Nat) (srcIp : UInt32) (packet : Memory) (length : Nat) :
    s.SlotStep i (.datagram srcIp packet length) := by
  have hreturned : s.returnedFrom i (.datagram srcIp packet length) = none := rfl
  cases hreceive : s.udp.receive srcIp packet length with
  | none =>
    exact .same (by rw [deliveredTo, hreceive]) hreturned (by rw [exec, hreceive])
  | some a =>
    obtain ⟨handler, d⟩ := a
    cases handler with
    | dhcpRx => exact .same (by rw [deliveredTo, hreceive]) hreturned (by rw [exec, hreceive])
    | dnsRx => exact .same (by rw [deliveredTo, hreceive]) hreturned (by rw [exec, hreceive])
    | socketRx =>
      have hexec : s.exec (.datagram srcIp packet length) = s.udpSocketRx d := by rw [exec, hreceive]
      have hdelivered : s.deliveredTo i (.datagram srcIp packet length) =
          if ((range maxSockets).find? fun j => decide (s.sockets j).Receives) = some i then some d else none := by
        rw [deliveredTo, hreceive]
      rw [udpSocketRx] at hexec
      cases hfound : (range maxSockets).find? fun j => decide (s.sockets j).Receives with
      | none =>
        rw [hfound] at hexec hdelivered
        exact .same hdelivered hreturned (by rw [hexec])
      | some j =>
        rw [hfound] at hexec hdelivered
        by_cases hij : j = i
        · subst hij
          rw [if_pos rfl] at hdelivered
          exact .delivers d hdelivered hreturned (by rw [hexec, setSocket_self])
        · rw [if_neg fun h => hij (some.inj h)] at hdelivered
          exact .same hdelivered hreturned (by rw [hexec, setSocket_other fun h => hij h.symm])

theorem setSocket_keeps {j : Nat} {e : SocketEntry} (h : SameQueue (s.sockets j) e) :
    SameQueue (s.sockets i) ((s.setSocket j e).sockets i) := by
  by_cases hij : i = j
  · subst hij
    rw [setSocket_self]
    exact h
  · rw [setSocket_other hij]
    exact .refl _

private theorem slotStep (h : (s.sockets i).Sound) (hc : c ≠ .close i) : s.SlotStep i c := by
  cases c with
  | socket type buffer =>
    refine .same rfl rfl ?_
    rw [exec, netSocket]
    split
    · rfl
    · split
      · rfl
      · next j hj =>
        refine setSocket_other fun hij => ?_
        have hfree := find?_some hj
        rw [← hij, h.used] at hfree
        cases hfree
  | bind fd addr port =>
    refine .keeps rfl rfl ?_
    rw [exec, netBind]
    split
    · exact .refl _
    · dsimp only
      split
      · exact setSocket_keeps ⟨rfl, rfl, rfl, rfl, rfl, rfl⟩
      · exact setSocket_keeps ⟨rfl, rfl, rfl, rfl, rfl, rfl⟩
  | listen fd =>
    refine .keeps rfl rfl ?_
    rw [exec, netListen]
    split
    · exact .refl _
    · split
      · exact .refl _
      · exact setSocket_keeps ⟨rfl, rfl, rfl, rfl, rfl, rfl⟩
  | connect fd addr port tcb =>
    refine .keeps rfl rfl ?_
    rw [exec, netConnect]
    split
    · exact .refl _
    · dsimp only [allocEphemeralPort]
      split_ifs
      all_goals
        cases tcb
        all_goals exact setSocket_keeps ⟨rfl, rfl, rfl, rfl, rfl, rfl⟩
  | connected j => exact .keeps rfl rfl (setSocket_keeps ⟨rfl, rfl, rfl, rfl, rfl, rfl⟩)
  | sendto fd len =>
    refine .keeps rfl rfl ?_
    rw [exec, netSendto]
    split
    · exact .refl _
    · split
      · exact .refl _
      · split
        · exact setSocket_keeps ⟨rfl, rfl, rfl, rfl, rfl, rfl⟩
        · exact .refl _
  | recv fd len =>
    exact .receive rfl rfl rfl (netRecv_slot h) netRecv_other
  | recvfrom fd len =>
    exact .receive rfl rfl rfl (netRecvfrom_slot h) netRecvfrom_other
  | close fd =>
    refine .same rfl rfl ?_
    rw [exec, netClose]
    split
    · rfl
    · next j hj =>
      refine setSocket_other fun hij => hc ?_
      have hfd : fd = i := socketGet_eq (by rw [hij]; exact hj)
      rw [hfd]
  | dhcpInit => exact .same rfl rfl rfl
  | dnsInit => exact .same rfl rfl rfl
  | udpInit => exact .same rfl rfl rfl
  | datagram srcIp packet length => exact s.datagram_slot i srcIp packet length

end SocketTable

open SocketEntry SocketTable

/-- The socket table, with what came for the socket in one slot, and whether there was room for it, and what was returned
from it. -/
structure SocketLog extends SocketTable where
  delivered : List (Datagram × Bool)
  returned : List (Datagram × Nat)

namespace SocketLog
variable {s : SocketLog} {c : SocketCall} {i : Nat}

def exec (i : Nat) (s : SocketLog) (c : SocketCall) : SocketLog where
  toSocketTable := s.toSocketTable.exec c
  delivered := s.delivered ++ ((s.deliveredTo i c).map fun d => (d, decide ((s.sockets i).Fits d))).toList
  returned := s.returned ++ (s.returnedFrom i c).toList

/-- The datagrams that there was room for, in the order in which they came. -/
def fitted (s : SocketLog) : List Datagram := (s.delivered.filter Prod.snd).map Prod.fst

/-- A datagram as it is returned, cut to the length that was asked for. -/
def IsCut (r : Datagram × Nat) (d : Datagram) : Prop := r.1 = { d with data := d.data.take r.2 }

/-- What was returned and what waits in the buffer are the datagrams that there was room for, each cut to its length. -/
def Accounts (i : Nat) (s : SocketLog) : Prop :=
  ∃ taken waiting, List.Forall₂ IsCut s.returned taken ∧ (s.sockets i).Waits waiting ∧ taken ++ waiting = s.fitted

/-- Where a call writes a datagram to the buffer or reads one from it, it stays in the buffer. -/
def Bounded (i : Nat) (s : SocketLog) (c : SocketCall) : Prop :=
  (∀ d ∈ s.deliveredTo i c, (s.sockets i).store d ≠ s.sockets i → (s.sockets i).rxTail + (8 + d.data.length) ≤ bufferSize) ∧
    ∀ r ∈ s.returnedFrom i c, (s.sockets i).rxHead + (8 + r.1.data.length) ≤ bufferSize

def Inv (i : Nat) (s : SocketLog) : Prop := (s.sockets i).Sound ∧ s.Accounts i

/-- No datagram that comes takes the buffer to its last byte. -/
def Spares (i : Nat) (s : SocketLog) (c : SocketCall) : Prop := ∀ d ∈ s.deliveredTo i c, ¬ (s.sockets i).Fills d

private theorem fitted_none (h : s.deliveredTo i c = none) : (s.exec i c).fitted = s.fitted := by
  rw [fitted, exec, h, map_none, toList_none, append_nil, fitted]

private theorem fitted_fits {d : Datagram} (h : s.deliveredTo i c = some d) (hfits : (s.sockets i).Fits d) :
    (s.exec i c).fitted = s.fitted ++ [d] := by
  rw [fitted, exec, h, map_some, toList_some, decide_eq_true hfits, filter_append, map_append, fitted]
  rfl

private theorem fitted_full {d : Datagram} (h : s.deliveredTo i c = some d) (hfull : ¬ (s.sockets i).Fits d) :
    (s.exec i c).fitted = s.fitted := by
  rw [fitted, exec, h, map_some, toList_some, decide_eq_false hfull, filter_append, map_append, fitted]
  exact append_nil _

theorem Inv.deliver {d : Datagram} (h : s.Inv i) (hdelivered : s.deliveredTo i c = some d) (hreturned : s.returnedFrom i c = none)
    (hslot : (s.toSocketTable.exec c).sockets i = (s.sockets i).store d) (hspares : ¬ (s.sockets i).Fills d) :
    (s.exec i c).Inv i ∧ s.Bounded i c := by
  obtain ⟨hsound, taken, waiting, hcut, hwaits, hall⟩ := h
  have hreturned' : (s.exec i c).returned = s.returned := by rw [exec, hreturned, toList_none, append_nil]
  have hslot' : (s.exec i c).sockets i = (s.sockets i).store d := hslot
  have hnothing : ∀ r ∈ s.returnedFrom i c, (s.sockets i).rxHead + (8 + r.1.data.length) ≤ bufferSize := fun r hr => by
    rw [hreturned] at hr
    cases hr
  by_cases hfits : (s.sockets i).Fits d
  · have hroom : (s.sockets i).rxTail + (8 + d.data.length) < bufferSize :=
      lt_of_le_of_ne hfits.2 fun heq => hspares ⟨hfits.1, heq⟩
    obtain ⟨hstored, hsound'⟩ := hwaits.store hsound hroom hfits.1
    refine ⟨⟨hslot' ▸ hsound', taken, waiting ++ [d], hreturned' ▸ hcut, hslot' ▸ hstored, ?_⟩, fun d' hd' _ => ?_, hnothing⟩
    · rw [fitted_fits hdelivered hfits, ← hall, append_assoc]
    · cases hdelivered.symm.trans hd'
      exact hfits.2
  · have hskip : (s.sockets i).store d = s.sockets i :=
      store_skipped fun hroom => hfits ⟨hroom.1, hsound.capacity ▸ hroom.2.le⟩
    rw [hskip] at hslot'
    refine ⟨⟨hslot' ▸ hsound, taken, waiting, hreturned' ▸ hcut, hslot' ▸ hwaits, ?_⟩, fun d' hd' hne => ?_, hnothing⟩
    · rw [fitted_full hdelivered hfits, hall]
    · cases hdelivered.symm.trans hd'
      exact absurd hskip hne

theorem Inv.return {len : Nat} (h : s.Inv i) (hdelivered : s.deliveredTo i c = none)
    (hsome : (s.sockets i).rxHead < (s.sockets i).rxTail)
    (hreturned : s.returnedFrom i c = ((s.sockets i).take len).2.map fun d => (d, len))
    (hslot : (s.toSocketTable.exec c).sockets i = ((s.sockets i).take len).1) : (s.exec i c).Inv i ∧ s.Bounded i c := by
  obtain ⟨hsound, taken, waiting, hcut, hwaits, hall⟩ := h
  obtain ⟨d, rest, rfl, hresult, hrest, hsound', hin⟩ := hwaits.take hsound hsome len
  rw [hresult, map_some] at hreturned
  have hslot' : (s.exec i c).sockets i = ((s.sockets i).take len).1 := hslot
  have hreturned' : (s.exec i c).returned = s.returned ++ [({ d with data := d.data.take len }, len)] := by
    rw [exec, hreturned, toList_some]
  refine ⟨⟨hslot' ▸ hsound', taken ++ [d], rest, ?_, hslot' ▸ hrest, ?_⟩, fun d' hd' => ?_, fun r hr => ?_⟩
  · rw [hreturned']
    exact rel_append hcut (.cons rfl .nil)
  · rw [fitted_none hdelivered, ← hall, append_assoc]
    rfl
  · rw [hdelivered] at hd'
    cases hd'
  · cases hreturned.symm.trans hr
    have htail := hsound.tail
    have hcutLength := length_take_le' len d.data
    dsimp only
    omega

theorem Inv.step (h : s.Inv i) (hc : c ≠ .close i) (hspares : s.Spares i c) : (s.exec i c).Inv i ∧ s.Bounded i c := by
  cases slotStep h.1 hc with
  | delivers d hdelivered hreturned hslot => exact h.deliver hdelivered hreturned hslot (hspares d hdelivered)
  | returns len hdelivered hsome hreturned hslot => exact h.return hdelivered hsome hreturned hslot
  | keeps hdelivered hreturned hslot =>
    obtain ⟨hsound, taken, waiting, hcut, hwaits, hall⟩ := h
    have hreturned' : (s.exec i c).returned = s.returned := by rw [exec, hreturned, toList_none, append_nil]
    refine ⟨⟨hslot.sound hsound, taken, waiting, hreturned' ▸ hcut, hslot.waits hwaits, ?_⟩, fun d hd => ?_, fun r hr => ?_⟩
    · rw [fitted_none hdelivered, hall]
    · rw [hdelivered] at hd
      cases hd
    · rw [hreturned] at hr
      cases hr

theorem Inv.spares (h : s.Inv i) (hc : c ≠ .close i) (hafter : (s.exec i c).Accounts i) : s.Spares i c := by
  intro d hd hfills
  cases slotStep h.1 hc with
  | returns len hdelivered => exact absurd (hdelivered.symm.trans hd) (some_ne_none d).symm
  | keeps hdelivered => exact absurd (hdelivered.symm.trans hd) (some_ne_none d).symm
  | delivers d' hdelivered hreturned hslot =>
    obtain rfl := Option.some.inj (hdelivered.symm.trans hd)
    obtain ⟨hsound, taken, waiting, hcut, hwaits, hall⟩ := h
    obtain ⟨taken', waiting', hcut', hwaits', hall'⟩ := hafter
    have hskip : (s.sockets i).store d' = s.sockets i := store_skipped fun hroom => by
      rw [hsound.capacity, ← hfills.2] at hroom
      exact lt_irrefl _ hroom.2
    have hslot' : (s.exec i c).sockets i = s.sockets i := hslot.trans hskip
    rw [hslot'] at hwaits'
    obtain rfl := hwaits.unique hwaits'
    have hreturned' : (s.exec i c).returned = s.returned := by rw [exec, hreturned, toList_none, append_nil]
    rw [hreturned'] at hcut'
    rw [fitted_fits hdelivered ⟨hfills.1, hfills.2.le⟩, ← hall] at hall'
    have hlength := congrArg length hall'
    rw [length_append, length_append, length_append, ← hcut.length_eq, ← hcut'.length_eq, length_singleton] at hlength
    omega

def opened (s : SocketTable) : SocketLog := ⟨s, [], []⟩

private theorem inv_opened {t s : SocketTable} {buffer : Option Memory} (h : t.netSocket sockDgram buffer = (s, (i : Int))) :
    (opened s).Inv i := by
  have hslot : s.sockets i = { SocketEntry.zero with
      used := true
      state := .created
      type := sockDgram
      rxCapacity := bufferSize
      rxBuffer := buffer } := by
    rw [netSocket, if_neg (by decide)] at h
    split at h
    · exact absurd (Prod.mk.inj h).2 (by omega)
    · obtain ⟨rfl, hi⟩ := Prod.mk.inj h
      obtain rfl := Int.ofNat_inj.mp hi
      exact setSocket_self ..
  have hslot' : (opened s).sockets i = s.sockets i := rfl
  refine ⟨?_, [], [], .nil, ?_, rfl⟩
  · rw [hslot', hslot]
    exact ⟨rfl, rfl, rfl, Nat.zero_le _⟩
  · rw [hslot', hslot, Waits]
    cases buffer with
    | none => exact ⟨rfl, Nat.le_refl _⟩
    | some m => exact .nil 0

/-- In every run of the sockets up to the close of one: exactly while no datagram takes its buffer to the last byte, what comes
and has room is returned from it in order, each datagram as it was sent, and every access stays in the buffer. -/
theorem accounts_iff {t s : SocketTable} {buffer : Option Memory} {cs : List SocketCall}
    (hopen : t.netSocket sockDgram buffer = (s, (i : Int))) (hcs : Along (exec i) (fun _ c => c ≠ .close i) (opened s) cs) :
    Along (exec i) (fun s c => s.Bounded i c ∧ (s.exec i c).Accounts i) (opened s) cs ↔ Along (exec i) (Spares i) (opened s) cs :=
  Along.iff_under
    (fun _ _ (h : Inv i _) hc => ⟨fun hp => h.spares hc hp.2, fun hq => ⟨(h.step hc hq).2, (h.step hc hq).1.2⟩⟩)
    (fun _ _ h hc hq => (h.step hc hq).1) (inv_opened hopen) hcs

def newSocket : SocketLog := opened (SocketTable.init.netSocket sockDgram (some fun _ => 0)).1

def bindCall : SocketCall := .bind 0 0 (htons 1000)

theorem accounts_iff_newSocket :
    Along (exec 0) (fun s c => s.Bounded 0 c ∧ (s.exec 0 c).Accounts 0) newSocket [bindCall, UdpRun.datagramTo 3 232, .recv 0 1] ↔
      Along (exec 0) (Spares 0) newSocket [bindCall, UdpRun.datagramTo 3 232, .recv 0 1] :=
  accounts_iff (i := 0) (t := .init) (Prod.ext rfl (by decide +kernel)) ⟨nofun, nofun, nofun, trivial⟩

/-- A datagram of 8184 bytes for the port 1000. -/
def largeDatagram : Memory := fun a => [0, 9, 3, 232, 32, 0, 0, 0].getD a 42

private theorem large_delivered :
    (newSocket.exec 0 bindCall).deliveredTo 0 (.datagram 1 largeDatagram 8192) = some ⟨1, 9, largeDatagram.bytes 8 8184⟩ := by
  have hlen : Udp.len largeDatagram = 8192 := by decide +kernel
  have hport : (newSocket.exec 0 bindCall).udp.portTable (Udp.dstPort largeDatagram) = some .socketRx := by decide +kernel
  have hsrc : Udp.srcPort largeDatagram = 9 := by decide +kernel
  have hfirst : ((range maxSockets).find? fun j => decide ((newSocket.exec 0 bindCall).sockets j).Receives) = some 0 := by
    decide +kernel
  rw [deliveredTo, Udp.receive, if_neg (by decide), hlen, if_neg (by decide), hport, map_some, hfirst, hsrc]
  rfl

theorem large_datagram_lost : ¬ Along (exec 0) (fun s c => s.Bounded 0 c ∧ (s.exec 0 c).Accounts 0) newSocket
    [bindCall, .datagram 1 largeDatagram 8192] := by
  rintro ⟨-, ⟨-, hafter⟩, -⟩
  have hinv : newSocket.Inv 0 := inv_opened (i := 0) (t := .init) (Prod.ext rfl (by decide +kernel))
  have hopen : bindCall ≠ .close 0 := nofun
  have hbound := (hinv.step hopen fun d hd => absurd hd (not_mem_none d)).1
  have hspares := hbound.spares (c := .datagram 1 largeDatagram 8192) nofun hafter
  refine hspares _ large_delivered ⟨by decide +kernel, ?_⟩
  have htail : ((newSocket.exec 0 bindCall).sockets 0).rxTail = 0 := by decide +kernel
  rw [htail, length_bytes, SocketEntry.bufferSize]

end SocketLog
end RetroOs.Net
