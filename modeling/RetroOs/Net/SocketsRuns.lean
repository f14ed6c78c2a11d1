import RetroOs.Lib.Runs
import RetroOs.Net.Sockets

/-! Which socket a datagram is queued on, over any run of the sockets. -/
namespace RetroOs.Net
open Lib Udp List Option Nat Function

/-- The socket table, with a number for each socket that was opened, and what was ever queued on it, with the ports. -/
structure UdpRun extends SocketTable where
  ident : Nat → Option Nat
  next : Nat
  queue : Nat → List (UInt16 × Datagram)

namespace UdpRun

variable {s t : UdpRun} {c : SocketCall} {cs ds : List SocketCall} {i id : Nat} {d : Datagram} {port : UInt16}

def init : UdpRun where
  toSocketTable := .init
  ident _ := none
  next := 0
  queue _ := []

def arrived : SocketCall → Option (UInt16 × Datagram)
  | .datagram srcIp packet length =>
    if length < headerSize ∨ len packet < headerSize then none
    else some (Udp.dstPort packet, { srcIp, srcPort := Udp.srcPort packet
                                     data := packet.bytes Udp.headerSize (Udp.len packet - Udp.headerSize) })
  | _ => none

/-- The slot has more bytes queued than before. -/
def Queued (s : UdpRun) (t : SocketTable) (i : Nat) : Prop := (s.sockets i).rxTail < (t.sockets i).rxTail

instance (s : UdpRun) (t : SocketTable) (i : Nat) : Decidable (s.Queued t i) := inferInstanceAs (Decidable (_ < _))

/-- The calls, with what is seen of them from outside: slots that become used or free, and buffers that grow. -/
def exec (s : UdpRun) (c : SocketCall) : UdpRun :=
  let t := s.toSocketTable.exec c
  { t with
    ident := fun i => if (t.sockets i).used then if (s.sockets i).used then s.ident i else some s.next else none
    next := s.next + 1
    queue := fun id =>
      if ∃ i ∈ range SocketTable.maxSockets, s.ident i = some id ∧ s.Queued t i then s.queue id ++ (arrived c).toList
      else s.queue id }

/-- Each bound datagram socket with another port has one with the port of the datagram in a slot before it. -/
def Meant (s : UdpRun) (c : SocketCall) : Prop :=
  ∀ a ∈ arrived c, s.udp.portTable a.1 = some .socketRx →
    ∀ i ∈ range SocketTable.maxSockets, (s.sockets i).Receives → (s.sockets i).localPort ≠ a.1 →
      ∃ j ∈ range i, (s.sockets j).Receives ∧ (s.sockets j).localPort = a.1

instance (s : UdpRun) (c : SocketCall) : Decidable (s.Meant c) := inferInstanceAs (Decidable (∀ a ∈ arrived c, _))

/-- Nothing is queued, or the datagram, on one socket, which is open and has its port. -/
def Demuxed (s : UdpRun) (c : SocketCall) (t : UdpRun) : Prop :=
  t.queue = s.queue ∨ ∃ a ∈ arrived c, ∃ i < SocketTable.maxSockets, ∃ id, s.ident i = some id ∧ (s.sockets i).used = true ∧
    (s.sockets i).type = sockDgram ∧ (s.sockets i).localPort = a.1 ∧
    t.queue = update s.queue id (s.queue id ++ [a])

/-- The socket was opened and is no longer open. -/
def Closed (s : UdpRun) (id : Nat) : Prop := id < s.next ∧ ∀ i, s.ident i ≠ some id

end UdpRun

theorem Udp.receive_eq (u : Udp) (srcIp : UInt32) (packet : Memory) (length : Nat) :
    u.receive srcIp packet length = (UdpRun.arrived (.datagram srcIp packet length)).bind fun a =>
      (u.portTable a.1).map fun handler => (handler, a.2) := by
  rw [receive, UdpRun.arrived]
  by_cases hshort : length < headerSize
  · rw [if_pos hshort, if_pos (.inl hshort)]
    rfl
  · rw [if_neg hshort]
    by_cases hlen : len packet < headerSize
    · rw [if_pos hlen, if_pos (.inr hlen)]
      rfl
    · rw [if_neg hlen, if_neg (not_or.mpr ⟨hshort, hlen⟩)]
      rfl

namespace SocketTable

variable {s : SocketTable} {e : SocketEntry} {i j : Nat} {d : Datagram} {fd : Int}

theorem setSocket_other (h : j ≠ i) : (s.setSocket i e).sockets j = s.sockets j := update_of_ne h ..

private theorem udpSocketRx_cases (s : SocketTable) (d : Datagram) : s.udpSocketRx d = s ∨
    ∃ i < maxSockets, (s.sockets i).Receives ∧ (∀ j < i, ¬ (s.sockets j).Receives) ∧
      s.udpSocketRx d = s.setSocket i ((s.sockets i).store d) := by
  rw [udpSocketRx]
  cases hfound : (range maxSockets).find? fun i => decide (s.sockets i).Receives with
  | none => exact .inl rfl
  | some i =>
    obtain ⟨hmem, hrec, hfirst⟩ := find?_range_eq_some.mp hfound
    refine .inr ⟨i, mem_range.mp hrec, of_decide_eq_true hmem, ?_, rfl⟩
    intro j hj hr
    have hnot := hfirst j hj
    rw [decide_eq_true hr] at hnot
    cases hnot

private theorem exec_datagram (s : SocketTable) (srcIp : UInt32) (packet : Memory) (length : Nat) :
    s.exec (.datagram srcIp packet length) = s ∨
      ∃ a ∈ UdpRun.arrived (.datagram srcIp packet length), s.udp.portTable a.1 = some .socketRx ∧
        s.exec (.datagram srcIp packet length) = s.udpSocketRx a.2 := by
  rw [exec, receive_eq]
  cases UdpRun.arrived (.datagram srcIp packet length) with
  | none => exact .inl rfl
  | some a =>
    cases hport : s.udp.portTable a.1 with
    | none => exact .inl (by simp [hport])
    | some handler =>
      cases handler with
      | socketRx => exact .inr ⟨a, rfl, hport, by simp [hport]⟩
      | dhcpRx => exact .inl (by simp [hport])
      | dnsRx => exact .inl (by simp [hport])

private theorem exec_touches (s : SocketTable) (c : SocketCall) : ∃ k, ∀ i ≠ k, (s.exec c).sockets i = s.sockets i := by
  have hkeep : ∃ k, ∀ i ≠ k, s.sockets i = s.sockets i := ⟨0, fun _ _ => rfl⟩
  have hset : ∀ k e, ∃ k', ∀ i ≠ k', (s.setSocket k e).sockets i = s.sockets i := fun k e => ⟨k, fun i hi => setSocket_other hi⟩
  cases c with
  | socket type buffer =>
    rw [exec, netSocket]
    split
    · exact hkeep
    · split
      · exact hkeep
      · exact hset _ _
  | bind fd addr port =>
    rw [exec, netBind]
    split
    · exact hkeep
    · dsimp only
      split
      · exact hset _ _
      · exact hset _ _
  | listen fd =>
    rw [exec, netListen]
    split
    · exact hkeep
    · split
      · exact hkeep
      · exact hset _ _
  | connect fd addr port tcb =>
    rw [exec, netConnect]
    split
    · exact hkeep
    · next i hi =>
      refine ⟨i, fun j hj => ?_⟩
      dsimp only [allocEphemeralPort]
      split_ifs
      all_goals
        cases tcb
        all_goals exact setSocket_other hj
  | connected i => exact hset _ _
  | sendto fd len =>
    rw [exec, netSendto]
    split
    · exact hkeep
    · split
      · exact hkeep
      · split
        · next i _ _ _ => exact ⟨i, fun j hj => setSocket_other hj⟩
        · exact hkeep
  | recv fd len =>
    rw [exec, netRecv]
    split
    · exact hkeep
    · split
      · exact hkeep
      · exact hset _ _
  | recvfrom fd len =>
    rw [exec, netRecvfrom]
    split
    · exact hkeep
    · split
      · exact hkeep
      · exact hset _ _
  | close fd =>
    rw [exec, netClose]
    split
    · exact hkeep
    · exact hset _ _
  | dhcpInit => exact hkeep
  | dnsInit => exact hkeep
  | udpInit => exact hkeep
  | datagram srcIp packet length =>
    obtain hsame | ⟨a, -, -, ha⟩ := exec_datagram s srcIp packet length
    · rw [hsame]
      exact hkeep
    · rw [ha]
      obtain hsame | ⟨k, -, -, -, hk⟩ := udpSocketRx_cases s a.2
      · rw [hsame]
        exact hkeep
      · rw [hk]
        exact hset _ _

end SocketTable

namespace UdpRun

variable {s t : UdpRun} {c : SocketCall} {cs ds : List SocketCall} {i j id : Nat}

/-- The numbers were given out, each to one slot. -/
structure Numbered (s : UdpRun) : Prop where
  lt : ∀ i id, s.ident i = some id → id < s.next
  inj : ∀ i j id, s.ident i = some id → s.ident j = some id → i = j

theorem exec_ident (h : (s.exec c).ident i = some id) :
    s.ident i = some id ∨ id = s.next ∧ (s.exec c).sockets i ≠ s.sockets i := by
  have h : (if ((s.toSocketTable.exec c).sockets i).used then if (s.sockets i).used then s.ident i else some s.next else none) =
    some id := h
  split at h
  · next hu =>
    split at h
    · exact .inl h
    · next hn =>
      refine .inr ⟨(some.inj h).symm, fun hsame => hn ?_⟩
      rw [← hsame]
      exact hu
  · cases h

theorem Numbered.step (h : Numbered s) (c : SocketCall) : Numbered (s.exec c) := by
  refine ⟨?_, ?_⟩
  · intro i id hid
    rcases exec_ident hid with hold | ⟨rfl, -⟩
    · exact lt_succ_of_lt (h.lt i id hold)
    · exact lt_succ_self _
  · intro i j id hi hj
    rcases exec_ident hi with hold | ⟨rfl, hnew⟩
    · rcases exec_ident hj with hold' | ⟨rfl, -⟩
      · exact h.inj i j id hold hold'
      · exact absurd (h.lt i _ hold) (lt_irrefl _)
    · rcases exec_ident hj with hold' | ⟨-, hnew'⟩
      · exact absurd (h.lt j _ hold') (lt_irrefl _)
      · obtain ⟨k, hk⟩ := s.toSocketTable.exec_touches c
        have hik : i = k := not_not.mp fun hne => hnew (hk i hne)
        have hjk : j = k := not_not.mp fun hne => hnew' (hk j hne)
        rw [hik, hjk]

def CleanStep (s : UdpRun) (c : SocketCall) (t : UdpRun) : Prop := s.Meant c ∧ t = s.exec c

private theorem numbered_runs (hrun : Trace CleanStep init cs s) : Numbered s := by
  induction hrun with
  | nil => exact ⟨fun _ _ h => (nomatch h), fun _ _ _ h => (nomatch h)⟩
  | snoc _ hstep ih =>
    obtain ⟨-, rfl⟩ := hstep
    exact ih.step _

private theorem queued_cases {a : UInt16 × Datagram} (ha : a ∈ arrived c) (hm : s.Meant c)
    (hq : s.Queued (s.toSocketTable.exec c) i) : (s.sockets i).Receives ∧ (s.sockets i).localPort = a.1 := by
  cases c with
  | datagram srcIp packet length =>
    rcases s.toSocketTable.exec_datagram srcIp packet length with hsame | ⟨a', ha', hport, hexec⟩
    · rw [Queued, hsame] at hq
      exact absurd hq (lt_irrefl _)
    · obtain rfl : a' = a := mem_unique ha' ha
      rw [hexec] at hq
      rcases s.toSocketTable.udpSocketRx_cases a'.2 with hsame | ⟨k, hk, hrec, hfirst, hset⟩
      · rw [Queued, hsame] at hq
        exact absurd hq (lt_irrefl _)
      · by_cases hik : i = k
        · subst hik
          refine ⟨hrec, not_not.mp fun hne => ?_⟩
          obtain ⟨j, hj, hjrec, -⟩ := hm a' ha hport i (mem_range.mpr hk) hrec hne
          exact hfirst j (mem_range.mp hj) hjrec
        · rw [Queued, hset, SocketTable.setSocket_other hik] at hq
          exact absurd hq (lt_irrefl _)
  | _ => cases ha

private theorem demuxed_step (hm : s.Meant c) : Demuxed s c (s.exec c) := by
  cases harr : arrived c with
  | none =>
    refine .inl (funext fun id => ?_)
    rw [exec, harr]
    simp
  | some a =>
    by_cases hq : ∃ i ∈ range SocketTable.maxSockets, ∃ id, s.ident i = some id ∧ s.Queued (s.toSocketTable.exec c) i
    · obtain ⟨i, hi, id, hid, hgrow⟩ := hq
      obtain ⟨hrec, hport⟩ := queued_cases harr hm hgrow
      refine .inr ⟨a, harr, i, mem_range.mp hi, id, hid, hrec.1, hrec.2.1, hport, funext fun id' => ?_⟩
      rw [exec, harr, toList_some]
      by_cases hsame : id' = id
      · subst hsame
        rw [update_self]
        exact if_pos ⟨i, hi, hid, hgrow⟩
      · rw [update_of_ne hsame]
        refine if_neg ?_
        rintro ⟨j, -, hjd, hjgrow⟩
        -- Only the slot that the call changes can have more bytes.
        obtain ⟨k, hk⟩ := s.toSocketTable.exec_touches c
        have hslot : ∀ n, s.Queued (s.toSocketTable.exec c) n → n = k := by
          intro n hn
          by_contra hne
          rw [Queued, hk n hne] at hn
          exact lt_irrefl _ hn
        rw [hslot j hjgrow, ← hslot i hgrow, hid] at hjd
        exact hsame (some.inj hjd).symm
    · refine .inl (funext fun id => if_neg ?_)
      rintro ⟨i, hi, hid, hgrow⟩
      exact hq ⟨i, hi, id, hid, hgrow⟩

theorem Closed.step (h : s.Closed id) (c : SocketCall) : (s.exec c).Closed id ∧ (s.exec c).queue id = s.queue id := by
  refine ⟨⟨lt_succ_of_lt h.1, ?_⟩, if_neg ?_⟩
  · intro i hi
    rcases exec_ident hi with hold | ⟨rfl, -⟩
    · exact h.2 i hold
    · exact lt_irrefl _ h.1
  · rintro ⟨i, -, hid, -⟩
    exact h.2 i hid

theorem Closed.run (h : s.Closed id) (hrun : Trace CleanStep s cs t) : t.Closed id ∧ t.queue id = s.queue id := by
  induction hrun with
  | nil => exact ⟨h, rfl⟩
  | snoc _ hstep ih =>
    obtain ⟨-, rfl⟩ := hstep
    obtain ⟨hclosed, hsame⟩ := ih.1.step _
    exact ⟨hclosed, hsame.trans ih.2⟩

/-- In every run of such steps, a datagram is queued on the socket with its port only, and a socket that was closed
receives nothing. -/
theorem demuxed_runs (hrun : Trace CleanStep init cs s) :
    s.Numbered ∧ (∀ c t, CleanStep s c t → Demuxed s c t) ∧
      ∀ id, s.Closed id → ∀ ds t, Trace CleanStep s ds t → t.queue id = s.queue id := by
  refine ⟨numbered_runs hrun, ?_, fun id hclosed ds t hrest => (hclosed.run hrest).2⟩
  rintro c t ⟨hm, rfl⟩
  exact demuxed_step hm

def datagramTo (hi lo : UInt8) : SocketCall :=
  .datagram 1 (fun a => [0, 9, hi, lo, 0, 9, 0, 0, 42].getD a 0) 9

theorem one_socket_demuxed : ∃ s, Trace CleanStep init [.socket 2 (some fun _ => 0), .bind 0 0 (htons 1000), datagramTo 3 232,
    .close 0] s ∧ s.queue 0 = [(1000, ⟨1, 9, [42]⟩)] ∧ s.Numbered ∧ (∀ c t, CleanStep s c t → Demuxed s c t) ∧
    ∀ id, s.Closed id → ∀ ds t, Trace CleanStep s ds t → t.queue id = s.queue id := by
  have hev : ∃ s ∈ [SocketCall.socket 2 (some fun _ => 0), .bind 0 0 (htons 1000), datagramTo 3 232, .close 0].foldlM
      (fun s c => if Meant s c then some (exec s c) else none) init, s.queue 0 = [(1000, ⟨1, 9, [42]⟩)] := by decide +kernel
  obtain ⟨s, hs, hqueue⟩ := hev
  have hrun := (trace_of_checked hs).mono fun _ _ _ h => (⟨h.1, (Option.some.inj h.2).symm⟩ : CleanStep _ _ _)
  exact ⟨s, hrun, hqueue, demuxed_runs hrun⟩

/-- A datagram for the second socket goes to the first. -/
theorem second_socket_starved : ∃ s, Trace (fun s c t => t = exec s c) init [.socket 2 (some fun _ => 0), .socket 2 (some fun _ => 0),
    .bind 0 0 (htons 1000), .bind 1 0 (htons 2000)] s ∧ (s.sockets 0).localPort = 1000 ∧ (s.sockets 1).localPort = 2000 ∧
    ¬ Demuxed s (datagramTo 7 208) (s.exec (datagramTo 7 208)) := by
  have hev : ∃ s ∈ [SocketCall.socket 2 (some fun _ => 0), .socket 2 (some fun _ => 0), .bind 0 0 (htons 1000),
      .bind 1 0 (htons 2000)].foldlM (fun s c => some (exec s c)) init,
      (s.sockets 0).localPort = 1000 ∧ (s.sockets 1).localPort = 2000 ∧
        s.queue 0 ≠ (s.exec (datagramTo 7 208)).queue 0 ∧ (s.exec (datagramTo 7 208)).queue 1 = s.queue 1 ∧
        s.ident 1 = some 1 ∧ ∀ i ∈ range SocketTable.maxSockets, i ≠ 1 → (s.sockets i).localPort ≠ 2000 := by decide +kernel
  obtain ⟨s, hs, hfirst, hsecond, hgrown, hkept, hid, hports⟩ := hev
  refine ⟨s, (trace_of_foldlM hs).mono fun _ _ _ h => (some.inj h).symm, hfirst, hsecond, ?_⟩
  rintro (hsame | ⟨a, ha, i, hi, id, hident, -, -, hport, hqueue⟩)
  · exact hgrown (by rw [hsame])
  · cases ha
    have hi1 : i = 1 := not_not.mp fun hne => hports i (mem_range.mpr hi) hne hport
    subst hi1
    rw [hid] at hident
    cases hident
    rw [hqueue, update_self] at hkept
    simp at hkept

end UdpRun
end RetroOs.Net
