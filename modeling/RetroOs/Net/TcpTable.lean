import Mathlib.Data.List.Range
import RetroOs.Net.TcpConn

/-! The table of TCP connections. Every slot in use is at a state of a run of its own connection. -/
namespace RetroOs.Net
open Lib Function List

/-- The table, and the receive buffers that `kmalloc` gave and `kfree` has not taken back. -/
structure Tcp where
  table : Nat → Tcb
  buffers : Finset Nat

namespace Tcp

def maxConnections : Nat := 16

def setTcb (s : Tcp) (i : Nat) (t : Tcb) : Tcp := { s with table := update s.table i t }

def freeSlot (s : Tcp) : Option Nat := (range maxConnections).find? fun i => !(s.table i).used

/-- `tcp_connect`, with the address of this machine and what `kmalloc` gives. -/
def connect (s : Tcp) (ownIp localIp : UInt32) (localPort : UInt16) (remoteIp : UInt32) (remotePort : UInt16)
    (rxBuffer : Option Nat) : Option (Tcp × Nat) :=
  s.freeSlot.map fun i =>
    ({ table := update s.table i
        (.connect (if localIp = 0 then ownIp else localIp) localPort remoteIp remotePort rxBuffer)
       buffers := match rxBuffer with
        | some p => insert p s.buffers
        | none => s.buffers }, i)

def freeTcb (s : Tcp) (i : Nat) : Tcp :=
  if (s.table i).used then
    { table := update s.table i .zero
      buffers := match (s.table i).rxBuffer with
        | some p => s.buffers.erase p
        | none => s.buffers }
  else s

def find (s : Tcp) (g : Segment) : Option Nat :=
  (range maxConnections).find? fun i =>
    let t := s.table i
    t.used && t.localIp == g.dstIp && t.remoteIp == g.srcIp && t.localPort == g.dstPort && t.remotePort == g.srcPort

/-- `tcp_handle_packet` on the slot that was found. -/
def handle (s : Tcp) (i : Nat) (g : Segment) : Option Tcp :=
  ((s.table i).handle g).map fun t =>
    if (s.table i).state = .lastAck ∧ g.has Segment.ackFlag then s.freeTcb i else s.setTcb i t

end Tcp

/-- What happens to the table. The application calls with the slot that `tcp_connect` gave it. -/
inductive TcpCall where
  | connect (ownIp localIp : UInt32) (localPort : UInt16) (remoteIp : UInt32) (remotePort : UInt16) (rxBuffer : Option Nat)
  | packet (g : Segment)
  | send (i : Nat) (len : UInt16)
  | read (i : Nat) (len : UInt16)
  | close (i : Nat)

/-- The peer resets the connection: with the number that is expected, or in answer to the SYN. -/
def Tcb.resets (t : Tcb) : TcpEvent → Bool
  | .segment g =>
    g.has Segment.rstFlag && (if t.state = .synSent then g.has Segment.ackFlag && g.ack == t.sndNxt else g.seq == t.rcvNxt)
  | _ => false

/-- The table, with the connection that each slot started with, what has happened to it since, and whether the peer
has reset it. -/
structure TcpRun extends Tcp where
  origin : Nat → TcpConn
  log : Nat → List TcpEvent
  reset : Nat → Bool

namespace TcpRun

def init : TcpRun where
  table _ := .zero
  buffers := ∅
  origin _ := .start 0 0 0 0 none
  log _ := []
  reset _ := false

/-- Something happened to the slot. -/
def record (s : TcpRun) (i : Nat) (e : TcpEvent) (t : Tcp) : TcpRun :=
  { t with
    origin := s.origin
    log := update s.log i (s.log i ++ [e])
    reset := update s.reset i (s.reset i || (s.table i).resets e) }

def exec (s : TcpRun) : TcpCall → Option TcpRun
  | .connect ownIp localIp localPort remoteIp remotePort rxBuffer =>
    match s.toTcp.connect ownIp localIp localPort remoteIp remotePort rxBuffer with
    | none => some s
    | some (t, i) =>
      some { t with
        origin := update s.origin i
          (.start (if localIp = 0 then ownIp else localIp) localPort remoteIp remotePort rxBuffer)
        log := update s.log i []
        reset := update s.reset i false }
  | .packet g =>
    match s.toTcp.find g with
    | none => some s
    | some i => (s.toTcp.handle i g).map fun t => s.record i (.segment g) t
  | .send i len => if (s.table i).used then some (s.record i (.send len) (s.setTcb i ((s.table i).sendData len))) else some s
  | .read i len =>
    if (s.table i).used then some (s.record i (.read len) (s.setTcb i ((s.table i).readData len).1)) else some s
  | .close i => if (s.table i).used then some (s.record i .close (s.setTcb i (s.table i).close)) else some s

variable {s t : TcpRun} {u : Tcp} {i : Nat} {g : Segment} {call : TcpCall} {calls : List TcpCall}

@[simp] theorem record_log (s : TcpRun) (i : Nat) (e : TcpEvent) (u : Tcp) : (s.record i e u).log i = s.log i ++ [e] :=
  update_self ..

@[simp] theorem record_reset (s : TcpRun) (i : Nat) (e : TcpEvent) (u : Tcp) :
    (s.record i e u).reset i = (s.reset i || (s.table i).resets e) := update_self ..

theorem handle_table (e : s.toTcp.handle i g = some u) (hu : (s.table i).used = true) :
    ∃ v, (s.table i).handle g = some v ∧ u.table = update s.table i v := by
  obtain ⟨v, hv, rfl⟩ := Option.map_eq_some_iff.mp e
  refine ⟨v, hv, ?_⟩
  split
  · next hlast =>
    rw [Tcb.handle, hlast.1] at hv
    cases hv
    rw [Tcp.freeTcb, if_pos hu, if_pos hlast.2]
  · rfl

theorem find_used (e : s.toTcp.find g = some i) : i < Tcp.maxConnections ∧ (s.table i).used = true := by
  have hmem := mem_of_find?_eq_some e
  have hfound := find?_some e
  simp only [Bool.and_eq_true] at hfound
  exact ⟨mem_range.mp hmem, hfound.1.1.1.1⟩

structure SlotRun (s : TcpRun) (i : Nat) : Prop where
  started : ∃ localIp localPort remoteIp remotePort rxBuffer,
    s.origin i = .start localIp localPort remoteIp remotePort rxBuffer
  run : ∃ c, Trace (fun c e d => c.exec e = some d) (s.origin i) (s.log i) c ∧ c.tcb = s.table i

theorem SlotRun.congr (h : SlotRun s i) (ho : t.origin i = s.origin i) (hl : t.log i = s.log i) (ht : t.table i = s.table i) :
    SlotRun t i := by
  refine ⟨?_, ?_⟩
  · rw [ho]
    exact h.started
  · rw [ho, hl, ht]
    exact h.run

theorem SlotRun.record {j : Nat} {e : TcpEvent} {v : Tcb} {out : List UInt8} (h : ∀ j, (s.table j).used = true → SlotRun s j)
    (hu : (s.table i).used = true) (he : (s.table i).exec e = some (v, out)) (ht : u.table = update s.table i v)
    (hj : ((s.record i e u).table j).used = true) : SlotRun (s.record i e u) j := by
  have htable : (s.record i e u).table = update s.table i v := ht
  by_cases hji : j = i
  · subst hji
    obtain ⟨hstart, c, hrun, hc⟩ := h j hu
    refine ⟨hstart, { tcb := v, irs := c.nextIrs e, delivered := c.delivered ++ out, sent := c.nextSent e }, ?_, ?_⟩
    · rw [record_log]
      apply hrun.snoc
      rw [TcpConn.exec, hc, if_pos hu, he]
      rfl
    · rw [htable, update_self]
  · have hsame : (s.record i e u).table j = s.table j := by rw [htable, update_of_ne hji]
    rw [hsame] at hj
    exact (h j hj).congr rfl (update_of_ne hji ..) hsame

theorem SlotRun.step (h : ∀ j, (s.table j).used = true → SlotRun s j) (e : s.exec call = some t) :
    ∀ j, (t.table j).used = true → SlotRun t j := by
  intro j hj
  cases call with
  | connect ownIp localIp localPort remoteIp remotePort rxBuffer =>
    rw [exec] at e
    split at e
    · cases e
      exact h j hj
    · next u i hc =>
      cases e
      obtain ⟨i', hfree, hc⟩ := Option.map_eq_some_iff.mp hc
      obtain ⟨rfl, rfl⟩ := Prod.mk.inj hc
      by_cases hji : j = i'
      · subst hji
        have horigin := Function.update_self j (TcpConn.start (if localIp = 0 then ownIp else localIp) localPort remoteIp
          remotePort rxBuffer) s.origin
        refine ⟨⟨_, _, _, _, _, horigin⟩, .start (if localIp = 0 then ownIp else localIp) localPort remoteIp remotePort rxBuffer,
          ?_, ?_⟩
        · show Trace _ (update s.origin j _ j) (update s.log j [] j) _
          rw [horigin, update_self]
          exact .nil
        · show _ = update s.table j _ j
          rw [update_self]
          rfl
      · have hsame := update_of_ne hji (Tcb.connect (if localIp = 0 then ownIp else localIp) localPort remoteIp
          remotePort rxBuffer) s.table
        have hj : (s.table j).used = true := by
          rw [← hsame]
          exact hj
        exact (h j hj).congr (update_of_ne hji ..) (update_of_ne hji ..) hsame
  | packet g =>
    rw [exec] at e
    split at e
    · cases e
      exact h j hj
    · next i hfind =>
      obtain ⟨u, hu, rfl⟩ := Option.map_eq_some_iff.mp e
      have hused := (find_used hfind).2
      obtain ⟨v, hv, htable⟩ := handle_table hu hused
      exact record h hused (congrArg (Option.map fun t => (t, [])) hv) htable hj
  | send i len =>
    rw [exec] at e
    split at e
    · next hused =>
      cases e
      exact record h hused rfl rfl hj
    · cases e
      exact h j hj
  | read i len =>
    rw [exec] at e
    split at e
    · next hused =>
      cases e
      exact record h hused rfl rfl hj
    · cases e
      exact h j hj
  | close i =>
    rw [exec] at e
    split at e
    · next hused =>
      cases e
      exact record h hused rfl rfl hj
    · cases e
      exact h j hj

/-- In every run of the table, each slot in use is at a state of a run of its connection, from its `tcp_connect` on. -/
theorem slot_runs (hrun : Trace (fun s call t => s.exec call = some t) init calls s) :
    ∀ i, (s.table i).used = true → SlotRun s i := by
  induction hrun with
  | nil => exact fun i hu => nomatch hu
  | snoc _ e ih => exact SlotRun.step ih e

theorem bare_header : 20 ≤ UInt16.ofNat (20 + ([] : List UInt8).length) := by decide

/-- Two connections. The peer ends the first and its slot is freed; the second sends, and a third, in the freed slot,
sends and is closed. -/
def reused : List TcpCall :=
  [.connect 0 0 0 0 0 (some 7), .connect 0 0 0 0 1 (some 8), .packet TcpConn.synAck,
    .packet (TcpConn.sample 0 0x1001 0x50 0x11 [] bare_header), .close 0,
    .packet (TcpConn.sample 1 0x1002 0x50 0x10 [] bare_header), .send 1 5, .connect 0 0 0 2 0 (some 9), .send 0 3, .close 0]

theorem slot_runs_reused : ∃ s t, (reused.take 6).foldlM exec init = some s ∧ (s.table 0).used = false ∧
    Trace (fun s call t => s.exec call = some t) init reused t ∧ SlotRun t 0 ∧ SlotRun t 1 ∧
    (t.log 0).length = 2 ∧ (t.log 1).length = 1 ∧ (t.table 0).remoteIp = 2 := by
  have hev : ∃ s ∈ (reused.take 6).foldlM exec init, (s.table 0).used = false ∧ ∃ t ∈ (reused.drop 6).foldlM exec s,
      (t.table 0).used = true ∧ (t.table 1).used = true ∧ (t.log 0).length = 2 ∧ (t.log 1).length = 1 ∧
      (t.table 0).remoteIp = 2 := by decide +kernel
  obtain ⟨s, hs, hfree, t, ht, h0, h1, hlog⟩ := hev
  have hrun : Trace (fun s call t => s.exec call = some t) init reused t := by
    refine trace_of_foldlM ?_
    rw [← take_append_drop 6 reused, foldlM_append]
    exact Option.bind_eq_some_iff.mpr ⟨s, hs, ht⟩
  exact ⟨s, t, hs, hfree, hrun, slot_runs hrun 0 h0, slot_runs hrun 1 h1, hlog⟩

end TcpRun
end RetroOs.Net
