import RetroOs.Lib.SeqNum
import RetroOs.Net.TcpConn

/-! The sending side of a TCP connection: where `snd_una` is, and which segments take the connection from one state
to the next. -/
namespace RetroOs.Net
open Lib Segment Tcb

variable {c d : TcpConn} {t u : Tcb} {g : Segment} {e : TcpEvent} {es : List TcpEvent}
  {localIp remoteIp : UInt32} {localPort remotePort : UInt16} {rxBuffer : Option Nat}

namespace Tcb

/-- Everything that was sent is acknowledged, the SYN or the FIN at its end too. -/
def Acknowledged (t : Tcb) (g : Segment) : Prop := g.has ackFlag = true ∧ g.ack = t.sndNxt

def AckFits (t : Tcb) (g : Segment) : Prop :=
  match t.state with
  | .synSent => g.flags &&& (synFlag ||| ackFlag) = synFlag ||| ackFlag → g.ack = t.sndNxt
  | .finWait1 => g.has ackFlag = true ∨ g.has finFlag = true → t.Acknowledged g
  | .lastAck => g.has ackFlag = true → g.ack = t.sndNxt
  | _ => True

end Tcb

namespace TcpConn

/-- `snd_nxt` is behind the numbers sent, and `snd_una` one of them or `snd_nxt`; within a cycle of the numbers
that is the order of their distances from the first. -/
structure InWindow (c : TcpConn) : Prop where
  next : c.tcb.sndNxt = seqAt initialSeq c.sent
  una : ∃ k ≤ c.sent, c.tcb.sndUna = seqAt initialSeq k
  modular : c.sent < 2 ^ 32 → c.tcb.sndUna - initialSeq ≤ c.tcb.sndNxt - initialSeq

structure Acked (c : TcpConn) (e : TcpEvent) (d : TcpConn) : Prop where
  opened : c.tcb.state = .synSent → d.tcb.state = .established → ∃ g, e = .segment g ∧ c.tcb.Acknowledged g ∧ c.sent = 1
  finWait2 : c.tcb.state = .finWait1 → d.tcb.state = .finWait2 → ∃ g, e = .segment g ∧ c.tcb.Acknowledged g
  timeWait : c.tcb.state = .finWait1 → d.tcb.state = .timeWait → ∃ g, e = .segment g ∧ c.tcb.Acknowledged g
  closed : c.tcb.state = .lastAck → d.tcb.state = .closed → ∃ g, e = .segment g ∧ c.tcb.Acknowledged g

def AckEventFits (c : TcpConn) : TcpEvent → Prop
  | .segment g => c.tcb.AckFits g
  | _ => True

def AckStep (c : TcpConn) (e : TcpEvent) (d : TcpConn) : Prop := AckEventFits c e ∧ c.exec e = some d

structure SendInv (c : TcpConn) : Prop where
  next : c.tcb.sndNxt = seqAt initialSeq c.sent
  una : ∃ k ≤ c.sent, c.tcb.sndUna = seqAt initialSeq k
  syn : c.tcb.state = .synSent → c.sent = 1

theorem SendInv.inWindow (h : SendInv c) : InWindow c := by
  refine ⟨h.next, h.una, ?_⟩
  intro hlt
  obtain ⟨k, hk, huna⟩ := h.una
  rw [huna, h.next]
  exact seqAt_sub_le hk hlt

theorem SendInv.send {n : Nat} {nxt : UInt32} {state : TcpState} {rx : List UInt8} {irs : UInt32} {delivered : List UInt8}
    (h : SendInv c) (hnxt : nxt = c.tcb.sndNxt + UInt32.ofNat n) (hst : state ≠ .synSent) :
    SendInv { tcb := { c.tcb with sndNxt := nxt, state := state, rx := rx }, irs, delivered, sent := c.sent + n } := by
  obtain ⟨k, hk, huna⟩ := h.una
  refine ⟨?_, ⟨k, Nat.le_add_right_of_le hk, huna⟩, fun hsyn => absurd hsyn hst⟩
  rw [seqAt_add, ← h.next]
  exact hnxt

theorem SendInv.segment (h : SendInv c) (hfit : c.tcb.AckFits g) (hr : c.tcb.Received g t) (hu : t.used = true) :
    SendInv { c with tcb := t, irs := c.nextIrs (.segment g) } := by
  have hack : ∃ k ≤ c.sent, (c.tcb.acknowledge g).sndUna = seqAt initialSeq k := by
    obtain ⟨hlow, hup, hack⟩ | hack := c.tcb.acknowledge_cases g
    · rw [hack]
      obtain ⟨k, hk, huna⟩ := h.una
      rw [huna] at hlow
      rw [h.next] at hup
      exact seqAt_between hk hlow hup
    · rw [hack]
      exact h.una
  cases hr with
  | opened hst hf =>
    rw [Tcb.AckFits, hst] at hfit
    refine ⟨h.next, ⟨c.sent, Nat.le_refl _, ?_⟩, fun hsyn => nomatch hsyn⟩
    rw [← h.next]
    exact hfit hf
  | data hst hd hf =>
    obtain ⟨-, -, hstate, hnxt, huna⟩ := receiveData_frame hd
    refine ⟨hnxt.trans h.next, huna ▸ hack, ?_⟩
    intro hsyn
    rw [hsyn, hst] at hstate
    cases hstate
  | dataFin hst hd hf =>
    obtain ⟨-, -, -, hnxt, huna⟩ := receiveData_frame hd
    exact ⟨hnxt.trans h.next, huna ▸ hack, fun hsyn => nomatch hsyn⟩
  | fin hst hf => exact ⟨h.next, h.una, fun hsyn => nomatch hsyn⟩
  | acked hst ha hf => exact ⟨h.next, h.una, fun hsyn => nomatch hsyn⟩
  | freed hst ha => cases hu
  | ignored hst => exact ⟨h.next, h.una, h.syn⟩

theorem SendInv.step (h : SendInv c) (hstep : AckStep c e d) (hu : d.tcb.used = true) : SendInv d := by
  obtain ⟨hfit, hexec⟩ := hstep
  obtain ⟨-, hirs, hsent, out, he, hdel⟩ := exec_cases hexec
  obtain ⟨t, irs, delivered, sent⟩ := d
  obtain rfl : sent = c.nextSent e := hsent
  cases e with
  | segment g =>
    obtain ⟨u, hr, he⟩ := Option.map_eq_some_iff.mp he
    obtain ⟨rfl, -⟩ := Prod.mk.inj he
    have hseg := h.segment hfit (Tcb.handle_received hr) hu
    exact ⟨hseg.next, hseg.una, hseg.syn⟩
  | send len =>
    obtain ⟨rfl, -⟩ := Prod.mk.inj (Option.some.inj he)
    by_cases hst : c.tcb.state = .established
    · have hlen : len.toUInt32 = UInt32.ofNat len.toNat := by
        rw [← UInt32.toNat_inj, UInt16.toNat_toUInt32, UInt32.toNat_ofNat_of_lt' ?_]
        exact Nat.lt_trans len.toNat_lt (by decide)
      have hdata : c.tcb.sendData len = { c.tcb with sndNxt := c.tcb.sndNxt + len.toUInt32 } := by
        rw [Tcb.sendData, if_pos hst]
        exact if_neg (by decide)
      rw [hdata, nextSent, if_pos hst, hlen]
      exact h.send rfl (by rw [hst]; decide)
    · rw [Tcb.sendData, if_neg hst, nextSent, if_neg hst]
      exact ⟨h.next, h.una, h.syn⟩
  | read len =>
    obtain ⟨rfl, -⟩ := Prod.mk.inj (Option.some.inj he)
    exact ⟨h.next, h.una, h.syn⟩
  | close =>
    obtain ⟨rfl, -⟩ := Prod.mk.inj (Option.some.inj he)
    obtain ⟨hsame, hno⟩ | ⟨hst, hclosed⟩ | ⟨hst, hclosed⟩ := c.tcb.close_eq
    · rw [hsame, nextSent, if_neg hno]
      exact ⟨h.next, h.una, h.syn⟩
    · rw [hclosed, nextSent, if_pos (.inl hst)]
      exact h.send rfl (by decide)
    · rw [hclosed, nextSent, if_pos (.inr hst)]
      exact h.send rfl (by decide)

theorem Acked.of_state (hst : d.tcb.state = c.tcb.state) : Acked c e d := by
  refine ⟨?_, ?_, ?_, ?_⟩
  all_goals
    intro hc hd
    rw [hst, hc] at hd
    cases hd

private theorem has_ack (hf : g.flags &&& (synFlag ||| ackFlag) = synFlag ||| ackFlag) :
    g.has ackFlag = true := by
  have hand : g.flags &&& ackFlag = ackFlag := by
    have hboth := congrArg (· &&& ackFlag) hf
    rwa [UInt8.and_assoc] at hboth
  rw [has, hand]
  decide

theorem SendInv.acked_of (h : SendInv c) (hack : c.tcb.Acknowledged g) : Acked c (.segment g) d where
  opened hst _ := ⟨g, rfl, hack, h.syn hst⟩
  finWait2 _ _ := ⟨g, rfl, hack⟩
  timeWait _ _ := ⟨g, rfl, hack⟩
  closed _ _ := ⟨g, rfl, hack⟩

theorem Acked.of_other (hst : c.tcb.state = .established ∨ c.tcb.state = .finWait2 ∨ c.tcb.state = .closeWait) : Acked c e d := by
  refine ⟨?_, ?_, ?_, ?_⟩
  all_goals
    intro hc
    rw [hc] at hst
    exact absurd hst (by decide)

theorem SendInv.acked (h : SendInv c) (hfit : c.tcb.AckFits g) (hr : c.tcb.Received g d.tcb) : Acked c (.segment g) d := by
  rw [Tcb.AckFits] at hfit
  generalize hd : d.tcb = t at hr
  cases hr with
  | opened hst hf =>
    rw [hst] at hfit
    exact h.acked_of ⟨has_ack hf, hfit hf⟩
  | data hst => exact .of_other (.inl hst)
  | dataFin hst => exact .of_other (.inl hst)
  | fin hst hf =>
    obtain hst | hst := hst
    · rw [hst] at hfit
      exact h.acked_of (hfit (.inr hf))
    · exact .of_other (.inr (.inl hst))
  | acked hst ha =>
    rw [hst] at hfit
    exact h.acked_of (hfit (.inl ha))
  | freed hst ha =>
    rw [hst] at hfit
    exact h.acked_of ⟨ha, hfit ha⟩
  | ignored => exact .of_state (by rw [hd])

theorem SendInv.acked_step (h : SendInv c) (hstep : AckStep c e d) : Acked c e d := by
  obtain ⟨hfit, hexec⟩ := hstep
  obtain ⟨-, -, -, out, he, -⟩ := exec_cases hexec
  cases e with
  | segment g =>
    obtain ⟨u, hr, he⟩ := Option.map_eq_some_iff.mp he
    obtain ⟨rfl, -⟩ := Prod.mk.inj he
    exact h.acked hfit (Tcb.handle_received hr)
  | send len =>
    obtain ⟨ht, -⟩ := Prod.mk.inj (Option.some.inj he)
    apply Acked.of_state
    rw [← ht]
    obtain hsame | ⟨-, hsent⟩ := c.tcb.sendData_eq len
    · rw [hsame]
    · rw [hsent]
  | read len =>
    obtain ⟨ht, -⟩ := Prod.mk.inj (Option.some.inj he)
    exact .of_state (by rw [← ht])
  | close =>
    obtain ⟨ht, -⟩ := Prod.mk.inj (Option.some.inj he)
    obtain ⟨hsame, -⟩ | ⟨hst, -⟩ | ⟨hst, -⟩ := c.tcb.close_eq
    · apply Acked.of_state
      rw [← ht, hsame]
    · exact .of_other (.inl hst)
    · exact .of_other (.inr (.inr hst))

private theorem start_sendInv : SendInv (start localIp localPort remoteIp remotePort rxBuffer) := by
  rw [start, connect_eq]
  exact ⟨rfl, ⟨0, Nat.zero_le 1, rfl⟩, fun _ => rfl⟩

/-- In every run whose segments acknowledge the SYN or the FIN where they move the connection on: `snd_una` is in the
window, and the moves are right. -/
theorem window_runs (hrun : Trace AckStep (start localIp localPort remoteIp remotePort rxBuffer) es c)
    (hu : c.tcb.used = true) : InWindow c ∧ ∀ e d, AckStep c e d → Acked c e d := by
  have hinv : c.tcb.used = true → SendInv c := by
    clear hu
    induction hrun with
    | nil => exact fun _ => start_sendInv
    | snoc _ hstep ih => exact fun hu => (ih (exec_cases hstep.2).1).step hstep hu
  exact ⟨(hinv hu).inWindow, fun e d hstep => (hinv hu).acked_step hstep⟩

/-- The three-way handshake, and a close that the peer answers. -/
theorem closing_acked : ∃ c d, Trace AckStep (start 1 80 2 80 (some 0)) [.segment synAck, .close] c ∧ c.tcb.used = true ∧
    AckStep c (.segment (sample 0 0x1002 0x50 0x10 [] (by decide))) d ∧ d.tcb.state = .finWait2 ∧ InWindow c ∧
    Acked c (.segment (sample 0 0x1002 0x50 0x10 [] (by decide))) d := by
  have hev : ∃ b ∈ (start 1 80 2 80 (some 0)).exec (.segment synAck), ∃ c ∈ b.exec .close,
      ∃ d ∈ c.exec (.segment (sample 0 0x1002 0x50 0x10 [] (by decide))), c.tcb.used = true ∧ c.tcb.state = .finWait1 ∧
        c.tcb.sndNxt = 0x1002 ∧ d.tcb.state = .finWait2 := by decide +kernel
  obtain ⟨b, h₁, c, h₂, d, h₃, hu, hst, hnxt, hst'⟩ := hev
  have s₁ : AckStep (start 1 80 2 80 (some 0)) (.segment synAck) b := ⟨fun _ => by decide, h₁⟩
  have hrun := (Trace.nil.snoc s₁).snoc (show AckStep b .close c from ⟨trivial, h₂⟩)
  have s₃ : AckStep c (.segment (sample 0 0x1002 0x50 0x10 [] (by decide))) d := by
    refine ⟨?_, h₃⟩
    rw [AckEventFits, Tcb.AckFits, hst]
    intro _
    exact ⟨by decide, by rw [hnxt]; decide⟩
  have hall := window_runs hrun hu
  exact ⟨c, d, hrun, hu, s₃, hst', hall.1, hall.2 _ d s₃⟩

/-- A SYN-ACK for something that was never sent opens the connection, with `snd_una` outside the window. -/
theorem stale_ack_opens : ∃ c, Trace (fun c e d => c.exec e = some d) (start 1 80 2 80 (some 0))
    [.segment (sample 0 0x5000 0x50 0x12 [] (by decide))] c ∧ c.tcb.used = true ∧ c.tcb.state = .established ∧ ¬ InWindow c := by
  have hev : ∃ c ∈ (start 1 80 2 80 (some 0)).exec (.segment (sample 0 0x5000 0x50 0x12 [] (by decide))),
      c.tcb.used = true ∧ c.tcb.state = .established ∧ c.sent = 1 ∧
        ¬ c.tcb.sndUna - initialSeq ≤ c.tcb.sndNxt - initialSeq := by decide +kernel
  obtain ⟨c, h₁, hu, hst, hsent, hout⟩ := hev
  refine ⟨c, Trace.nil.snoc h₁, hu, hst, ?_⟩
  intro h
  exact hout (h.modular (by rw [hsent]; decide))

end TcpConn
end RetroOs.Net
