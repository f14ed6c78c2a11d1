import RetroOs.Net.TcpStream

/-! The end of the peer's stream: when a TCP connection consumes a FIN. -/
namespace RetroOs.Net
open Lib List Segment

variable {stream : List UInt8} {c d : TcpConn} {t u : Tcb} {g : Segment} {e : TcpEvent} {es : List TcpEvent}
  {localIp remoteIp : UInt32} {localPort remotePort : UInt16} {rxBuffer : Option Nat}

/-- The states in which a FIN is looked for. -/
def TcpState.Receiving (s : TcpState) : Prop := s = .established ∨ s = .finWait1 ∨ s = .finWait2

instance (s : TcpState) : Decidable s.Receiving := inferInstanceAs (Decidable (_ ∨ _))

namespace Tcb

def Consumed (t u : Tcb) : Prop := ¬ t.state.AfterFin ∧ u.state.AfterFin

instance (t u : Tcb) : Decidable (t.Consumed u) := inferInstanceAs (Decidable (_ ∧ _))

structure FinInOrder (t : Tcb) (g : Segment) (u : Tcb) : Prop where
  position : t.Consumed u → g.has finFlag = true ∧ g.finSeq = seqAt t.rcvNxt (u.rx.length - t.rx.length)
  counted : u.rcvNxt = seqAt t.rcvNxt ((u.rx.length - t.rx.length) + if t.Consumed u then 1 else 0)

/-- The data before the FIN is taken with it, or was before. -/
def FinFits (t : Tcb) (g : Segment) : Prop :=
  g.has finFlag = true → t.state.Receiving →
    (t.state = .established ∧ t.Takes g ∧ g.Sound) ∨ (¬ (t.state = .established ∧ t.Takes g) ∧ g.finSeq = t.rcvNxt)

theorem Takes.finSeq (h : t.Takes g) (hs : g.Sound) : g.finSeq = seqAt t.rcvNxt (g.dataLen.toNat - t.overlap g) := by
  obtain ⟨hwf, hsyn⟩ := hs
  have hlen : g.payload.length = g.dataLen.toNat := by rw [payload, if_pos hwf, data_length]
  have hnxt : t.rcvNxt = seqAt g.seq (t.overlap g) := by
    rw [seqAt, overlap, UInt32.ofNat_toNat]
    simp
  rw [Segment.finSeq, hlen, Segment.dataSeq, hsyn, if_neg Bool.false_ne_true, hnxt, ← seqAt_seqAt,
    Nat.add_sub_cancel' (Nat.le_of_lt h.2.1)]

theorem receiveData_counted (hst : t.state = .established) (hd : (t.acknowledge g).receiveData g = some u) :
    u.rcvNxt = seqAt t.rcvNxt (u.rx.length - t.rx.length) ∧ u.state = .established ∧
      (t.FinFits g → g.has finFlag = true → g.finSeq = u.rcvNxt) := by
  obtain ⟨una, hack⟩ := t.acknowledge_eq g
  rw [hack] at hd
  obtain ⟨htakes, rfl⟩ | ⟨hno, rfl⟩ := receiveData_cases hd
  · have htakes : t.Takes g := htakes
    have hlen : (t.rx ++ g.data (t.overlap g) (g.dataLen.toNat - t.overlap g)).length - t.rx.length =
        g.dataLen.toNat - t.overlap g := by
      rw [length_append, data_length, Nat.add_sub_cancel_left]
    refine ⟨?_, hst, ?_⟩
    · show t.rcvNxt + _ = seqAt t.rcvNxt ((t.rx ++ _).length - t.rx.length)
      exact congrArg (seqAt t.rcvNxt) hlen.symm
    · intro hfit hf
      obtain ⟨-, -, hs⟩ | ⟨hno, -⟩ := hfit hf (.inl hst)
      · exact htakes.finSeq hs
      · exact absurd ⟨hst, htakes⟩ hno
  · have hno : ¬ t.Takes g := hno
    refine ⟨by simp, hst, ?_⟩
    intro hfit hf
    obtain ⟨-, htakes, -⟩ | ⟨-, hfin⟩ := hfit hf (.inl hst)
    · exact absurd htakes hno
    · exact hfin

theorem Received.finInOrder (hr : t.Received g u) (hne : t.state ≠ .synSent) (hu : u.used = true) (hfit : t.FinFits g) :
    t.FinInOrder g u := by
  have hopen : ∀ v : Tcb, ¬ v.state.AfterFin → v.rcvNxt = seqAt t.rcvNxt (v.rx.length - t.rx.length) → t.FinInOrder g v := by
    intro v hno hnxt
    have hcon : ¬ t.Consumed v := fun hc => hno hc.2
    exact ⟨fun hc => absurd hc hcon, by rw [if_neg hcon]; exact hnxt⟩
  have hfin : ∀ (v : Tcb) (next : TcpState), ¬ t.state.AfterFin → next.AfterFin → g.has finFlag = true →
      v.rcvNxt = seqAt t.rcvNxt (v.rx.length - t.rx.length) → g.finSeq = v.rcvNxt →
      t.FinInOrder g { v with rcvNxt := v.rcvNxt + 1, state := next } := by
    intro v next hno hnext hf hnxt hpos
    have hcon : t.Consumed { v with rcvNxt := v.rcvNxt + 1, state := next } := ⟨hno, hnext⟩
    refine ⟨fun _ => ⟨hf, hpos.trans hnxt⟩, ?_⟩
    rw [if_pos hcon, seqAt_succ]
    exact congrArg (· + 1) hnxt
  cases hr with
  | opened hst hf => exact absurd hst hne
  | data hst hd hf =>
    obtain ⟨hnxt, hstate, -⟩ := receiveData_counted hst hd
    exact hopen u (by rw [hstate]; decide) hnxt
  | @dataFin v hst hd hf =>
    obtain ⟨hnxt, -, hpos⟩ := receiveData_counted hst hd
    exact hfin v .closeWait (by rw [hst]; decide) (.inl rfl) hf hnxt (hpos hfit hf)
  | fin hst hf =>
    have hrec : t.state.Receiving := .inr hst
    have hno : ¬ t.state.AfterFin ∧ t.state ≠ .established := by
      rcases hst with hst | hst
      · rw [hst]
        decide
      · rw [hst]
        decide
    obtain ⟨hest, -⟩ | ⟨-, hpos⟩ := hfit hf hrec
    · exact absurd hest hno.2
    · exact hfin t .timeWait hno.1 (.inr (.inr rfl)) hf (by simp) hpos
  | acked hst ha hf =>
    have hno : ¬ TcpState.finWait2.AfterFin := by decide
    exact hopen _ hno (by simp)
  | freed hst ha => cases hu
  | ignored hst =>
    have hcon : ¬ t.Consumed t := fun hc => hc.1 hc.2
    exact ⟨fun hc => absurd hc hcon, by rw [if_neg hcon]; simp⟩

theorem Received.rx_grows (hr : t.Received g u) (hu : u.used = true) : t.rx <+: u.rx := by
  have hdata : ∀ {v : Tcb}, (t.acknowledge g).receiveData g = some v → t.rx <+: v.rx := by
    intro v hd
    obtain ⟨una, hack⟩ := t.acknowledge_eq g
    rw [hack] at hd
    obtain ⟨-, rfl⟩ | ⟨-, rfl⟩ := receiveData_cases hd
    · exact prefix_append ..
    · exact prefix_refl t.rx
  cases hr with
  | opened => exact prefix_refl t.rx
  | data _ hd => exact hdata hd
  | dataFin _ hd =>
    have hgrow := hdata hd
    exact hgrow
  | fin => exact prefix_refl t.rx
  | acked => exact prefix_refl t.rx
  | freed => cases hu
  | ignored => exact prefix_refl t.rx

theorem Received.consumed (hr : t.Received g u) (hc : t.Consumed u) : t.state.Receiving ∧ g.has finFlag = true := by
  obtain ⟨hno, hafter⟩ := hc
  cases hr with
  | opened => exact absurd hafter (show ¬ TcpState.established.AfterFin by decide)
  | data hst hd =>
    rw [(receiveData_counted hst hd).2.1] at hafter
    exact absurd hafter (by decide)
  | dataFin hst _ hf => exact ⟨.inl hst, hf⟩
  | fin hst hf => exact ⟨.inr hst, hf⟩
  | acked => exact absurd hafter (show ¬ TcpState.finWait2.AfterFin by decide)
  | freed => exact absurd hafter (by decide)
  | ignored => exact absurd hafter hno

end Tcb

namespace TcpConn

def PeerFin (stream : List UInt8) (c : TcpConn) : TcpEvent → Prop
  | .segment g => c.tcb.state.Receiving → g.has finFlag = true →
      ∃ pos, FromPeer stream c g pos ∧ pos + g.payload.length = stream.length
  | _ => True

def FinEventFits (c : TcpConn) : TcpEvent → Prop
  | .segment g => c.tcb.FinFits g
  | _ => True

def StreamStep (stream : List UInt8) (c : TcpConn) (e : TcpEvent) (d : TcpConn) : Prop :=
  PeerFin stream c e ∧ PeerStep stream c e d

def FinStep (stream : List UInt8) (c : TcpConn) (e : TcpEvent) (d : TcpConn) : Prop :=
  SoundData c e ∧ FinEventFits c e ∧ StreamStep stream c e d

structure Ended (stream : List UInt8) (c : TcpConn) (e : TcpEvent) (d : TcpConn) : Prop where
  inOrder : ∀ g, e = .segment g → c.tcb.state ≠ .synSent → d.tcb.used = true → c.tcb.FinInOrder g d.tcb
  complete : d.tcb.used = true → d.tcb.state.AfterFin → d.accepted = stream

theorem FinStep.sound (h : FinStep stream c e d) : SoundStep stream c e d := ⟨h.1, h.2.2.2⟩

theorem FromPeer.complete {pos : Nat} (hp : FromPeer stream c g pos) (hend : pos + g.payload.length = stream.length)
    (hacc : c.accepted <+: d.accepted) (hpre : d.accepted <+: stream)
    (hfin : g.finSeq = seqAt (c.irs + 1) d.accepted.length) : d.accepted = stream := by
  rw [finSeq, hp.seq, ← seqAt_seqAt, hend] at hfin
  have hle := hpre.length_le
  have hgrow := hacc.length_le
  have hnew := hp.new
  rw [hend] at hnew
  apply hpre.eq_of_length
  have hdist : (seqAt (c.irs + 1) stream.length - seqAt (c.irs + 1) d.accepted.length).toNat = 0 := by
    rw [hfin, UInt32.sub_self]
    rfl
  exact position_eq hdist (by omega) (by omega)

private theorem accepted_grows (he : c.exec e = some d) (hu : d.tcb.used = true) : c.accepted <+: d.accepted := by
  obtain ⟨-, -, -, out, he, hdel⟩ := exec_cases he
  rw [accepted, accepted, hdel]
  cases e with
  | segment g =>
    obtain ⟨t, hr, he⟩ := Option.map_eq_some_iff.mp he
    cases he
    rw [append_nil]
    exact (prefix_append_right_inj c.delivered).mpr ((Tcb.handle_received hr).rx_grows hu)
  | send len =>
    obtain ⟨ht, rfl⟩ := Prod.mk.inj (Option.some.inj he)
    rw [← ht, append_nil]
    obtain hsame | ⟨-, hsent⟩ := c.tcb.sendData_eq len
    · rw [hsame]
    · rw [hsent]
  | read len =>
    obtain ⟨ht, rfl⟩ := Prod.mk.inj (Option.some.inj he)
    rw [← ht, append_assoc]
    rw [take_append_drop]
  | close =>
    obtain ⟨ht, rfl⟩ := Prod.mk.inj (Option.some.inj he)
    rw [← ht, append_nil]
    obtain ⟨hsame, -⟩ | ⟨-, hclosed⟩ | ⟨-, hclosed⟩ := c.tcb.close_eq
    · rw [hsame]
    · rw [hclosed]
    · rw [hclosed]

private theorem exec_consumed (he : c.exec e = some d) (hc : c.tcb.Consumed d.tcb) :
    ∃ g, e = .segment g ∧ c.tcb.Received g d.tcb ∧ d.irs = c.irs := by
  obtain ⟨-, hirs, -, out, he, -⟩ := exec_cases he
  cases e with
  | segment g =>
    obtain ⟨t, hr, he⟩ := Option.map_eq_some_iff.mp he
    obtain ⟨rfl, -⟩ := Prod.mk.inj he
    have hr := Tcb.handle_received hr
    refine ⟨g, rfl, hr, hirs.trans (if_neg ?_)⟩
    intro hsyn
    have hrec := (hr.consumed hc).1
    rw [hsyn] at hrec
    exact absurd hrec (by decide)
  | send len =>
    obtain ⟨ht, -⟩ := Prod.mk.inj (Option.some.inj he)
    rw [← ht] at hc
    obtain hsame | ⟨-, hsent⟩ := c.tcb.sendData_eq len
    · rw [hsame] at hc
      exact absurd hc.2 hc.1
    · rw [hsent] at hc
      exact absurd hc.2 hc.1
  | read len =>
    obtain ⟨ht, -⟩ := Prod.mk.inj (Option.some.inj he)
    rw [← ht] at hc
    exact absurd hc.2 hc.1
  | close =>
    obtain ⟨ht, -⟩ := Prod.mk.inj (Option.some.inj he)
    rw [← ht] at hc
    obtain ⟨hsame, -⟩ | ⟨-, hclosed⟩ | ⟨hst, -⟩ := c.tcb.close_eq
    · rw [hsame] at hc
      exact absurd hc.2 hc.1
    · rw [hclosed] at hc
      exact absurd hc.2 (show ¬ TcpState.finWait1.AfterFin by decide)
    · rw [Tcb.Consumed, hst] at hc
      exact absurd hc.1 (by decide)

theorem Inv.ended (h : Inv stream c) (hdone : c.tcb.used = true → c.tcb.state.AfterFin → c.accepted = stream)
    (hstep : FinStep stream c e d) : Ended stream c e d := by
  have hinv := h.step hstep.sound
  obtain ⟨-, hfits, hfin, -, he⟩ := hstep
  obtain ⟨hused, -, -, out, hexec, -⟩ := exec_cases he
  refine ⟨?_, ?_⟩
  · rintro g rfl hne hu
    obtain ⟨t, hr, heq⟩ := Option.map_eq_some_iff.mp hexec
    obtain ⟨rfl, -⟩ := Prod.mk.inj heq
    exact (Tcb.handle_received hr).finInOrder hne hu hfits
  · intro hu hafter
    by_cases hbefore : c.tcb.state.AfterFin
    · have hgrow := accepted_grows he hu
      rw [hdone hused hbefore] at hgrow
      exact hinv.inOrder.isPrefix.eq_of_length (Nat.le_antisymm hinv.inOrder.isPrefix.length_le hgrow.length_le)
    · have hc : c.tcb.Consumed d.tcb := ⟨hbefore, hafter⟩
      obtain ⟨g, rfl, hr, hirs⟩ := exec_consumed he hc
      obtain ⟨hrec, hf⟩ := hr.consumed hc
      obtain ⟨pos, hp, hend⟩ := hfin hrec hf
      have hne : c.tcb.state ≠ .synSent := by
        intro hsyn
        rw [hsyn] at hrec
        exact absurd hrec (by decide)
      obtain ⟨hpos, hcount⟩ := hr.finInOrder hne hu hfits
      have hnext := hinv.inOrder.next hu (by
        intro hsyn
        rw [hsyn] at hafter
        exact absurd hafter (by decide))
      rw [if_pos hafter, hirs, hcount, if_pos hc, seqAt_succ, seqAt_succ] at hnext
      apply hp.complete hend (accepted_grows he hu) hinv.inOrder.isPrefix
      rw [(hpos hc).2]
      exact add_right_cancel hnext

/-- In every run of a connection whose FINs fit: each step handles FINs in order, and a connection that is behind the
peer's FIN has accepted the whole stream. -/
theorem ended_runs (hrun : Trace (FinStep stream) (start localIp localPort remoteIp remotePort rxBuffer) es c)
    (hstep : FinStep stream c e d) : Ended stream c e d := by
  suffices hinv : Inv stream c ∧ (c.tcb.used = true → c.tcb.state.AfterFin → c.accepted = stream) from
    hinv.1.ended hinv.2 hstep
  clear hstep
  induction hrun with
  | nil =>
    refine ⟨start_inv, ?_⟩
    intro _ hafter
    rw [start, Tcb.connect_eq] at hafter
    exact absurd hafter (show ¬ TcpState.synSent.AfterFin by decide)
  | snoc _ hs ih => exact ⟨ih.1.step hs.sound, (ih.1.ended ih.2 hs).complete⟩

theorem fin_with_data : ∃ c d, Trace (FinStep [65, 66]) (start 1 80 2 80 (some 0)) [.segment synAck] c ∧
    FinStep [65, 66] c (.segment (sample 0 0x1001 0x50 0x11 [65, 66] (by decide))) d ∧
    Ended [65, 66] c (.segment (sample 0 0x1001 0x50 0x11 [65, 66] (by decide))) d ∧ d.tcb.state = .closeWait := by
  have hev : ∃ c ∈ (start 1 80 2 80 (some 0)).exec (.segment synAck),
      ∃ d ∈ c.exec (.segment (sample 0 0x1001 0x50 0x11 [65, 66] (by decide))),
      (c.accepted = [] ∧ c.irs + 1 = 0 ∧ c.tcb.state = .established ∧
        c.tcb.Takes (sample 0 0x1001 0x50 0x11 [65, 66] (by decide))) ∧ d.tcb.state = .closeWait := by decide +kernel
  obtain ⟨c, h₁, d, h₂, ⟨hacc, hirs, hst, htakes⟩, hclosed⟩ := hev
  have hsound : (sample 0 0x1001 0x50 0x11 [65, 66] (by decide)).Sound := ⟨by decide, by decide⟩
  have hpeer : FromPeer [65, 66] c (sample 0 0x1001 0x50 0x11 [65, 66] (by decide)) 0 := by
    refine ⟨?_, by decide, ?_, ?_⟩
    · rw [hirs]
      decide
    · rw [hacc]
      decide
    · rw [hacc]
      decide
  have s₁ : FinStep [65, 66] (start 1 80 2 80 (some 0)) (.segment synAck) c :=
    ⟨fun hst => absurd hst (by decide), fun hf => absurd hf (by decide), fun hst => absurd hst (by decide),
      fun hst => absurd hst (by decide), h₁⟩
  have s₂ : FinStep [65, 66] c (.segment (sample 0 0x1001 0x50 0x11 [65, 66] (by decide))) d :=
    ⟨fun _ _ => hsound, fun _ _ => .inl ⟨hst, htakes, hsound⟩, fun _ _ => ⟨0, hpeer, by decide⟩, fun _ => ⟨0, hpeer⟩, h₂⟩
  exact ⟨c, d, Trace.nil.snoc s₁, s₂, ended_runs (Trace.nil.snoc s₁) s₂, hclosed⟩

/-- A FIN behind a gap in the stream is taken. -/
theorem early_fin_consumed : ∃ c d, Trace (StreamStep [65, 66]) (start 1 80 2 80 (some 0)) [.segment synAck] c ∧
    StreamStep [65, 66] c (.segment (sample 1 0x1001 0x50 0x11 [66] (by decide))) d ∧
    ¬ Ended [65, 66] c (.segment (sample 1 0x1001 0x50 0x11 [66] (by decide))) d := by
  have hev : ∃ c ∈ (start 1 80 2 80 (some 0)).exec (.segment synAck),
      ∃ d ∈ c.exec (.segment (sample 1 0x1001 0x50 0x11 [66] (by decide))),
      (c.accepted = [] ∧ c.irs + 1 = 0) ∧ d.tcb.used = true ∧ d.tcb.state = .closeWait ∧ d.accepted = [] := by decide +kernel
  obtain ⟨c, h₁, d, h₂, ⟨hacc, hirs⟩, hused, hclosed, hnone⟩ := hev
  have hpeer : FromPeer [65, 66] c (sample 1 0x1001 0x50 0x11 [66] (by decide)) 1 := by
    refine ⟨?_, by decide, ?_, ?_⟩
    · rw [hirs]
      decide
    · rw [hacc]
      decide
    · rw [hacc]
      decide
  have s₁ : StreamStep [65, 66] (start 1 80 2 80 (some 0)) (.segment synAck) c :=
    ⟨fun hst => absurd hst (by decide), fun hst => absurd hst (by decide), h₁⟩
  refine ⟨c, d, Trace.nil.snoc s₁, ⟨fun _ _ => ⟨1, hpeer, by decide⟩, fun _ => ⟨1, hpeer⟩, h₂⟩, ?_⟩
  intro h
  have hall := h.complete hused (.inl hclosed)
  rw [hnone] at hall
  cases hall

end TcpConn
end RetroOs.Net
