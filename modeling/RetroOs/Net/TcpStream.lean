import RetroOs.Lib.SeqNum
import RetroOs.Net.TcpConn

/-! What a TCP connection delivers: the peer's byte stream, in order and without gaps, as long as the data it takes
comes from sound segments; and when it believes that the stream is over. -/
namespace RetroOs.Net
open Lib List Nat Segment

namespace Segment

/-- The header length is between that of the shortest header and that of the segment. -/
def WellFormed (g : Segment) : Prop := 20 ≤ g.hdrLen ∧ g.hdrLen ≤ g.len

instance (g : Segment) : Decidable g.WellFormed := inferInstanceAs (Decidable (_ ∧ _))

def payload (g : Segment) : List UInt8 := if g.WellFormed then g.data 0 g.dataLen.toNat else []

/-- The number of the first byte of data: a SYN comes before it. -/
def dataSeq (g : Segment) : UInt32 := if g.has synFlag then g.seq + 1 else g.seq

def finSeq (g : Segment) : UInt32 := seqAt g.dataSeq g.payload.length

/-- Data may be taken from it. -/
def Sound (g : Segment) : Prop := g.WellFormed ∧ g.has synFlag = false

theorem data_length (g : Segment) (start n : Nat) : (g.data start n).length = n := by simp [data, Memory.bytes]

private theorem data_drop (g : Segment) (k n : Nat) : (g.data 0 n).drop k = g.data k (n - k) := by
  apply ext_getElem
  · simp [data_length]
  · intro i h₁ h₂
    simp [data, Memory.bytes, add_assoc]

end Segment

variable {stream : List UInt8} {c d : TcpConn} {t : Tcb} {g : Segment} {e : TcpEvent} {es : List TcpEvent}
  {localIp remoteIp : UInt32} {localPort remotePort : UInt16} {rxBuffer : Option Nat}

/-- The peer's FIN was consumed. -/
def TcpState.AfterFin (s : TcpState) : Prop := s = .closeWait ∨ s = .lastAck ∨ s = .timeWait

instance (s : TcpState) : Decidable s.AfterFin := inferInstanceAs (Decidable (_ ∨ _))

namespace TcpConn

/-- The segment is one of a peer that sends the stream: it holds the bytes at the position, less than a cycle of the
sequence numbers away from the bytes accepted. -/
structure FromPeer (stream : List UInt8) (c : TcpConn) (g : Segment) (pos : Nat) : Prop where
  seq : g.dataSeq = seqAt (c.irs + 1) pos
  bytes : g.payload <+: stream.drop pos
  old : c.accepted.length < pos + 2 ^ 32
  new : pos + g.payload.length < c.accepted.length + 2 ^ 32

structure InOrder (stream : List UInt8) (c : TcpConn) : Prop where
  isPrefix : c.accepted <+: stream
  fits : c.tcb.rx.length ≤ c.tcb.rxCapacity
  next : c.tcb.used = true → c.tcb.state ≠ .synSent →
    c.tcb.rcvNxt = seqAt (c.irs + 1) (c.accepted.length + if c.tcb.state.AfterFin then 1 else 0)

def Peer (stream : List UInt8) (c : TcpConn) : TcpEvent → Prop
  | .segment g => c.tcb.state = .established → ∃ pos, FromPeer stream c g pos
  | _ => True

def SoundData (c : TcpConn) : TcpEvent → Prop
  | .segment g => c.tcb.state = .established → c.tcb.Takes g → g.Sound
  | _ => True

def PeerStep (stream : List UInt8) (c : TcpConn) (e : TcpEvent) (d : TcpConn) : Prop := Peer stream c e ∧ c.exec e = some d

def SoundStep (stream : List UInt8) (c : TcpConn) (e : TcpEvent) (d : TcpConn) : Prop :=
  SoundData c e ∧ PeerStep stream c e d

private theorem fromPeer_of_short {pos : Nat} (hlen : stream.length < 2 ^ 32) (hpre : c.accepted <+: stream)
    (hseq : g.dataSeq = seqAt (c.irs + 1) pos) (hbytes : g.payload <+: stream.drop pos) :
    ∃ pos, FromPeer stream c g pos := by
  have hacc := hpre.length_le
  by_cases hnil : g.payload = []
  · refine ⟨pos % 2 ^ 32, ?_, hnil ▸ nil_prefix, ?_, ?_⟩
    · rw [hseq, seqAt_mod]
    · omega
    · rw [hnil, length_nil]
      omega
  · have hpos := hbytes.length_le
    have hsome := length_pos_iff.mpr hnil
    rw [length_drop] at hpos
    exact ⟨pos, hseq, hbytes, by omega, by omega⟩

theorem FromPeer.takes {pos : Nat} (hp : FromPeer stream c g pos) (hs : g.Sound) (ht : c.tcb.Takes g)
    (hpre : c.accepted <+: stream) (hnext : c.tcb.rcvNxt = seqAt (c.irs + 1) c.accepted.length) :
    c.accepted ++ g.data (c.tcb.overlap g) (g.dataLen.toNat - c.tcb.overlap g) <+: stream := by
  obtain ⟨hwf, hsyn⟩ := hs
  have hpay : g.payload = g.data 0 g.dataLen.toNat := if_pos hwf
  have hseq : g.seq = seqAt (c.irs + 1) pos := by
    have hseq := hp.seq
    rwa [dataSeq, hsyn, if_neg Bool.false_ne_true] at hseq
  have hlen : g.payload.length = g.dataLen.toNat := by rw [hpay, data_length]
  have hdist : (seqAt (c.irs + 1) c.accepted.length - seqAt (c.irs + 1) pos).toNat = c.tcb.overlap g := by
    rw [← hnext, ← hseq, Tcb.overlap]
  have hpos : pos + c.tcb.overlap g = c.accepted.length := by
    apply position_eq hdist hp.old
    have hnew := hp.new
    rw [hlen] at hnew
    exact Nat.lt_trans (Nat.add_lt_add_left ht.2.1 pos) hnew
  obtain ⟨rest, hrest⟩ := hpre
  have hdrop : stream.drop c.accepted.length = rest := by rw [← hrest, drop_left]
  have hdata : g.data (c.tcb.overlap g) (g.dataLen.toNat - c.tcb.overlap g) <+: rest := by
    rw [← data_drop, ← hpay, ← hdrop, ← hpos, ← drop_drop]
    exact hp.bytes.drop _
  rw [← hrest]
  exact (prefix_append_right_inj c.accepted).mpr hdata

/-- The invariant of a connection. -/
structure Inv (stream : List UInt8) (c : TcpConn) : Prop where
  inOrder : InOrder stream c
  fresh : c.tcb.state = .synSent → c.accepted = []

/-- The counters and the buffer of the receiving side are as before. -/
structure SameReceiver (c d : TcpConn) : Prop where
  used : d.tcb.used = true → c.tcb.used = true
  accepted : d.accepted = c.accepted
  fits : d.tcb.rx.length ≤ c.tcb.rx.length
  capacity : d.tcb.rxCapacity = c.tcb.rxCapacity
  irs : d.irs = c.irs
  rcvNxt : d.tcb.rcvNxt = c.tcb.rcvNxt
  synSent : d.tcb.state = .synSent ↔ c.tcb.state = .synSent
  afterFin : d.tcb.state.AfterFin ↔ c.tcb.state.AfterFin

theorem SameReceiver.moved {a b : TcpState} {sent : Nat} (c : TcpConn) (nxt : UInt32) (hst : c.tcb.state = a)
    (hsyn : b = .synSent ↔ a = .synSent) (hfin : b.AfterFin ↔ a.AfterFin) :
    SameReceiver c { c with tcb := { c.tcb with sndNxt := nxt, state := b }, sent := sent } :=
  ⟨id, rfl, le_refl _, rfl, rfl, rfl, hst ▸ hsyn, hst ▸ hfin⟩

theorem SameReceiver.refl (c : TcpConn) (sent : Nat) : SameReceiver c { c with sent } :=
  ⟨id, rfl, Nat.le_refl _, rfl, rfl, rfl, Iff.rfl, Iff.rfl⟩

theorem Inv.same (h : Inv stream c) (hs : SameReceiver c d) : Inv stream d where
  inOrder := by
    refine ⟨hs.accepted ▸ h.inOrder.isPrefix, ?_, ?_⟩
    · rw [hs.capacity]
      exact le_trans hs.fits h.inOrder.fits
    · intro hu hne
      rw [hs.rcvNxt, h.inOrder.next (hs.used hu) fun hc => hne (hs.synSent.mpr hc), hs.irs, hs.accepted]
      simp only [hs.afterFin]
  fresh hsyn := by rw [hs.accepted, h.fresh (hs.synSent.mp hsyn)]

theorem Inv.data (h : Inv stream c) (hu : c.tcb.used = true) (hst : c.tcb.state = .established)
    (hs : c.tcb.Takes g → g.Sound) (hp : ∃ pos, FromPeer stream c g pos)
    (hd : (c.tcb.acknowledge g).receiveData g = some t) :
    Inv stream { c with tcb := t } ∧ t.used = true ∧ t.state = .established := by
  obtain ⟨una, hack⟩ := c.tcb.acknowledge_eq g
  rw [hack] at hd
  obtain ⟨htakes, rfl⟩ | ⟨-, rfl⟩ := Tcb.receiveData_cases hd
  · have htakes : c.tcb.Takes g := htakes
    have hnext := h.inOrder.next hu (by rw [hst]; decide)
    rw [hst, if_neg (by decide), add_zero] at hnext
    obtain ⟨pos, hpos⟩ := hp
    refine ⟨⟨⟨?_, ?_, ?_⟩, ?_⟩, hu, hst⟩
    · have hpre := hpos.takes (hs htakes) htakes h.inOrder.isPrefix hnext
      rwa [accepted, append_assoc] at hpre
    · show (c.tcb.rx ++ _).length ≤ c.tcb.rxCapacity
      rw [length_append, data_length]
      exact htakes.2.2
    · intro _ _
      show c.tcb.rcvNxt + _ = seqAt (c.irs + 1) ((c.delivered ++ (c.tcb.rx ++ _)).length + ite (c.tcb.state.AfterFin) 1 0)
      rw [hst, if_neg (by decide), add_zero, ← append_assoc, length_append, data_length, seqAt_add,
        hnext]
      rfl
    · intro hsyn
      rw [hst] at hsyn
      cases hsyn
  · exact ⟨h.same ⟨id, rfl, Nat.le_refl _, rfl, rfl, rfl, Iff.rfl, Iff.rfl⟩, hu, hst⟩

theorem Inv.fin {next : TcpState} (h : Inv stream c) (hu : c.tcb.used = true) (hst : c.tcb.state ≠ .synSent)
    (hno : ¬ c.tcb.state.AfterFin) (hfin : next.AfterFin) :
    Inv stream { c with tcb := { c.tcb with rcvNxt := c.tcb.rcvNxt + 1, state := next } } where
  inOrder := by
    refine ⟨h.inOrder.isPrefix, h.inOrder.fits, ?_⟩
    intro _ _
    show c.tcb.rcvNxt + 1 = seqAt (c.irs + 1) (c.accepted.length + ite next.AfterFin 1 0)
    rw [if_pos hfin, seqAt_succ, h.inOrder.next hu hst, if_neg hno, add_zero]
  fresh hsyn := by
    have hsyn : next = .synSent := hsyn
    rw [hsyn] at hfin
    exact absurd hfin (by decide)

theorem Inv.segment (h : Inv stream c) (hu : c.tcb.used = true) (hs : SoundData c (.segment g))
    (hp : Peer stream c (.segment g)) (hr : c.tcb.Received g t) :
    Inv stream { c with tcb := t, irs := c.nextIrs (.segment g) } := by
  have hirs : c.tcb.state ≠ .synSent → c.nextIrs (.segment g) = c.irs := fun hne => if_neg hne
  cases hr with
  | opened hst hf =>
    have hnone := h.fresh hst
    have hirs : c.nextIrs (.segment g) = g.seq := if_pos hst
    refine ⟨⟨h.inOrder.isPrefix, h.inOrder.fits, ?_⟩, fun hsyn => nomatch hsyn⟩
    intro _ _
    show g.seq + 1 = seqAt (c.nextIrs (.segment g) + 1) (c.accepted.length + 0)
    rw [hirs, hnone, length_nil, add_zero, seqAt_zero]
  | data hst hd hf =>
    rw [hirs (by rw [hst]; decide)]
    exact (h.data hu hst (hs hst) (hp hst) hd).1
  | @dataFin u hst hd hf =>
    rw [hirs (by rw [hst]; decide)]
    obtain ⟨hinv, hused, hstate⟩ := h.data hu hst (hs hst) (hp hst) hd
    exact hinv.fin (c := { c with tcb := u }) hused (by rw [hstate]; decide) (by rw [hstate]; decide) (.inl rfl)
  | fin hst hf =>
    have hne : c.tcb.state ≠ .synSent := by
      rcases hst with hst | hst
      · rw [hst]
        decide
      · rw [hst]
        decide
    have hno : ¬ c.tcb.state.AfterFin := by
      rcases hst with hst | hst
      · rw [hst]
        decide
      · rw [hst]
        decide
    rw [hirs hne]
    exact h.fin hu hne hno (.inr (.inr rfl))
  | acked hst ha hf =>
    rw [hirs (by rw [hst]; decide)]
    exact h.same (.moved c c.tcb.sndNxt hst (by decide) (by decide))
  | freed hst ha =>
    rw [hirs (by rw [hst]; decide)]
    refine ⟨⟨?_, le_refl _, fun hused => nomatch hused⟩, fun hsyn => nomatch hsyn⟩
    have hpre : c.delivered <+: stream := (prefix_append _ _).trans h.inOrder.isPrefix
    show c.delivered ++ [] <+: stream
    rwa [append_nil]
  | ignored hst =>
    by_cases hsyn : c.tcb.state = .synSent
    · have hnone := h.fresh hsyn
      exact ⟨⟨h.inOrder.isPrefix, h.inOrder.fits, fun _ hne => absurd hsyn hne⟩, fun _ => hnone⟩
    · rw [hirs hsyn]
      exact h

theorem Inv.step (h : Inv stream c) (hstep : SoundStep stream c e d) : Inv stream d := by
  obtain ⟨hs, hp, hexec⟩ := hstep
  obtain ⟨hu, hirs, hsent, out, he, hdel⟩ := exec_cases hexec
  obtain ⟨t, irs, delivered, sent⟩ := d
  obtain rfl : irs = c.nextIrs e := hirs
  obtain rfl : delivered = c.delivered ++ out := hdel
  obtain rfl : sent = c.nextSent e := hsent
  cases e with
  | segment g =>
    obtain ⟨u, hr, he⟩ := Option.map_eq_some_iff.mp he
    cases he
    rw [List.append_nil]
    exact h.segment hu hs hp (Tcb.handle_received hr)
  | send len =>
    obtain ⟨rfl, rfl⟩ := Prod.mk.inj (Option.some.inj he)
    refine h.same ?_
    obtain hsame | ⟨-, hsent⟩ := c.tcb.sendData_eq len
    · rw [hsame, List.append_nil]
      exact .refl c _
    · rw [hsent, List.append_nil]
      exact .moved c _ rfl Iff.rfl Iff.rfl
  | read len =>
    obtain ⟨rfl, rfl⟩ := Prod.mk.inj (Option.some.inj he)
    refine h.same ⟨id, ?_, ?_, rfl, rfl, rfl, Iff.rfl, Iff.rfl⟩
    · simp [accepted]
    · simp
  | close =>
    obtain ⟨rfl, rfl⟩ := Prod.mk.inj (Option.some.inj he)
    refine h.same ?_
    rw [List.append_nil]
    obtain ⟨hsame, -⟩ | ⟨hst, hclosed⟩ | ⟨hst, hclosed⟩ := c.tcb.close_eq
    · rw [hsame]
      exact .refl c _
    · rw [hclosed]
      exact .moved c _ hst (by decide) (by decide)
    · rw [hclosed]
      exact .moved c _ hst (by decide) (by decide)

theorem start_inv : Inv stream (start localIp localPort remoteIp remotePort rxBuffer) := by
  rw [start, Tcb.connect_eq]
  exact ⟨⟨List.nil_prefix, zero_le _, fun _ hne => absurd rfl hne⟩, fun _ => rfl⟩

/-- Over every run of a connection that takes data from sound segments only, in whatever order they come. -/
theorem inOrder_runs (hrun : Trace (SoundStep stream) (start localIp localPort remoteIp remotePort rxBuffer) es c) :
    InOrder stream c := by
  have hinv : Inv stream c := by
    induction hrun with
    | nil => exact start_inv
    | snoc _ hstep ih => exact ih.step hstep
  exact hinv.inOrder

/-- Two segments that overlap, the second of them also too early. -/
theorem overlapping_in_order : ∃ c, Trace (SoundStep [65, 66, 67]) (start 1 80 2 80 (some 0))
    [.segment synAck, .segment (sample 1 0x1001 0x50 0x10 [66, 67] (by decide)),
      .segment (sample 0 0x1001 0x50 0x10 [65, 66] (by decide)), .read 1,
      .segment (sample 1 0x1001 0x50 0x10 [66, 67] (by decide))] c ∧
    InOrder [65, 66, 67] c ∧ c.delivered = [65] ∧ c.tcb.rx = [66, 67] := by
  have hstep : ∀ {c d : TcpConn} {g : Segment} (pos : Nat), (c.accepted <+: [65, 66, 67] ∧ g.dataSeq = seqAt (c.irs + 1) pos ∧
      g.payload <+: [65, 66, 67].drop pos ∧ g.WellFormed ∧ g.has synFlag = false) → c.exec (.segment g) = some d →
      SoundStep [65, 66, 67] c (.segment g) d := by
    rintro c d g pos ⟨hpre, hseq, hbytes, hwf, hsyn⟩ he
    exact ⟨fun _ _ => ⟨hwf, hsyn⟩, fun _ => fromPeer_of_short (by decide) hpre hseq hbytes, he⟩
  have hev : ∃ c₁ ∈ (start 1 80 2 80 (some 0)).exec (.segment synAck),
      ∃ c₂ ∈ c₁.exec (.segment (sample 1 0x1001 0x50 0x10 [66, 67] (by decide))),
      ∃ c₃ ∈ c₂.exec (.segment (sample 0 0x1001 0x50 0x10 [65, 66] (by decide))), ∃ c₄ ∈ c₃.exec (.read 1),
      ∃ c₅ ∈ c₄.exec (.segment (sample 1 0x1001 0x50 0x10 [66, 67] (by decide))),
      (c₁.accepted = [] ∧ c₂.accepted = [] ∧ c₄.accepted = [65, 66] ∧ c₁.irs + 1 = 0 ∧ c₂.irs + 1 = 0 ∧ c₄.irs + 1 = 0) ∧
        c₅.delivered = [65] ∧ c₅.tcb.rx = [66, 67] := by decide +kernel
  obtain ⟨c₁, h₁, c₂, h₂, c₃, h₃, c₄, h₄, c₅, h₅, ⟨ha₁, ha₂, ha₄, hi₁, hi₂, hi₄⟩, hdel, hrx⟩ := hev
  have s₁ : SoundStep [65, 66, 67] (start 1 80 2 80 (some 0)) (.segment synAck) c₁ :=
    ⟨fun hst => absurd hst (by decide), fun hst => absurd hst (by decide), h₁⟩
  have s₂ := hstep 1 (by rw [ha₁, hi₁]; decide) h₂
  have s₃ := hstep 0 (by rw [ha₂, hi₂]; decide) h₃
  have s₄ : SoundStep [65, 66, 67] c₃ (.read 1) c₄ := ⟨trivial, trivial, h₄⟩
  have s₅ := hstep 1 (by rw [ha₄, hi₄]; decide) h₅
  have hrun := ((((Trace.nil.snoc s₁).snoc s₂).snoc s₃).snoc s₄).snoc s₅
  exact ⟨c₅, hrun, inOrder_runs hrun, hdel, hrx⟩

/-- A data offset of 0 makes data of the header. -/
theorem header_delivered : ∃ c, Trace (PeerStep []) (start 1 80 2 80 (some 0))
    [.segment synAck, .segment (sample 0 0x1001 0 0x10 [] (by decide))] c ∧ ¬ InOrder [] c := by
  have hev : ∃ c₁ ∈ (start 1 80 2 80 (some 0)).exec (.segment synAck),
      ∃ c₂ ∈ c₁.exec (.segment (sample 0 0x1001 0 0x10 [] (by decide))), c₁.irs = 0xFFFFFFFF ∧ c₁.accepted = [] ∧ 
        c₂.accepted.length = 20 := by decide
  obtain ⟨c₁, h₁, c₂, h₂, hirs, hacc, hlen⟩ := hev
  have s₁ : PeerStep [] (start 1 80 2 80 (some 0)) (.segment synAck) c₁ := ⟨fun hst => absurd hst (by decide), h₁⟩
  have s₂ : PeerStep [] c₁ (.segment (sample 0 0x1001 0 0x10 [] (by decide))) c₂ := by
    have hseq : (sample 0 0x1001 0 0x10 [] (by decide)).dataSeq = seqAt (c₁.irs + 1) 0 := by
      rw [hirs]
      decide
    exact ⟨fun _ => fromPeer_of_short (by decide) (by rw [hacc]) hseq (by decide), h₂⟩
  refine ⟨c₂, (Trace.nil.snoc s₁).snoc s₂, ?_⟩
  intro h
  have hnil := h.isPrefix.length_le
  rw [hlen] at hnil
  exact absurd hnil (by decide)

end TcpConn
end RetroOs.Net
