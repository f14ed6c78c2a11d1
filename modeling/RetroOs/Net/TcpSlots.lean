import RetroOs.Lib.Allotment
import RetroOs.Net.TcpTable

/-! When the slots of the TCP table and their receive buffers are released. -/
namespace RetroOs.Net
open Lib Function Tcb List Option Segment

/-- The receive buffers are those of the slots in use, each of one slot. -/
def Tcp.Owned (s : Tcp) : Prop :=
  Allotted (· ∈ s.buffers) (fun i => (s.table i).used = true) fun i => (s.table i).rxBuffer.toList

namespace TcpRun

variable {s t : TcpRun} {u : Tcp} {i j : Nat} {g : Segment} {call : TcpCall} {calls : List TcpCall} {e : TcpEvent}
  {v : Tcb} {localIp ownIp remoteIp : UInt32} {localPort remotePort : UInt16} {rxBuffer : Option Nat}

def isClose : TcpEvent → Bool
  | .close => true
  | _ => false

private theorem any_isClose (l : List TcpEvent) : l.any isClose = true ↔ .close ∈ l := by
  rw [List.any_eq_true]
  constructor
  · rintro ⟨e, he, hc⟩
    cases e with
    | close => exact he
    | segment | send | read => cases hc
  · exact fun h => ⟨.close, h, rfl⟩

instance (l : List TcpEvent) : Decidable (.close ∈ l) := decidable_of_iff _ (any_isClose l)

/-- The application has closed the connection, and it was never established or its closing exchange is over. -/
def Done (s : TcpRun) (i : Nat) : Prop :=
  .close ∈ s.log i ∧ ((s.table i).state = .synSent ∨ (s.table i).state = .timeWait ∨ s.reset i = true)

instance (s : TcpRun) (i : Nat) : Decidable (s.Done i) := inferInstanceAs (Decidable (_ ∧ _))

/-- A connection that needs its slot. -/
def InUse (s : TcpRun) (i : Nat) : Prop := (s.table i).used = true ∧ ¬ s.Done i

instance (s : TcpRun) (i : Nat) : Decidable (s.InUse i) := inferInstanceAs (Decidable (_ ∧ _))

structure Released (s : TcpRun) : Prop where
  slots : ∀ i, (s.table i).used = true → s.InUse i
  buffers : s.toTcp.Owned

/-- The closing exchange begins in `CLOSE_WAIT` or does not come to its end: the application closes connections that were
established and not reset, no FIN comes in `FIN_WAIT_1` and `FIN_WAIT_2`, and no reset that does not end `LAST_ACK`. -/
def Clean (s : TcpRun) : TcpCall → Prop
  | .packet g => ∀ i ∈ s.toTcp.find g,
      ((s.table i).state = .finWait1 ∨ (s.table i).state = .finWait2 → g.has finFlag = false) ∧
        (.close ∈ s.log i → (s.table i).resets (.segment g) = true →
          (s.table i).state = .lastAck ∧ g.has ackFlag = true)
  | .close i => (s.table i).used = true → (s.table i).state ≠ .synSent ∧ s.reset i = false
  | _ => True

instance (s : TcpRun) : (call : TcpCall) → Decidable (Clean s call)
  | .packet g => inferInstanceAs (Decidable (∀ i ∈ s.toTcp.find g, _ ∧ _))
  | .close _ => inferInstanceAs (Decidable (_ → _))
  | .connect .. | .send _ _ | .read _ _ => .isTrue trivial

/-- `kmalloc` gives a buffer that is not in use. -/
def Fresh (s : TcpRun) : TcpCall → Prop
  | .connect _ _ _ _ _ rxBuffer => ∀ p ∈ rxBuffer, p ∉ s.buffers
  | _ => True

instance (s : TcpRun) : (call : TcpCall) → Decidable (Fresh s call)
  | .connect _ _ _ _ _ rxBuffer => inferInstanceAs (Decidable (∀ p ∈ rxBuffer, p ∉ s.buffers))
  | .packet _ | .send _ _ | .read _ _ | .close _ => .isTrue trivial

def Step (s : TcpRun) (call : TcpCall) (t : TcpRun) : Prop := Fresh s call ∧ s.exec call = some t

def CleanStep (s : TcpRun) (call : TcpCall) (t : TcpRun) : Prop := Clean s call ∧ Step s call t

structure SlotInv (s : TcpRun) (i : Nat) : Prop where
  live : (s.table i).state = .synSent ∨ (s.table i).state = .established ∨ (s.table i).state = .closeWait ∨
    (s.table i).state = .finWait1 ∨ (s.table i).state = .finWait2 ∨ (s.table i).state = .lastAck
  closing : .close ∈ s.log i →
    ((s.table i).state = .finWait1 ∨ (s.table i).state = .finWait2 ∨ (s.table i).state = .lastAck) ∧ s.reset i = false

theorem SlotInv.inUse (h : SlotInv s i) (hu : (s.table i).used = true) : s.InUse i := by
  refine ⟨hu, ?_⟩
  rintro ⟨hclose, hdone⟩
  obtain ⟨hstate, hreset⟩ := h.closing hclose
  obtain hsyn | htime | hyes := hdone
  · rw [hsyn] at hstate
    exact absurd hstate (by decide)
  · rw [htime] at hstate
    exact absurd hstate (by decide)
  · rw [hreset] at hyes
    cases hyes

theorem SlotInv.congr (h : SlotInv s i) (ht : t.table i = s.table i) (hl : t.log i = s.log i) (hr : t.reset i = s.reset i) :
    SlotInv t i := by
  refine ⟨?_, ?_⟩
  · rw [ht]
    exact h.live
  · rw [ht, hl, hr]
    exact h.closing

theorem SlotInv.other (h : SlotInv s j) (hji : j ≠ i) (ht : u.table = update s.table i v) :
    SlotInv (s.record i e u) j := by
  refine h.congr ?_ (update_of_ne hji ..) (update_of_ne hji ..)
  rw [record, ht]
  exact update_of_ne hji ..

theorem SlotInv.keep (h : SlotInv s i) (hne : e ≠ .close) (hno : (s.table i).resets e = false)
    (ht : u.table = update s.table i v) (hst : v.state = (s.table i).state) : SlotInv (s.record i e u) i := by
  have htable : (s.record i e u).table i = v := by rw [record, ht, update_self]
  have hreset : (s.record i e u).reset i = s.reset i := by rw [record_reset, hno, Bool.or_false]
  refine ⟨?_, ?_⟩
  · rw [htable, hst]
    exact h.live
  · rw [htable, hst, record_log, hreset, mem_append, mem_singleton]
    intro hclose
    exact h.closing (hclose.resolve_right hne.symm)

theorem SlotInv.close (h : SlotInv s i) (hc : (s.table i).state ≠ .synSent ∧ s.reset i = false)
    (ht : u.table = update s.table i (s.table i).close) : SlotInv (s.record i .close u) i := by
  have htable : (s.record i .close u).table i = (s.table i).close := by rw [record, ht, update_self]
  have hreset : (s.record i .close u).reset i = false := by
    rw [record_reset, hc.2]
    rfl
  have hstate : (s.table i).close.state = .finWait1 ∨ (s.table i).close.state = .finWait2 ∨
      (s.table i).close.state = .lastAck := by
    obtain ⟨hsame, hno⟩ | ⟨-, hclosed⟩ | ⟨-, hclosed⟩ := (s.table i).close_eq
    · rw [hsame]
      rcases h.live with hsyn | hest | hwait | hrest
      · exact absurd hsyn hc.1
      · exact absurd (.inl hest) hno
      · exact absurd (.inr hwait) hno
      · exact hrest
    · rw [hclosed]
      exact .inl rfl
    · rw [hclosed]
      exact .inr (.inr rfl)
  refine ⟨?_, ?_⟩
  · rw [htable]
    exact .inr (.inr (.inr hstate))
  · rw [htable, hreset]
    exact fun _ => ⟨hstate, rfl⟩

theorem SlotInv.packet (h : SlotInv s i)
    (hfin : (s.table i).state = .finWait1 ∨ (s.table i).state = .finWait2 → g.has finFlag = false)
    (hreset : .close ∈ s.log i → (s.table i).resets (.segment g) = true →
      (s.table i).state = .lastAck ∧ g.has ackFlag = true)
    (hv : (s.table i).handle g = some v) (hu : v.used = true) (ht : u.table = update s.table i v) :
    SlotInv (s.record i (.segment g) u) i := by
  have htable : (s.record i (.segment g) u).table i = v := by rw [record, ht, update_self]
  have hlog : .close ∈ (s.record i (.segment g) u).log i → .close ∈ s.log i := by
    rw [record_log, mem_append, mem_singleton]
    exact fun hc => hc.resolve_right (fun hc => nomatch hc)
  have hkeep : .close ∈ s.log i → (s.record i (.segment g) u).reset i = false := by
    intro hclose
    rw [record_reset, (h.closing hclose).2, Bool.false_or]
    apply Bool.eq_false_of_not_eq_true
    intro hres
    obtain ⟨hlast, hack⟩ := hreset hclose hres
    rw [handle, hlast] at hv
    cases hv
    rw [if_pos hack] at hu
    cases hu
  -- Only connections that the application has not closed are opened or get data.
  have hopen : (s.table i).state = .synSent ∨ (s.table i).state = .established → .close ∉ s.log i := by
    intro hst hclose
    have hstate := (h.closing hclose).1
    rcases hst with hst | hst
    · rw [hst] at hstate
      exact absurd hstate (by decide)
    · rw [hst] at hstate
      exact absurd hstate (by decide)
  cases handle_received hv with
  | opened hst =>
    refine ⟨?_, fun hc => absurd (hlog hc) (hopen (.inl hst))⟩
    rw [htable]
    exact .inr (.inl rfl)
  | data hst hd =>
    refine ⟨?_, fun hc => absurd (hlog hc) (hopen (.inr hst))⟩
    rw [htable, (receiveData_frame hd).2.2.1]
    exact .inr (.inl hst)
  | dataFin hst hd =>
    refine ⟨?_, fun hc => absurd (hlog hc) (hopen (.inr hst))⟩
    rw [htable]
    exact .inr (.inr (.inl rfl))
  | fin hst hf =>
    rw [hfin hst] at hf
    cases hf
  | acked hst =>
    refine ⟨?_, fun hc => ⟨?_, hkeep (hlog hc)⟩⟩
    · rw [htable]
      exact .inr (.inr (.inr (.inr (.inl rfl))))
    · rw [htable]
      exact .inr (.inl rfl)
  | freed => cases hu
  | ignored =>
    refine ⟨?_, fun hc => ⟨?_, hkeep (hlog hc)⟩⟩
    · rw [htable]
      exact h.live
    · rw [htable]
      exact (h.closing (hlog hc)).1

theorem owned_setTcb {s : Tcp} (h : s.Owned) (hu : v.used = (s.table i).used)
    (hb : v.rxBuffer = (s.table i).rxBuffer) : (s.setTcb i v).Owned := by
  have hcase : ∀ {α : Type} (f : Tcb → α), f v = f (s.table i) → ∀ j, f ((s.setTcb i v).table j) = f (s.table j) := by
    intro α f hf j
    by_cases hji : j = i
    · simp [Tcp.setTcb, hji, hf]
    · simp [Tcp.setTcb, hji]
  apply Allotted.congr h (fun _ => Iff.rfl)
  · intro j
    rw [hcase _ hu]
  · intro j _
    rw [hcase _ hb]

private theorem owned_free {s : Tcp} (h : s.Owned) : (s.freeTcb i).Owned := by
  rw [Tcp.freeTcb]
  split
  · next hu =>
    apply Allotted.remove h hu
    · intro a
      cases hb : (s.table i).rxBuffer with
      | none => simp
      | some p => simp [and_comm]
    · intro j
      by_cases hji : j = i
      · simp [hji, zero]
      · simp [hji]
    · intro j _ hji
      simp [hji]
  · exact h

private theorem owned_handle {s : Tcp} (h : s.Owned) (e : s.handle i g = some u) : u.Owned := by
  obtain ⟨v, hv, rfl⟩ := map_eq_some_iff.mp e
  split
  · exact owned_free h
  · next hno =>
    obtain ⟨hlast, hack, -⟩ | ⟨hu, hb⟩ := (handle_received hv).frame
    · exact absurd ⟨hlast, hack⟩ hno
    · exact owned_setTcb h hu hb

private theorem owned_connect {s : Tcp}
    (h : s.Owned) (hfresh : ∀ p ∈ rxBuffer, p ∉ s.buffers)
    (e : s.connect ownIp localIp localPort remoteIp remotePort rxBuffer = some (u, i)) : u.Owned := by
  obtain ⟨i', hfree, he⟩ := Option.map_eq_some_iff.mp e
  obtain ⟨rfl, rfl⟩ := Prod.mk.inj he
  have hno : (s.table i').used ≠ true := by
    have hfree := List.find?_some hfree
    rw [Bool.not_eq_true'] at hfree
    rw [hfree]
    exact Bool.false_ne_true
  have hadd : Allotted (· ∈ s.buffers) (fun j => (s.table j).used = true ∨ j = i')
      (Function.update (fun j => (s.table j).rxBuffer.toList) i' []) := by
    apply Allotted.add h hno (fun _ => Iff.rfl)
    · intro j hj
      have hji : j ≠ i' := by
        rintro rfl
        exact hno hj
      exact Function.update_of_ne hji ..
    · exact Function.update_self ..
  have hlive : ∀ j, ((Function.update s.table i' (Tcb.connect (if localIp = 0 then ownIp else localIp) localPort remoteIp
      remotePort rxBuffer) j).used = true ↔ (s.table j).used = true ∨ j = i') := by
    intro j
    by_cases hji : j = i'
    · simp [hji, connect_eq]
    · simp [hji]
  cases rxBuffer with
  | none =>
    apply Allotted.congr hadd (fun _ => Iff.rfl) hlive
    intro j _
    by_cases hji : j = i'
    · simp [hji, Tcb.connect_eq]
    · simp [hji]
  | some p =>
    apply Allotted.give hadd (i := i') (.inr rfl) (hfresh p rfl) ?_ hlive
    · intro j _ hji
      simp [hji]
    · simp [connect_eq]
    · intro a
      simp [or_comm]

/-- The invariant of clean runs. -/
structure Inv (s : TcpRun) : Prop where
  slots : ∀ i, (s.table i).used = true → SlotInv s i
  owned : s.toTcp.Owned

theorem Inv.record (h : Inv s) (ht : u.table = update s.table i v)
    (hself : v.used = true → SlotInv (s.record i e u) i) (hown : u.Owned) : Inv (s.record i e u) := by
  refine ⟨?_, hown⟩
  intro j hj
  have htable : (s.record i e u).table = update s.table i v := ht
  rw [htable] at hj
  by_cases hji : j = i
  · subst hji
    rw [update_self] at hj
    exact hself hj
  · rw [update_of_ne hji] at hj
    exact (h.slots j hj).other hji ht

theorem Inv.step (h : Inv s) (hstep : CleanStep s call t) : Inv t := by
  obtain ⟨hc, hfresh, e⟩ := hstep
  cases call with
  | connect ownIp localIp localPort remoteIp remotePort rxBuffer =>
    rw [exec] at e
    split at e
    · cases e
      exact h
    · next u i hcon =>
      obtain rfl := Option.some.inj e
      refine ⟨?_, owned_connect h.owned hfresh hcon⟩
      obtain ⟨i', hfree, he⟩ := Option.map_eq_some_iff.mp hcon
      obtain ⟨rfl, rfl⟩ := Prod.mk.inj he
      intro j hj
      by_cases hji : j = i'
      · subst hji
        refine ⟨?_, ?_⟩
        · simp [Tcb.connect_eq]
        · simp
      · have hj : (s.table j).used = true := by simpa [hji] using hj
        exact (h.slots j hj).congr (Function.update_of_ne hji ..) (Function.update_of_ne hji ..) (Function.update_of_ne hji ..)
  | packet g =>
    rw [exec] at e
    split at e
    · cases e
      exact h
    · next i hfind =>
      obtain ⟨u, hu, rfl⟩ := map_eq_some_iff.mp e
      have hused := (find_used hfind).2
      obtain ⟨v, hv, htable⟩ := handle_table hu hused
      obtain ⟨hfin, hreset⟩ := hc i hfind
      exact h.record htable (fun hvu => (h.slots i hused).packet hfin hreset hv hvu htable) (owned_handle h.owned hu)
  | send i len =>
    rw [exec] at e
    split at e
    · next hused =>
      cases e
      obtain hsame | ⟨-, hsent⟩ := (s.table i).sendData_eq len
      · rw [hsame]
        exact h.record rfl (fun _ => (h.slots i hused).keep (fun he => by cases he) rfl rfl rfl) (owned_setTcb h.owned rfl rfl)
      · rw [hsent]
        exact h.record rfl (fun _ => (h.slots i hused).keep (fun he => by cases he) rfl rfl rfl) (owned_setTcb h.owned rfl rfl)
    · cases e
      exact h
  | read i len =>
    rw [exec] at e
    split at e
    · next hused =>
      cases e
      exact h.record rfl (fun _ => (h.slots i hused).keep (fun he => by cases he) rfl rfl rfl) (owned_setTcb h.owned rfl rfl)
    · cases e
      exact h
  | close i =>
    rw [exec] at e
    split at e
    · next hused =>
      cases e
      refine h.record rfl (fun _ => (h.slots i hused).close (hc hused) rfl) (owned_setTcb h.owned ?_ ?_)
      · obtain ⟨hsame, -⟩ | ⟨-, hclosed⟩ | ⟨-, hclosed⟩ := (s.table i).close_eq
        · rw [hsame]
        · rw [hclosed]
        · rw [hclosed]
      · obtain ⟨hsame, -⟩ | ⟨-, hclosed⟩ | ⟨-, hclosed⟩ := (s.table i).close_eq
        · rw [hsame]
        · rw [hclosed]
        · rw [hclosed]
    · cases e
      exact h

theorem init_inv : Inv init := by
  refine ⟨(fun i hu => nomatch hu), ?_⟩
  refine ⟨fun a => ?_, (fun _ hi => nomatch hi), (fun _ _ _ hi => nomatch hi)⟩
  constructor
  · intro ha
    exact absurd ha (Finset.notMem_empty a)
  · rintro ⟨_, hi, -⟩
    cases hi

private theorem connect_none {s : Tcp}
    (e : s.connect ownIp localIp localPort remoteIp remotePort rxBuffer = none) :
    ∀ i < Tcp.maxConnections, (s.table i).used = true := by
  intro i hi
  have hno := find?_eq_none.mp (map_eq_none_iff.mp e) i (mem_range.mpr hi)
  simpa using hno

/-- In every clean run, slots and buffers are those of connections in use, and `tcp_connect` fails only while sixteen
of them are. -/
theorem released_runs (hrun : Trace CleanStep init calls s) :
    Released s ∧ ∀ ownIp localIp localPort remoteIp remotePort rxBuffer,
      s.toTcp.connect ownIp localIp localPort remoteIp remotePort rxBuffer = none → ∀ i < Tcp.maxConnections, s.InUse i := by
  have hinv : Inv s := by
    induction hrun with
    | nil => exact init_inv
    | snoc _ hstep ih => exact ih.step hstep
  have hslots : ∀ i, (s.table i).used = true → s.InUse i := fun i hu => (hinv.slots i hu).inUse hu
  exact ⟨⟨hslots, hinv.owned⟩, fun _ _ _ _ _ _ e i hi => hslots i (connect_none e i hi)⟩

theorem peer_closes_first : ∃ s, Trace CleanStep init
    [.connect 0 0 0 0 0 (some 7), .packet TcpConn.synAck, .packet (TcpConn.sample 0 0x1001 0x50 0x11 [] (by decide)), .close 0,
      .packet (TcpConn.sample 1 0x1002 0x50 0x10 [] (by decide))] s ∧ Released s ∧ (s.table 0).used = false := by
  have hev : ∃ s ∈ [TcpCall.connect 0 0 0 0 0 (some 7), .packet TcpConn.synAck,
      .packet (TcpConn.sample 0 0x1001 0x50 0x11 [] (by decide)), .close 0,
      .packet (TcpConn.sample 1 0x1002 0x50 0x10 [] (by decide))].foldlM
      (fun s call => if Clean s call ∧ Fresh s call then s.exec call else none) init,
      (s.table 0).used = false := by decide +kernel
  obtain ⟨s, hs, hfree⟩ := hev
  have hrun := (trace_of_checked hs).mono fun _ _ _ h => (⟨h.1.1, h.1.2, h.2⟩ : CleanStep _ _ _)
  exact ⟨s, hrun, (released_runs hrun).1, hfree⟩

/-- Sixteen connections that the peers do not answer: no slot is left, though all of them were closed. -/
theorem unanswered_slots_leak : ∃ s, Trace Step init
    ((range 16).flatMap fun k => [.connect 1 0 80 2 (UInt16.ofNat k) (some k), .close k]) s ∧
    s.toTcp.connect 1 0 80 2 16 (some 16) = none ∧ ∀ i < Tcp.maxConnections, (s.table i).used = true ∧ ¬ s.InUse i := by
  have hev : ∃ s ∈ ((range 16).flatMap fun k => [TcpCall.connect 1 0 80 2 (UInt16.ofNat k) (some k), .close k]).foldlM
      (fun s call => if Fresh s call then s.exec call else none) init,
      (s.toTcp.connect 1 0 80 2 16 (some 16)).isNone = true ∧
        ∀ i ∈ range 16, (s.table i).used = true ∧ ¬ s.InUse i := by decide +kernel
  obtain ⟨s, hs, hnone, hall⟩ := hev
  have hrun := (trace_of_checked hs).mono fun _ _ _ h => (h : Step _ _ _)
  exact ⟨s, hrun, isNone_iff_eq_none.mp hnone, fun i hi => hall i (mem_range.mpr hi)⟩

end TcpRun
end RetroOs.Net
