import RetroOs.Kernel.ProcessRing

/-! The processes that a signal is for, and those that `sys_kill` comes to. -/
namespace RetroOs.Kernel
open Lib List Option BitVec
namespace ProcessTable

variable {t t' : ProcessTable} {l : List Nat} {p n : Nat} {pid : Word} {signum r : Int} {chosen : Nat → Prop}

/-- The processes that a pid names: one, the group of the caller, a group, or all but the caller and the first process. -/
def Named (t : ProcessTable) (pid : Word) (p : Nat) : Prop :=
  if pid = 0 then (t.procs p).pgid = t.current.pgid
  else if pid.toInt = -1 then p ≠ t.currentProcess ∧ (t.procs p).id ≠ 1
  else if pid.toInt < -1 then (t.procs p).pgid = -pid
  else (t.procs p).id = pid

def ValidSignal (signum : Int) : Prop := 0 ≤ signum ∧ signum < nsig

instance (signum : Int) : Decidable (ValidSignal signum) := inferInstanceAs (Decidable (_ ∧ _))

/-- What a call has to do: mark the signal in the processes that are named, and nowhere else, and succeed where there is one. -/
structure Killed (t : ProcessTable) (l : List Nat) (pid : Word) (signum : Int) (t' : ProcessTable) (r : Int) : Prop where
  marks : ValidSignal signum → signum ≠ 0 → ∀ p ∈ l, t.Named pid p →
    (t'.procs p).pendingSignals = (t.procs p).pendingSignals ||| twoPow 64 signum.toNat
  others : ∀ p, ¬ (ValidSignal signum ∧ signum ≠ 0 ∧ p ∈ l ∧ t.Named pid p) →
    (t'.procs p).pendingSignals = (t.procs p).pendingSignals
  result : r = 0 ↔ ValidSignal signum ∧ ∃ p ∈ l, t.Named pid p

/-- The mark makes no difference: there is none, or the signal is pending already. -/
def Pends (t : ProcessTable) (n p : Nat) : Prop := n = 0 ∨ (t.procs p).pendingSignals.getLsbD n = true

/-- The processes that a call comes to by this number, also where it is 0: the first with the id, a group, or all with a greater
id than 1 but the caller. -/
def Reaches (t : ProcessTable) (l : List Nat) (pid : Word) (p : Nat) : Prop :=
  if pid.toInt = -1 then 1 < (t.procs p).id ∧ p ≠ t.currentProcess
  else if pid.toInt < -1 then (t.procs p).pgid = -pid
  else l.find? (fun p => (t.procs p).id == pid) = some p

/-- What is named is what the call comes to: the group id of the caller reaches its group; no process but the caller has id 0;
no two processes have the id. Where the signal is pending already, a process makes no difference. -/
def Addresses (t : ProcessTable) (l : List Nat) (pid : Word) (n : Nat) : Prop :=
  if pid = 0 then
    (∃ p ∈ l, t.Reaches l t.current.pgid p) ∧
      ∀ p ∈ l, (t.Reaches l t.current.pgid p ↔ (t.procs p).pgid = t.current.pgid) ∨ t.Pends n p
  else if pid.toInt = -1 then
    ∀ p ∈ l, p ≠ t.currentProcess → (t.procs p).id = 0 →
      t.Pends n p ∧ ∃ q ∈ l, q ≠ t.currentProcess ∧ 1 < (t.procs q).id
  else pid.toInt < -1 ∨
    ∀ q, l.find? (fun p => (t.procs p).id == pid) = some q → ∀ p ∈ l, (t.procs p).id = pid → p ≠ q → t.Pends n p

/-- The chosen processes of the ring are signalled, and no other one changes. -/
structure Marks (t : ProcessTable) (l : List Nat) (n : Nat) (chosen : Nat → Prop) (t' : ProcessTable) : Prop where
  marked : ∀ p ∈ l, chosen p → t'.procs p = (t.signal n p).procs p
  others : ∀ p, ¬ (p ∈ l ∧ chosen p) → t'.procs p = t.procs p

private theorem signal_pending (t : ProcessTable) (n p : Nat) : ((t.signal n p).procs p).pendingSignals =
    if n = 0 then (t.procs p).pendingSignals else (t.procs p).pendingSignals ||| twoPow 64 n := by
  rw [signal, set_self]

private theorem signal_congr {t t' : ProcessTable} {n p : Nat} (h : t'.procs p = t.procs p) :
    (t'.signal n p).procs p = (t.signal n p).procs p := by
  rw [signal, signal, set_self, set_self, h]

theorem signal_other (t : ProcessTable) (n : Nat) {p x : Nat} (h : x ≠ p) : (t.signal n p).procs x = t.procs x := by
  rw [signal, set_other _ _ _ h]

private theorem signal_id (t : ProcessTable) (n p x : Nat) : ((t.signal n p).procs x).id = (t.procs x).id := by
  have hid := congrArg Process.id ((signal_keeps t n p).procs x)
  exact hid

private theorem signal_pgid (t : ProcessTable) (n p x : Nat) : ((t.signal n p).procs x).pgid = (t.procs x).pgid := by
  have hpgid := congrArg Process.pgid ((signal_keeps t n p).procs x)
  exact hpgid

private theorem marks_foldl (test : Process → Nat → Bool)
    (htest : ∀ q q' : Process, ∀ p, q'.id = q.id → q'.pgid = q.pgid → test q' p = test q p) (hd : l.Nodup) (found : Bool) :
    let r := l.foldl (fun (r : ProcessTable × Bool) p => if test (r.1.procs p) p then (r.1.signal n p, true) else r) (t, found)
    Marks t l n (fun p => test (t.procs p) p = true) r.1 ∧ (r.2 = true ↔ found = true ∨ ∃ p ∈ l, test (t.procs p) p = true) := by
  induction l generalizing t found with
  | nil =>
    refine ⟨⟨fun p hp => absurd hp not_mem_nil, fun _ _ => rfl⟩, ?_⟩
    exact ⟨.inl, fun h => h.resolve_right fun ⟨p, hp, _⟩ => not_mem_nil hp⟩
  | cons x l ih =>
    obtain ⟨hx, hd⟩ := nodup_cons.mp hd
    rw [foldl_cons]
    by_cases hpass : test (t.procs x) x = true
    · rw [if_pos hpass]
      have hsame : ∀ p, test ((t.signal n x).procs p) p = test (t.procs p) p :=
        fun p => htest _ _ p (signal_id t n x p) (signal_pgid t n x p)
      obtain ⟨⟨hmarked, hothers⟩, hfound⟩ := ih (t := t.signal n x) hd true
      simp only [hsame] at hmarked hothers hfound
      refine ⟨⟨fun p hp hchosen => ?_, fun p hno => ?_⟩, ?_⟩
      · rcases mem_cons.mp hp with rfl | hp
        · exact hothers p fun h => hx h.1
        · have hne : p ≠ x := fun heq => hx (heq ▸ hp)
          rw [hmarked p hp hchosen, signal_congr (signal_other t n hne)]
      · have hne : p ≠ x := fun heq => hno ⟨heq ▸ (.head _), heq ▸ hpass⟩
        rw [hothers p fun h => hno ⟨.tail _ h.1, h.2⟩, signal_other t n hne]
      · exact iff_of_true (hfound.mpr (.inl trivial)) (.inr ⟨x, .head _, hpass⟩)
    · rw [if_neg hpass]
      obtain ⟨⟨hmarked, hothers⟩, hfound⟩ := ih (t := t) hd found
      refine ⟨⟨fun p hp hchosen => ?_, fun p hno => ?_⟩, hfound.trans (or_congr_right ?_)⟩
      · rcases mem_cons.mp hp with rfl | hp
        · exact absurd hchosen hpass
        · exact hmarked p hp hchosen
      · exact hothers p fun h => hno ⟨.tail _ h.1, h.2⟩
      · constructor
        · rintro ⟨p, hp, h⟩
          exact ⟨p, .tail _ hp, h⟩
        · rintro ⟨p, hp, h⟩
          rcases mem_cons.mp hp with rfl | hp
          · exact absurd h hpass
          · exact ⟨p, hp, h⟩

private theorem signalAll_marks (h : InRing t l) (n : Nat) (test : Process → Nat → Bool)
    (htest : ∀ q q' : Process, ∀ p, q'.id = q.id → q'.pgid = q.pgid → test q' p = test q p) :
    ∃ t' r, t.signalAll n test = some (t', r) ∧ Marks t l n (fun p => test (t.procs p) p = true) t' ∧
      (r = 0 ↔ ∃ p ∈ l, test (t.procs p) p = true) := by
  obtain ⟨hmarks, hfound⟩ := marks_foldl (t := t) (n := n) test htest h.ring.nodup false
  rw [signalAll, if_neg h.readyQueue_ne, h.ring.fold _ h.stop h.length_le, map_some]
  refine ⟨_, _, rfl, hmarks, ?_⟩
  generalize foldl _ (t, false) l = r at hfound
  cases hr : r.2 with
  | true => exact iff_of_true rfl ((hfound.mp hr).resolve_left Bool.false_ne_true)
  | false =>
    refine iff_of_false (by decide) fun hex => ?_
    rw [hfound.mpr (.inr hex)] at hr
    cases hr

private theorem signalOne_marks (h : InRing t l) (n : Nat) (pid : Word) :
    ∃ t' r, t.signalOne n pid = some (t', r) ∧
      Marks t l n (fun p => l.find? (fun p => (t.procs p).id == pid) = some p) t' ∧
        (r = 0 ↔ ∃ p ∈ l, l.find? (fun p => (t.procs p).id == pid) = some p) := by
  rw [signalOne, if_neg h.readyQueue_ne, h.ring.find h.stop h.length_le, map_some]
  cases hfind : l.find? fun p => (t.procs p).id == pid with
  | none => exact ⟨t, -3, rfl, ⟨fun _ _ hp => (by cases hp), fun _ _ => rfl⟩, iff_of_false (by decide) fun hex => by simp at hex⟩
  | some x =>
    have hx := mem_of_find?_eq_some hfind
    refine ⟨_, 0, rfl, ⟨fun p _ hp => ?_, fun p hno => ?_⟩, iff_of_true rfl ⟨x, hx, rfl⟩⟩
    · cases hp
      rfl
    · have hne : p ≠ x := by
        rintro rfl
        exact hno ⟨hx, rfl⟩
      rw [signal_other t n hne]

theorem sysKill_marks (h : InRing t l) (pid : Word) (hvalid : ValidSignal signum) :
    ∃ t' r, t.sysKill pid signum = some (t', r) ∧
      Marks t l signum.toNat (t.Reaches l (if pid = 0 then t.current.pgid else pid)) t' ∧
        (r = 0 ↔ ∃ p ∈ l, t.Reaches l (if pid = 0 then t.current.pgid else pid) p) := by
  have hbad : ¬ (signum < 0 ∨ nsig ≤ signum) := not_or.mpr ⟨Int.not_lt.mpr hvalid.1, Int.not_le.mpr hvalid.2⟩
  rw [sysKill, if_neg hbad]
  generalize (if pid = 0 then t.current.pgid else pid) = e
  by_cases hall : e.toInt = -1
  · rw [if_pos hall]
    obtain ⟨t', r, ht, hmarks, hr⟩ := signalAll_marks h signum.toNat (fun q p => decide (1 < q.id) && p != t.currentProcess)
      fun q q' p hid _ => by rw [hid]
    have hsame : (fun p => (decide (1 < (t.procs p).id) && p != t.currentProcess) = true) = t.Reaches l e := by
      funext p
      rw [Reaches, if_pos hall]
      simp
    rw [hsame] at hmarks
    exact ⟨t', r, ht, hmarks, hr.trans (exists_congr fun p => and_congr_right fun _ => iff_of_eq (congrFun hsame p))⟩
  · rw [if_neg hall]
    by_cases hgroup : e.toInt < -1
    · rw [if_pos hgroup]
      obtain ⟨t', r, ht, hmarks, hr⟩ := signalAll_marks h signum.toNat (fun q _ => q.pgid == -e) fun q q' p _ hpgid => by rw [hpgid]
      have hsame : (fun p => ((t.procs p).pgid == -e) = true) = t.Reaches l e := by
        funext p
        rw [Reaches, if_neg hall, if_pos hgroup]
        simp
      rw [hsame] at hmarks
      exact ⟨t', r, ht, hmarks, hr.trans (exists_congr fun p => and_congr_right fun _ => iff_of_eq (congrFun hsame p))⟩
    · rw [if_neg hgroup]
      obtain ⟨t', r, ht, hmarks, hr⟩ := signalOne_marks h signum.toNat e
      have hsame : (fun p => l.find? (fun p => (t.procs p).id == e) = some p) = t.Reaches l e := by
        funext p
        rw [Reaches, if_neg hall, if_neg hgroup]
      rw [hsame] at hmarks
      exact ⟨t', r, ht, hmarks, hr.trans (exists_congr fun p => and_congr_right fun _ => iff_of_eq (congrFun hsame p))⟩

theorem or_twoPow_eq_iff (x : BitVec 64) (hn : n < 64) : x ||| twoPow 64 n = x ↔ x.getLsbD n = true := by
  constructor
  · intro h
    rw [← h, getLsbD_or, getLsbD_twoPow]
    simp [hn]
  · intro h
    ext i hi
    rw [getElem_or, getElem_twoPow]
    by_cases hin : i = n
    · subst hin
      rw [← getLsbD_eq_getElem, h, Bool.true_or]
    · simp [hin]

private theorem killed_iff (pid : Word) (hmarks : Marks t l signum.toNat chosen t') (hr : r = 0 ↔ ∃ p ∈ l, chosen p) (hvalid : ValidSignal signum) :
    Killed t l pid signum t' r ↔ ((∃ p ∈ l, chosen p) ↔ ∃ p ∈ l, t.Named pid p) ∧
      ∀ p ∈ l, (chosen p ↔ t.Named pid p) ∨ t.Pends signum.toNat p := by
  have hn : signum.toNat < 64 := by
    have hlt : signum < 64 := hvalid.2
    have hnonneg := hvalid.1
    omega
  have hzero : signum ≠ 0 ↔ signum.toNat ≠ 0 := by
    have hnonneg := hvalid.1
    omega
  have hmarked' : ∀ p ∈ l, chosen p → (t'.procs p).pendingSignals =
      if signum.toNat = 0 then (t.procs p).pendingSignals else (t.procs p).pendingSignals ||| twoPow 64 signum.toNat :=
    fun p hp hc => (congrArg Process.pendingSignals (hmarks.marked p hp hc)).trans (signal_pending t _ p)
  have hothers' : ∀ p, ¬ (p ∈ l ∧ chosen p) → (t'.procs p).pendingSignals = (t.procs p).pendingSignals :=
    fun p hno => congrArg Process.pendingSignals (hmarks.others p hno)
  constructor
  · rintro ⟨hmarked, hothers, hresult⟩
    refine ⟨hr.symm.trans (hresult.trans (and_iff_right hvalid)), fun p hp => ?_⟩
    by_cases h0 : signum.toNat = 0
    · exact .inr (.inl h0)
    · by_cases hc : chosen p
      · by_cases hnamed : t.Named pid p
        · exact .inl (iff_of_true hc hnamed)
        · have hsame := hmarked' p hp hc
          rw [hothers p fun h => hnamed h.2.2.2, if_neg h0] at hsame
          exact .inr (.inr ((or_twoPow_eq_iff _ hn).mp hsame.symm))
      · by_cases hnamed : t.Named pid p
        · have hsame := hothers' p fun h => hc h.2
          rw [hmarked hvalid (hzero.mpr h0) p hp hnamed] at hsame
          exact .inr (.inr ((or_twoPow_eq_iff _ hn).mp hsame))
        · exact .inl (iff_of_false hc hnamed)
  · rintro ⟨hsome, hsame⟩
    refine ⟨fun _ hsignum p hp hnamed => ?_, fun p hno => ?_, hr.trans (hsome.trans (and_iff_right hvalid).symm)⟩
    · by_cases hc : chosen p
      · rw [hmarked' p hp hc, if_neg (hzero.mp hsignum)]
      · have hpends := ((hsame p hp).resolve_left fun h => hc (h.mpr hnamed)).resolve_left (hzero.mp hsignum)
        rw [hothers' p fun h => hc h.2, (or_twoPow_eq_iff _ hn).mpr hpends]
    · by_cases hc : p ∈ l ∧ chosen p
      · obtain ⟨hp, hc⟩ := hc
        rw [hmarked' p hp hc]
        split
        · rfl
        · next h0 =>
          have hnamed : ¬ t.Named pid p := fun hnamed => hno ⟨hvalid, hzero.mpr h0, hp, hnamed⟩
          have hpends := ((hsame p hp).resolve_left fun h => hnamed (h.mp hc)).resolve_left h0
          exact (or_twoPow_eq_iff _ hn).mpr hpends
      · exact hothers' p hc

theorem find_id_iff {q : Nat} (hfind : l.find? (fun p => (t.procs p).id == pid) = some q) : q ∈ l ∧ (t.procs q).id = pid := by
  have hid := find?_some hfind
  exact ⟨mem_of_find?_eq_some hfind, eq_of_beq hid⟩

theorem ne_one_iff (w : Word) : w ≠ 1 ↔ w = 0 ∨ 1 < w := by
  constructor
  · intro h
    bv_omega
  · rintro (rfl | h)
    · decide
    · bv_omega

private theorem addresses_all (t : ProcessTable) (l : List Nat) (n : Nat) :
    (∀ p ∈ l, p ≠ t.currentProcess → (t.procs p).id = 0 → t.Pends n p ∧ ∃ q ∈ l, q ≠ t.currentProcess ∧ 1 < (t.procs q).id) ↔
      ((∃ p ∈ l, 1 < (t.procs p).id ∧ p ≠ t.currentProcess) ↔ ∃ p ∈ l, p ≠ t.currentProcess ∧ (t.procs p).id ≠ 1) ∧
        ∀ p ∈ l, (1 < (t.procs p).id ∧ p ≠ t.currentProcess ↔ p ≠ t.currentProcess ∧ (t.procs p).id ≠ 1) ∨ t.Pends n p := by
  constructor
  · intro h
    refine ⟨⟨?_, ?_⟩, fun p hp => ?_⟩
    · rintro ⟨p, hp, hid, hc⟩
      exact ⟨p, hp, hc, (ne_one_iff _).mpr (.inr hid)⟩
    · rintro ⟨p, hp, hc, hid⟩
      rcases (ne_one_iff _).mp hid with h0 | h1
      · obtain ⟨-, q, hq, hqc, hqid⟩ := h p hp hc h0
        exact ⟨q, hq, hqid, hqc⟩
      · exact ⟨p, hp, h1, hc⟩
    · by_cases hc : p = t.currentProcess
      · exact .inl (iff_of_false (fun h => h.2 hc) fun h => h.1 hc)
      · by_cases h0 : (t.procs p).id = 0
        · exact .inr (h p hp hc h0).1
        · refine .inl ⟨fun h => ⟨hc, (ne_one_iff _).mpr (.inr h.1)⟩, fun h => ⟨?_, hc⟩⟩
          exact ((ne_one_iff _).mp h.2).resolve_left h0
  · rintro ⟨hsome, hsame⟩ p hp hc h0
    have hid : (t.procs p).id ≠ 1 := (ne_one_iff _).mpr (.inl h0)
    obtain ⟨q, hq, hqid, hqc⟩ := hsome.mpr ⟨p, hp, hc, hid⟩
    refine ⟨(hsame p hp).resolve_left fun h => ?_, q, hq, hqc, hqid⟩
    have hlt := (h.mpr ⟨hc, hid⟩).1
    rw [h0] at hlt
    exact absurd hlt (by decide)

private theorem addresses_one (t : ProcessTable) (l : List Nat) (pid : Word) (n : Nat) :
    (∀ q, l.find? (fun p => (t.procs p).id == pid) = some q → ∀ p ∈ l, (t.procs p).id = pid → p ≠ q → t.Pends n p) ↔
      ((∃ p ∈ l, l.find? (fun p => (t.procs p).id == pid) = some p) ↔ ∃ p ∈ l, (t.procs p).id = pid) ∧
        ∀ p ∈ l, (l.find? (fun p => (t.procs p).id == pid) = some p ↔ (t.procs p).id = pid) ∨ t.Pends n p := by
  constructor
  · intro h
    have hfirst : ∀ p ∈ l, (t.procs p).id = pid → ∃ q, l.find? (fun p => (t.procs p).id == pid) = some q := fun p hp hid =>
      isSome_iff_exists.mp (find?_isSome.mpr ⟨p, hp, beq_iff_eq.mpr hid⟩)
    refine ⟨⟨?_, ?_⟩, fun p hp => ?_⟩
    · rintro ⟨p, hp, hfind⟩
      exact ⟨p, hp, (find_id_iff hfind).2⟩
    · rintro ⟨p, hp, hid⟩
      obtain ⟨q, hq⟩ := hfirst p hp hid
      exact ⟨q, (find_id_iff hq).1, hq⟩
    · by_cases hid : (t.procs p).id = pid
      · obtain ⟨q, hq⟩ := hfirst p hp hid
        by_cases hpq : p = q
        · exact .inl (iff_of_true (hpq ▸ hq) hid)
        · exact .inr (h q hq p hp hid hpq)
      · exact .inl (iff_of_false (fun hfind => hid (find_id_iff hfind).2) hid)
  · rintro ⟨-, hsame⟩ q hq p hp hid hne
    exact (hsame p hp).resolve_left fun h => hne (some.inj ((h.mpr hid).symm.trans hq))

private theorem addresses_iff (h : InRing t l) (pid : Word) (n : Nat) : t.Addresses l pid n ↔
    ((∃ p ∈ l, t.Reaches l (if pid = 0 then t.current.pgid else pid) p) ↔ ∃ p ∈ l, t.Named pid p) ∧
      ∀ p ∈ l, (t.Reaches l (if pid = 0 then t.current.pgid else pid) p ↔ t.Named pid p) ∨ t.Pends n p := by
  rw [Addresses]
  by_cases h0 : pid = 0
  · have hnamed : ∀ p, t.Named pid p ↔ (t.procs p).pgid = t.current.pgid := fun p => by rw [Named, if_pos h0]
    rw [if_pos h0, if_pos h0]
    simp only [hnamed]
    refine and_congr_left fun _ => (iff_true_right ?_).symm
    exact ⟨t.currentProcess, h.current, rfl⟩
  · rw [if_neg h0, if_neg h0]
    by_cases hall : pid.toInt = -1
    · have hnamed : ∀ p, t.Named pid p ↔ p ≠ t.currentProcess ∧ (t.procs p).id ≠ 1 := fun p => by
        rw [Named, if_neg h0, if_pos hall]
      have hreaches : ∀ p, t.Reaches l pid p ↔ 1 < (t.procs p).id ∧ p ≠ t.currentProcess := fun p => by
        rw [Reaches, if_pos hall]
      rw [if_pos hall]
      simp only [hnamed, hreaches]
      exact addresses_all t l n
    · rw [if_neg hall]
      by_cases hgroup : pid.toInt < -1
      · have hsame : ∀ p, t.Reaches l pid p ↔ t.Named pid p := fun p => by
          rw [Reaches, if_neg hall, if_pos hgroup, Named, if_neg h0, if_neg hall, if_pos hgroup]
        exact iff_of_true (.inl hgroup) ⟨exists_congr fun p => and_congr_right fun _ => hsame p, fun p _ => .inl (hsame p)⟩
      · have hnamed : ∀ p, t.Named pid p ↔ (t.procs p).id = pid := fun p => by
          rw [Named, if_neg h0, if_neg hall, if_neg hgroup]
        have hreaches : ∀ p, t.Reaches l pid p ↔ l.find? (fun p => (t.procs p).id == pid) = some p := fun p => by
          rw [Reaches, if_neg hall, if_neg hgroup]
        simp only [hnamed, hreaches]
        exact (or_iff_right hgroup).trans (addresses_one t l pid n)

/-- In every ring: for a signal that is not valid nothing happens, and for another one exactly then the call does what it has to. -/
theorem sysKill_iff (h : InRing t l) (pid : Word) (signum : Int) :
    (∃ t' r, t.sysKill pid signum = some (t', r) ∧ Killed t l pid signum t' r) ↔
      (ValidSignal signum → t.Addresses l pid signum.toNat) := by
  by_cases hvalid : ValidSignal signum
  · obtain ⟨t', r, ht, hmarks, hr⟩ := sysKill_marks h pid hvalid
    have hkilled := (killed_iff pid hmarks hr hvalid).trans (addresses_iff h pid signum.toNat).symm
    constructor
    · rintro ⟨u, r', hu, hk⟩ -
      cases ht.symm.trans hu
      exact hkilled.mp hk
    · exact fun ha => ⟨t', r, ht, hkilled.mpr (ha hvalid)⟩
  · refine iff_of_true ⟨t, -22, ?_, fun h => absurd h hvalid, fun _ _ => rfl, iff_of_false (by decide) fun h => hvalid h.1⟩
      fun h => absurd h hvalid
    have hbad : signum < 0 ∨ nsig ≤ signum := by
      rcases not_and_or.mp hvalid with hneg | hlarge
      · exact .inl (Int.not_le.mp hneg)
      · exact .inr (Int.not_lt.mp hlarge)
    rw [sysKill, if_pos hbad]

/-- The first process, which runs, and a child of it; both are in the group 0. -/
def bootAndChild : ProcessTable := (bootTable.forkProcess 5 0xC1002000 0xC1003000).1

theorem bootAndChild_inRing : InRing bootAndChild [0xC1001000, 0xC1002000] :=
  ⟨⟨by decide, by decide, rfl, id, rfl, id, rfl⟩, by decide, by decide⟩

theorem sysKill_iff_bootAndChild :
    (∃ t' r, bootAndChild.sysKill 1 15 = some (t', r) ∧ Killed bootAndChild [0xC1001000, 0xC1002000] 1 15 t' r) ↔
      (ValidSignal 15 → bootAndChild.Addresses [0xC1001000, 0xC1002000] 1 15) :=
  sysKill_iff bootAndChild_inRing 1 15

/-- The signal of the first process to its group comes to one process. -/
theorem group_missed : ¬ ∃ t' r, bootAndChild.sysKill 0 15 = some (t', r) ∧
    Killed bootAndChild [0xC1001000, 0xC1002000] 0 15 t' r := by
  rintro ⟨t', r, ht, hk⟩
  have hchild : (bootAndChild.sysKill 0 15).map (fun x => (x.1.procs 0xC1002000).pendingSignals) = some 0 := by decide +kernel
  have hmarked := hk.marks (by decide) (by decide) 0xC1002000 (by decide) (show (bootAndChild.procs 0xC1002000).pgid = _ by decide)
  rw [ht] at hchild
  have hnone : (t'.procs 0xC1002000).pendingSignals = 0 := some.inj hchild
  rw [hnone] at hmarked
  exact absurd hmarked (by decide +kernel)

end ProcessTable
end RetroOs.Kernel
