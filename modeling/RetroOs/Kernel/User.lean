import RetroOs.Kernel.ProcessRing
import RetroOs.Lib.Runs

/-! The user and group ids of a process, and the calls that set them. -/
namespace RetroOs.Kernel
open Lib Finset

/-- The three ids of one kind. -/
structure Ids where
  real : Word
  effective : Word
  saved : Word
  deriving DecidableEq

inductive IdKind where
  | user
  | group
  deriving DecidableEq

namespace Process

def ids (p : Process) : IdKind → Ids
  | .user => ⟨p.uid, p.euid, p.suid⟩
  | .group => ⟨p.gid, p.egid, p.sgid⟩

def setIds (p : Process) : IdKind → Ids → Process
  | .user, i => { p with uid := i.real, euid := i.effective, suid := i.saved }
  | .group, i => { p with gid := i.real, egid := i.effective, sgid := i.saved }

def Root (p : Process) : Prop := p.euid = 0

instance (p : Process) : Decidable p.Root := inferInstanceAs (Decidable (_ = _))

end Process

/-- The ids that a process holds. -/
def Ids.held (i : Ids) : Finset Word := {i.real, i.effective, i.saved}

/-- The argument that leaves an id as it is. -/
def keepId : Word := -1

namespace ProcessTable

def MaySet (t : ProcessTable) (k : IdKind) (id : Word) : Prop :=
  t.current.Root ∨ id = (t.current.ids k).real ∨ id = (t.current.ids k).saved

instance (t : ProcessTable) (k : IdKind) (id : Word) : Decidable (t.MaySet k id) := inferInstanceAs (Decidable (_ ∨ _ ∨ _))

/-- `setuid` and `setgid`: all three ids. -/
def setId (k : IdKind) (t : ProcessTable) (id : Word) : ProcessTable × Int :=
  if t.currentProcess = 0 then (t, -1)
  else if ¬ t.MaySet k id then (t, -1)
  else (t.setCurrent (t.current.setIds k ⟨id, id, id⟩), 0)

def setEffectiveId (k : IdKind) (t : ProcessTable) (id : Word) : ProcessTable × Int :=
  if t.currentProcess = 0 then (t, -1)
  else if ¬ t.MaySet k id then (t, -1)
  else (t.setCurrent (t.current.setIds k { t.current.ids k with effective := id }), 0)

/-- `setreuid` and `setregid`: one call after the other. -/
def setRealEffectiveId (k : IdKind) (t : ProcessTable) (real effective : Word) : ProcessTable × Int :=
  let r := if real ≠ keepId then t.setId k real else (t, 0)
  if r.2 < 0 then (r.1, -1)
  else
    let r := if effective ≠ keepId then r.1.setEffectiveId k effective else (r.1, 0)
    if r.2 < 0 then (r.1, -1) else (r.1, 0)

/-- Whether `setresuid` and `setresgid` refuse an id. -/
def Refuses (i : Ids) (id : Word) : Prop := id ≠ keepId ∧ id ≠ i.real ∧ id ≠ i.effective ∧ id ≠ i.saved

instance (i : Ids) (id : Word) : Decidable (Refuses i id) := inferInstanceAs (Decidable (_ ∧ _))

/-- `setresuid` and `setresgid`: each of the three ids. -/
def setAllIds (k : IdKind) (t : ProcessTable) (real effective saved : Word) : ProcessTable × Int :=
  if t.currentProcess = 0 then (t, -1)
  else
    let i := t.current.ids k
    if ¬ t.current.Root ∧ Refuses i real then (t, -1)
    else if ¬ t.current.Root ∧ Refuses i effective then (t, -1)
    else if ¬ t.current.Root ∧ Refuses i saved then (t, -1)
    else
      (t.setCurrent (t.current.setIds k
        { real := if real ≠ keepId then real else i.real
          effective := if effective ≠ keepId then effective else i.effective
          saved := if saved ≠ keepId then saved else i.saved }), 0)

def setuid := setId .user
def setgid := setId .group
def seteuid := setEffectiveId .user
def setegid := setEffectiveId .group
def setreuid := setRealEffectiveId .user
def setregid := setRealEffectiveId .group
def setresuid := setAllIds .user
def setresgid := setAllIds .group

def RootWith (t : ProcessTable) : IdKind → Word → Prop
  | .user, id => id = 0
  | .group, _ => t.current.Root

instance (t : ProcessTable) (id : Word) : ∀ k, Decidable (t.RootWith k id)
  | .user => inferInstanceAs (Decidable (id = 0))
  | .group => inferInstanceAs (Decidable t.current.Root)

end ProcessTable

inductive IdCall where
  | setuid (uid : Word)
  | setgid (gid : Word)
  | seteuid (euid : Word)
  | setegid (egid : Word)
  | setreuid (ruid euid : Word)
  | setregid (rgid egid : Word)
  | setresuid (ruid euid suid : Word)
  | setresgid (rgid egid sgid : Word)
  deriving DecidableEq

/-- A call and the process that makes it. -/
structure IdEvent where
  caller : Nat
  call : IdCall

namespace IdCall

def run (t : ProcessTable) : IdCall → ProcessTable × Int
  | setuid uid => t.setuid uid
  | setgid gid => t.setgid gid
  | seteuid euid => t.seteuid euid
  | setegid egid => t.setegid egid
  | setreuid ruid euid => t.setreuid ruid euid
  | setregid rgid egid => t.setregid rgid egid
  | setresuid ruid euid suid => t.setresuid ruid euid suid
  | setresgid rgid egid sgid => t.setresgid rgid egid sgid

end IdCall

def IdEvent.run (t : ProcessTable) (e : IdEvent) : ProcessTable × Int :=
  e.call.run { t with currentProcess := e.caller }

def IdEvent.exec (t : ProcessTable) (e : IdEvent) : ProcessTable := (e.run t).1

variable {t : ProcessTable} {k k' : IdKind} {i j : Ids} {p : Process} {id real effective saved : Word} {c : IdCall}

namespace Ids

theorem mem_held : id ∈ i.held ↔ id = i.real ∨ id = i.effective ∨ id = i.saved := by
  rw [held, mem_insert, mem_insert, mem_singleton]

theorem held_subset : i.held ⊆ j.held ↔ i.real ∈ j.held ∧ i.effective ∈ j.held ∧ i.saved ∈ j.held := by
  rw [held, insert_subset_iff, insert_subset_iff, singleton_subset_iff]

theorem real_mem (i : Ids) : i.real ∈ i.held := mem_held.mpr (.inl rfl)

private theorem effective_mem (i : Ids) : i.effective ∈ i.held := mem_held.mpr (.inr (.inl rfl))

theorem saved_mem (i : Ids) : i.saved ∈ i.held := mem_held.mpr (.inr (.inr rfl))

end Ids

namespace Process

@[simp] theorem ids_setIds (p : Process) (k : IdKind) (i : Ids) : (p.setIds k i).ids k = i := by
  cases k <;> rfl

private theorem ids_setIds_other (p : Process) (i : Ids) (h : k' ≠ k) : (p.setIds k i).ids k' = p.ids k' := by
  cases k <;> cases k' <;> first | rfl | exact absurd rfl h

@[simp] theorem setIds_setIds (p : Process) (k : IdKind) (i j : Ids) : (p.setIds k i).setIds k j = p.setIds k j := by
  cases k <;> rfl

end Process

namespace ProcessTable

private theorem setCurrent_setCurrent (t : ProcessTable) (p q : Process) : (t.setCurrent p).setCurrent q = t.setCurrent q := by
  simp only [setCurrent, set, Function.update_idem]

private theorem rootWith_iff : (t.current.setIds k ⟨id, id, id⟩).Root ↔ t.RootWith k id := by
  cases k <;> rfl

theorem MaySet.held (h : t.MaySet k id) (hr : ¬ t.current.Root) : id ∈ (t.current.ids k).held := by
  obtain hroot | rfl | rfl := h
  · exact absurd hroot hr
  · exact Ids.real_mem _
  · exact Ids.saved_mem _

/-- What `setreuid` and `setregid` come to. -/
theorem setRealEffectiveId_eq (hc : t.currentProcess ≠ 0) : t.setRealEffectiveId k real effective =
    if real = keepId then
      if effective = keepId then (t, 0)
      else if t.MaySet k effective then (t.setCurrent (t.current.setIds k { t.current.ids k with effective := effective }), 0)
      else (t, -1)
    else if ¬ t.MaySet k real then (t, -1)
    else if effective = keepId then (t.setCurrent (t.current.setIds k ⟨real, real, real⟩), 0)
    else if t.RootWith k real ∨ effective = real then (t.setCurrent (t.current.setIds k ⟨real, effective, real⟩), 0)
    else (t.setCurrent (t.current.setIds k ⟨real, real, real⟩), -1) := by
  by_cases hreal : real = keepId
  · by_cases heff : effective = keepId
    · simp [setRealEffectiveId, hreal, heff]
    · by_cases hmay : t.MaySet k effective <;> simp [setRealEffectiveId, setEffectiveId, hreal, heff, hc, hmay]
  · by_cases hmay : t.MaySet k real
    · -- The second call sees the ids that the first has set.
      have hsecond : (t.setCurrent (t.current.setIds k ⟨real, real, real⟩)).MaySet k effective ↔
          t.RootWith k real ∨ effective = real := by
        rw [MaySet, setCurrent_current, rootWith_iff, Process.ids_setIds, or_self_iff]
      by_cases heff : effective = keepId
      · simp [setRealEffectiveId, setId, hreal, heff, hc, hmay]
      · by_cases hgo : t.RootWith k real ∨ effective = real
        · simp [setRealEffectiveId, setId, setEffectiveId, hreal, heff, hc, hmay, hsecond, hgo, setCurrent_setCurrent]
        · simp [setRealEffectiveId, setId, setEffectiveId, hreal, heff, hc, hmay, hsecond, hgo]
    · simp [setRealEffectiveId, setId, hreal, hc, hmay]

private theorem setRealEffectiveId_null (hc : t.currentProcess = 0) : ∃ r, t.setRealEffectiveId k real effective = (t, r) := by
  by_cases hreal : real = keepId
  · by_cases heff : effective = keepId <;> simp [setRealEffectiveId, setEffectiveId, hreal, heff, hc]
  · simp [setRealEffectiveId, setId, hreal, hc]

/-- Without root no id is acquired, and an error changes no id. -/
def Confines (t : ProcessTable) (r : ProcessTable × Int) : Prop :=
  (∀ p, ¬ (t.procs p).Root → ∀ k, ((r.1.procs p).ids k).held ⊆ ((t.procs p).ids k).held) ∧
    (r.2 < 0 → ∀ p k, (r.1.procs p).ids k = (t.procs p).ids k)

theorem confines_same (t : ProcessTable) (r : Int) : Confines t (t, r) :=
  ⟨fun _ _ _ => Finset.Subset.refl _, fun _ _ _ => rfl⟩

theorem confines_setIds (t : ProcessTable) (k : IdKind) (i : Ids) (r : Int) :
    Confines t (t.setCurrent (t.current.setIds k i), r) ↔
      (¬ t.current.Root → i.held ⊆ (t.current.ids k).held) ∧ (r < 0 → i = t.current.ids k) := by
  have hself : (t.setCurrent (t.current.setIds k i)).procs t.currentProcess = t.current.setIds k i := setCurrent_current ..
  constructor
  · rintro ⟨hdrop, hkeep⟩
    constructor
    · intro hr
      have := hdrop t.currentProcess hr k
      rwa [hself, Process.ids_setIds] at this
    · intro hneg
      have := hkeep hneg t.currentProcess k
      rwa [hself, Process.ids_setIds] at this
  · rintro ⟨hdrop, hkeep⟩
    constructor
    · intro p hr k'
      by_cases hp : p = t.currentProcess
      · subst hp
        rw [hself]
        by_cases hk : k' = k
        · subst hk
          rw [Process.ids_setIds]
          exact hdrop hr
        · rw [Process.ids_setIds_other _ _ hk]
          exact Finset.Subset.refl _
      · rw [setCurrent_other t _ hp]
    · intro hneg p k'
      by_cases hp : p = t.currentProcess
      · subst hp
        rw [hself]
        by_cases hk : k' = k
        · subst hk
          rw [Process.ids_setIds]
          exact hkeep hneg
        · exact Process.ids_setIds_other _ _ hk
      · rw [setCurrent_other t _ hp]

private theorem setId_confines (t : ProcessTable) (k : IdKind) (id : Word) : Confines t (t.setId k id) := by
  rw [setId]
  split_ifs with hc hmay
  · exact confines_same t _
  · rw [confines_setIds]
    refine ⟨fun hr => ?_, fun h => absurd h (by decide)⟩
    have hheld := hmay.held hr
    exact Ids.held_subset.mpr ⟨hheld, hheld, hheld⟩
  · exact confines_same t _

theorem setEffectiveId_confines (t : ProcessTable) (k : IdKind) (id : Word) : Confines t (t.setEffectiveId k id) := by
  rw [setEffectiveId]
  split_ifs with hc hmay
  · exact confines_same t _
  · rw [confines_setIds]
    refine ⟨fun hr => ?_, fun h => absurd h (by decide)⟩
    exact Ids.held_subset.mpr ⟨Ids.real_mem _, hmay.held hr, Ids.saved_mem _⟩
  · exact confines_same t _

theorem accepted_mem {old : Word} (h : ¬ Refuses i id) (hold : old ∈ i.held) : (if id ≠ keepId then id else old) ∈ i.held := by
  split_ifs with hk
  · rw [Ids.mem_held]
    by_contra hno
    obtain ⟨h1, h2, h3⟩ := not_or.mp hno |>.imp_right not_or.mp
    exact h ⟨hk, h1, h2, h3⟩
  · exact hold

private theorem setAllIds_confines (t : ProcessTable) (k : IdKind) (real effective saved : Word) :
    Confines t (t.setAllIds k real effective saved) := by
  rw [setAllIds]
  by_cases hc : t.currentProcess = 0
  · rw [if_pos hc]
    exact confines_same t _
  rw [if_neg hc]
  by_cases hreal : ¬ t.current.Root ∧ Refuses (t.current.ids k) real
  · rw [if_pos hreal]
    exact confines_same t _
  rw [if_neg hreal]
  by_cases heff : ¬ t.current.Root ∧ Refuses (t.current.ids k) effective
  · rw [if_pos heff]
    exact confines_same t _
  rw [if_neg heff]
  by_cases hsaved : ¬ t.current.Root ∧ Refuses (t.current.ids k) saved
  · rw [if_pos hsaved]
    exact confines_same t _
  rw [if_neg hsaved, confines_setIds]
  refine ⟨fun hr => Ids.held_subset.mpr ⟨?_, ?_, ?_⟩, fun h => absurd h (by decide)⟩
  · exact accepted_mem (fun h => hreal ⟨hr, h⟩) (Ids.real_mem _)
  · exact accepted_mem (fun h => heff ⟨hr, h⟩) (Ids.effective_mem _)
  · exact accepted_mem (fun h => hsaved ⟨hr, h⟩) (Ids.saved_mem _)

/-- The first half of the call is done when the second is refused. -/
def HalfDone (t : ProcessTable) (k : IdKind) (real effective : Word) : Prop :=
  t.currentProcess ≠ 0 ∧ real ≠ keepId ∧ effective ≠ keepId ∧ effective ≠ real ∧ t.MaySet k real ∧ ¬ t.RootWith k real ∧
    t.current.ids k ≠ ⟨real, real, real⟩

/-- The first half of the call makes the process root, and the second then sets what it likes. -/
def RootBetween (t : ProcessTable) (k : IdKind) (real effective : Word) : Prop :=
  t.currentProcess ≠ 0 ∧ real ≠ keepId ∧ effective ≠ keepId ∧ effective ∉ (t.current.ids k).held ∧ t.MaySet k real ∧
    t.RootWith k real ∧ ¬ t.current.Root

instance (t : ProcessTable) (k : IdKind) (real effective : Word) : Decidable (t.HalfDone k real effective) :=
  inferInstanceAs (Decidable (_ ∧ _))

instance (t : ProcessTable) (k : IdKind) (real effective : Word) : Decidable (t.RootBetween k real effective) :=
  inferInstanceAs (Decidable (_ ∧ _))

private theorem setRealEffectiveId_confines (t : ProcessTable) (k : IdKind) (real effective : Word) :
    Confines t (t.setRealEffectiveId k real effective) ↔ ¬ t.HalfDone k real effective ∧ ¬ t.RootBetween k real effective := by
  by_cases hc : t.currentProcess = 0
  · obtain ⟨r, hr⟩ : ∃ r, t.setRealEffectiveId k real effective = (t, r) := t.setRealEffectiveId_null hc
    rw [hr]
    exact ⟨fun _ => ⟨fun h => h.1 hc, fun h => h.1 hc⟩, fun _ => confines_same t r⟩
  rw [setRealEffectiveId_eq hc]
  by_cases hreal : real = keepId
  · have hright : ¬ t.HalfDone k real effective ∧ ¬ t.RootBetween k real effective :=
      ⟨fun h => h.2.1 hreal, fun h => h.2.1 hreal⟩
    rw [if_pos hreal]
    refine ⟨fun _ => hright, fun _ => ?_⟩
    have := t.setEffectiveId_confines k effective
    rw [setEffectiveId, if_neg hc] at this
    split_ifs with heff hmay
    · exact confines_same t 0
    · rwa [if_neg (not_not.mpr hmay)] at this
    · exact confines_same t (-1)
  rw [if_neg hreal]
  by_cases hmay : t.MaySet k real
  · have hheld : ¬ t.current.Root → real ∈ (t.current.ids k).held := hmay.held
    rw [if_neg (not_not.mpr hmay)]
    by_cases heff : effective = keepId
    · rw [if_pos heff, confines_setIds]
      exact ⟨fun _ => ⟨fun h => h.2.2.1 heff, fun h => h.2.2.1 heff⟩, fun _ =>
        ⟨fun hr => Ids.held_subset.mpr ⟨hheld hr, hheld hr, hheld hr⟩, fun h => absurd h (by decide)⟩⟩
    rw [if_neg heff]
    by_cases hgo : t.RootWith k real ∨ effective = real
    · rw [if_pos hgo, confines_setIds, Ids.held_subset]
      constructor
      · rintro ⟨hdrop, -⟩
        refine ⟨fun h => ?_, fun h => ?_⟩
        · exact hgo.elim h.2.2.2.2.2.1 h.2.2.2.1
        · exact h.2.2.2.1 (hdrop h.2.2.2.2.2.2).2.1
      · rintro ⟨-, hbetween⟩
        refine ⟨fun hr => ⟨hheld hr, ?_, hheld hr⟩, fun h => absurd h (by decide)⟩
        obtain hroot | rfl := hgo
        · by_contra hno
          exact hbetween ⟨hc, hreal, heff, hno, hmay, hroot, hr⟩
        · exact hheld hr
    · obtain ⟨hroot, hne⟩ := not_or.mp hgo
      rw [if_neg hgo, confines_setIds]
      constructor
      · rintro ⟨-, hkeep⟩
        exact ⟨fun h => h.2.2.2.2.2.2 (hkeep (by decide)).symm, fun h => hroot h.2.2.2.2.2.1⟩
      · rintro ⟨hhalf, -⟩
        refine ⟨fun hr => Ids.held_subset.mpr ⟨hheld hr, hheld hr, hheld hr⟩, fun _ => ?_⟩
        by_contra hno
        exact hhalf ⟨hc, hreal, heff, hne, hmay, hroot, fun he => hno he.symm⟩
  · rw [if_pos hmay]
    exact ⟨fun _ => ⟨fun h => hmay h.2.2.2.2.1, fun h => hmay h.2.2.2.2.1⟩, fun _ => confines_same t _⟩

end ProcessTable

namespace IdCall
open ProcessTable

/-- The calls that are made of two. -/
def Slips (t : ProcessTable) : IdCall → Prop
  | setreuid ruid euid => t.HalfDone .user ruid euid ∨ t.RootBetween .user ruid euid
  | setregid rgid egid => t.HalfDone .group rgid egid
  | _ => False

instance (t : ProcessTable) : ∀ c : IdCall, Decidable (c.Slips t)
  | setreuid _ _ => inferInstanceAs (Decidable (_ ∨ _))
  | setregid _ _ => inferInstanceAs (Decidable (HalfDone ..))
  | setuid _ | setgid _ | seteuid _ | setegid _ | setresuid _ _ _ | setresgid _ _ _ => instDecidableFalse

theorem confines_iff_not_slips (t : ProcessTable) (c : IdCall) : Confines t (c.run t) ↔ ¬ c.Slips t := by
  cases c with
  | setuid uid => exact iff_of_true (t.setId_confines .user uid) not_false
  | setgid gid => exact iff_of_true (t.setId_confines .group gid) not_false
  | seteuid euid => exact iff_of_true (t.setEffectiveId_confines .user euid) not_false
  | setegid egid => exact iff_of_true (t.setEffectiveId_confines .group egid) not_false
  | setreuid ruid euid => exact (t.setRealEffectiveId_confines .user ruid euid).trans not_or.symm
  | setregid rgid egid =>
    refine (t.setRealEffectiveId_confines .group rgid egid).trans (and_iff_left ?_)
    rintro ⟨-, -, -, -, -, hroot, hno⟩
    exact hno hroot
  | setresuid ruid euid suid => exact iff_of_true (t.setAllIds_confines .user ruid euid suid) not_false
  | setresgid rgid egid sgid => exact iff_of_true (t.setAllIds_confines .group rgid egid sgid) not_false

end IdCall

namespace IdEvent
open ProcessTable

def Slips (t : ProcessTable) (e : IdEvent) : Prop := e.call.Slips { t with currentProcess := e.caller }

instance (t : ProcessTable) (e : IdEvent) : Decidable (e.Slips t) := inferInstanceAs (Decidable (e.call.Slips _))

theorem confines_iff_not_slips (t : ProcessTable) (e : IdEvent) : Confines t (e.run t) ↔ ¬ e.Slips t :=
  e.call.confines_iff_not_slips { t with currentProcess := e.caller }

/-- A run confines the ids exactly where no call slips, and then a process that is never root at a call loses ids only. -/
theorem ids_runs (t : ProcessTable) (es : List IdEvent) :
    (Along exec (fun t e => Confines t (e.run t)) t es ↔ Along exec (fun t e => ¬ e.Slips t) t es) ∧
      ∀ p k, Along exec (fun t e => ¬ e.Slips t ∧ ¬ (t.procs p).Root) t es →
        (((es.foldl exec t).procs p).ids k).held ⊆ ((t.procs p).ids k).held := by
  refine ⟨Along.congr confines_iff_not_slips, fun p k hrun => ?_⟩
  apply hrun.relates (R := fun t u => ((u.procs p).ids k).held ⊆ ((t.procs p).ids k).held)
  · exact fun t => Finset.Subset.refl _
  · exact fun hst htu => Finset.Subset.trans htu hst
  · rintro t e ⟨hslip, hroot⟩
    exact ((confines_iff_not_slips t e).mpr hslip).1 p hroot k

/-- The first process gives up root, for the user 1000 who may become 1001. -/
def login : IdEvent := ⟨0xC1001000, .setresuid 1000 1000 1001⟩

theorem login_drops :
    let t := login.exec bootTable
    let es : List IdEvent := [⟨0xC1001000, .seteuid 1001⟩, ⟨0xC1001000, .setreuid 1001 keepId⟩, ⟨0xC1001000, .setuid 0⟩]
    (((es.foldl exec t).procs 0xC1001000).ids .user).held ⊆ ((t.procs 0xC1001000).ids .user).held :=
  (ids_runs _ _).2 _ _ (by decide)

/-- Root asks for the real id 1000 and the effective id 1001, and is told that neither is set. A process that is not root,
with a real id 0, gets the id 5000. -/
theorem setreuid_slips :
    (let e : IdEvent := ⟨0xC1001000, .setreuid 1000 1001⟩
    (e.run bootTable).2 = -1 ∧ (bootTable.procs e.caller).ids .user = ⟨0, 0, 0⟩ ∧
      ((e.exec bootTable).procs e.caller).ids .user = ⟨1000, 1000, 1000⟩) ∧
    let t := exec bootTable ⟨0xC1001000, .setresuid 0 1000 0⟩
    let e : IdEvent := ⟨0xC1001000, .setreuid 0 5000⟩
    ¬ (t.procs e.caller).Root ∧ 5000 ∉ ((t.procs e.caller).ids .user).held ∧
      5000 ∈ (((e.exec t).procs e.caller).ids .user).held := by
  decide

end IdEvent
end RetroOs.Kernel
