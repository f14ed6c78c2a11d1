import RetroOs.Kernel.ProcessRing
import RetroOs.Lib.Runs

/-! What a new process has of its parent's rights, and what becomes of pledges over runs. -/
namespace RetroOs.Kernel
open Lib Function ProcessTable

/-- The security and scheduling attributes of a process. -/
structure Attributes where
  uid : Word
  euid : Word
  suid : Word
  gid : Word
  egid : Word
  sgid : Word
  pledges : Word
  unveils : List UnveilNode
  pgid : Word
  sid : Word
  signalMask : BitVec 64
  signalActions : Fin 64 → SigAction
  priority : Int
  timeSlice : Int
  deriving DecidableEq

def Process.attributes (q : Process) : Attributes :=
  ⟨q.uid, q.euid, q.suid, q.gid, q.egid, q.sgid, q.pledges, q.unveils, q.pgid, q.sid, q.signalMask,
    q.signalActions, q.priority, q.timeSlice⟩

/-- The first set of pledges allows nothing that the second does not. -/
def PledgeLe (a b : Word) : Prop := a &&& b = a

instance (a b : Word) : Decidable (PledgeLe a b) := inferInstanceAs (Decidable (a &&& b = a))

theorem PledgeLe.refl (a : Word) : PledgeLe a a := BitVec.and_self

theorem PledgeLe.trans {a b c : Word} (h : PledgeLe a b) (h' : PledgeLe b c) : PledgeLe a c := by
  rw [PledgeLe, ← h, BitVec.and_assoc, h']

private theorem and_pledgeLe (a b : Word) : PledgeLe (a &&& b) a := by
  rw [PledgeLe, BitVec.and_comm, ← BitVec.and_assoc, BitVec.and_self]

namespace ProcessTable
variable {t : ProcessTable} {newPd child childKstack pd newProc kstack p : Nat} {entry topAddr : Word}

variable (childKstack) in
theorem forkProcess_attributes (hpd : newPd ≠ 0) (hnew : child ≠ t.currentProcess) :
    ((t.forkProcess newPd child childKstack).1.procs child).attributes =
      { (t.fresh child).attributes with pledges := t.current.pledges } := by
  obtain ⟨-, hcur, -⟩ := shareFiles_kept { t with nextPid := t.nextPid + 1 } t.current.fdTable
  simp only [forkProcess, if_neg hpd]
  rw [link_self (by rw [hcur]; exact hnew)]
  rfl

/-- A forked child has its parent's attributes exactly if the memory for its record already held them,
the pledges apart. Memory from `kmalloc` is zero. -/
theorem fork_inherits_iff (hpd : newPd ≠ 0) (hnew : child ≠ t.currentProcess) :
    ((t.forkProcess newPd child childKstack).1.procs child).attributes = t.current.attributes ↔
      t.current.attributes =
        { (if child = 0 then t.procs 0 else .zero).attributes with pledges := t.current.pledges } := by
  rw [forkProcess_attributes _ hpd hnew]
  exact eq_comm

variable (childKstack) in
private theorem forkProcess_root (hpd : newPd ≠ 0) (hnew : child ≠ t.currentProcess) (h0 : child ≠ 0) :
    ((t.forkProcess newPd child childKstack).1.procs child).euid = 0 ∧
      ((t.forkProcess newPd child childKstack).1.procs child).unveils = [] := by
  have h := forkProcess_attributes childKstack hpd hnew
  rw [fresh, if_neg h0] at h
  exact ⟨congrArg Attributes.euid h, congrArg Attributes.unveils h⟩

end ProcessTable

def userTable : ProcessTable :=
  bootTable.setCurrent { bootTable.current with
    uid := 1000
    euid := 1000
    suid := 1000
    unveils := [⟨"/home", 4⟩] }

theorem forkProcess_drops_user : userTable.current.euid = 1000 ∧ userTable.current.unveils ≠ [] ∧
    ((userTable.forkProcess 5 0xC1002000 0xC1003000).1.procs 0xC1002000).euid = 0 ∧
      ((userTable.forkProcess 5 0xC1002000 0xC1003000).1.procs 0xC1002000).unveils = [] ∧
      ((userTable.forkProcess 5 0xC1002000 0xC1003000).1.procs 0xC1002000).attributes ≠ userTable.current.attributes := by
  obtain ⟨he, hu⟩ := @forkProcess_root userTable 5 0xC1002000 0xC1003000
    (by decide) (by decide) (by decide)
  refine ⟨rfl, List.cons_ne_nil _ _, he, hu, fun h => ?_⟩
  have heq := congrArg Attributes.euid h
  exact absurd (he.symm.trans heq) (by decide)

def bareTable : ProcessTable :=
  bootTable.setCurrent { Process.zero with pledges := 0x21 }

theorem bareTable_fork : ((bareTable.forkProcess 5 0xC1002000 0xC1003000).1.procs 0xC1002000).attributes =
    bareTable.current.attributes :=
  (fork_inherits_iff (by decide) (by decide)).mpr rfl

/-- The process table, the processes made so far, and for each of them the initial process it comes
from by forks alone, if it does. -/
structure Lineage where
  table : ProcessTable
  live : List Nat
  origin : Nat → Option Nat

inductive LineageEvent where
  | pledge (pledges : Word)
  | unveil (path : String) (perms : Word)
  | fork (newPd child childKstack : Nat)
  | exec (entry topAddr : Word)
  | spawn (pd : Nat) (entry topAddr : Word) (newProc kstack : Nat)
  /-- Another process is scheduled. -/
  | run (p : Nat)

namespace Lineage
open ProcessTable

/-- A process made at an address, with the initial process it comes from. -/
def bear (s : Lineage) (t : ProcessTable) (child : Nat) (origin : Option Nat) : Lineage :=
  ⟨t, child :: s.live, update s.origin child origin⟩

def exec (s : Lineage) : LineageEvent → Lineage
  | .pledge pledges => { s with table := s.table.sysPledge pledges }
  | .unveil path perms => { s with table := s.table.sysUnveil path perms }
  | .fork newPd child childKstack =>
    let t := (s.table.forkProcess newPd child childKstack).1
    if newPd = 0 then { s with table := t } else s.bear t child (s.origin s.table.currentProcess)
  | .exec entry topAddr =>
    let t := (s.table.execProcess entry topAddr).1
    if entry = 0 then { s with table := t }
    else { s with table := t, origin := update s.origin s.table.currentProcess none }
  | .spawn pd entry topAddr newProc kstack =>
    let t := (s.table.sysPosixSpawn pd entry topAddr newProc kstack).1
    if pd = 0 ∨ entry = 0 ∨ newProc = 0 then { s with table := t } else s.bear t newProc none
  | .run p => { s with table := { s.table with currentProcess := p } }

/-- Memory for a record is not that of another process, and only processes run. -/
def Allowed (s : Lineage) : LineageEvent → Prop
  | .fork _ child _ => child ∉ s.live
  | .spawn _ _ _ newProc _ => newProc ∉ s.live
  | .run p => p ∈ s.live
  | _ => True

structure Start (s : Lineage) : Prop where
  current : s.table.currentProcess ∈ s.live
  origin : ∀ p ∈ s.live, s.origin p = some p

/-- The pledges of the initial process a process comes from, if it comes from one. -/
def Within (s t : Lineage) (p : Nat) : Prop :=
  ∀ q, t.origin p = some q → q ∈ s.live ∧ PledgeLe (t.table.procs p).pledges (s.table.procs q).pledges

structure Confined (s t : Lineage) : Prop where
  current : t.table.currentProcess ∈ t.live
  within : ∀ p ∈ t.live, Within s t p

variable {s t : Lineage} {e : LineageEvent} {child : Nat} {q : Process} {v : ProcessTable}

theorem Confined.bear (h : Confined s t) (hnew : child ∉ t.live) {origin : Option Nat}
    (hv : v.procs = t.table.procs ∧ v.currentProcess = t.table.currentProcess ∧ v.readyQueue = t.table.readyQueue)
    (hq : ∀ r, origin = some r → r ∈ s.live ∧ PledgeLe q.pledges (s.table.procs r).pledges) :
    Confined s (t.bear (v.link child q) child origin) := by
  obtain ⟨hprocs, hcur, -⟩ := hv
  have hne : child ≠ v.currentProcess := fun he => hnew (he ▸ hcur ▸ h.current)
  refine ⟨?_, fun p hp r hr => ?_⟩
  · exact .tail _ (show v.currentProcess ∈ t.live from hcur ▸ h.current)
  · simp only [Lineage.bear] at hp hr ⊢
    rcases List.mem_cons.mp hp with rfl | hp
    · rw [update_self] at hr
      rw [link_self hne]
      exact hq r hr
    · have hpc : p ≠ child := fun he => hnew (he ▸ hp)
      rw [update_of_ne hpc] at hr
      rw [link_field Process.pledges (fun _ _ => rfl) hpc, hprocs]
      exact h.within p hp r hr

theorem Confined.setCurrent (h : Confined s t) (hq : PledgeLe q.pledges t.table.current.pledges) :
    Confined s { t with table := t.table.setCurrent q } := by
  refine ⟨h.current, fun p hp r hr => ?_⟩
  obtain ⟨hm, hle⟩ := h.within p hp r hr
  refine ⟨hm, ?_⟩
  by_cases hpc : p = t.table.currentProcess
  · subst hpc
    have hself : ((t.table.setCurrent q).procs t.table.currentProcess) = q := set_self ..
    simp only [hself]
    exact hq.trans hle
  · simp only [setCurrent_other _ _ hpc]
    exact hle

theorem Confined.reset (h : Confined s t) (q : Process) :
    Confined s ⟨t.table.setCurrent q, t.live, update t.origin t.table.currentProcess none⟩ := by
  refine ⟨h.current, fun p hp r hr => ?_⟩
  dsimp only at hr hp ⊢
  by_cases hpc : p = t.table.currentProcess
  · rw [hpc, update_self] at hr
    cases hr
  · rw [update_of_ne hpc] at hr
    rw [setCurrent_other _ _ hpc]
    exact h.within p hp r hr

private theorem exec_confined (h : Confined s t) (ha : Allowed t e) : Confined s (t.exec e) := by
  cases e with
  | pledge pledges => exact h.setCurrent (and_pledgeLe _ _)
  | unveil path perms => exact h.setCurrent (.refl _)
  | fork newPd child childKstack =>
    rw [exec]
    by_cases hpd : newPd = 0
    · simp only [hpd, forkProcess, if_true]
      exact h
    · simp only [if_neg hpd, forkProcess]
      exact h.bear ha (shareFiles_kept { t.table with nextPid := t.table.nextPid + 1 } _)
        fun r hr => h.within _ h.current r hr
  | exec entry topAddr =>
    rw [exec]
    by_cases he : entry = 0
    · simp only [he, execProcess, if_true]
      exact h
    · simp only [if_neg he, execProcess]
      exact h.reset _
  | spawn pd entry topAddr newProc kstack =>
    rw [exec]
    by_cases hpd : pd = 0
    · simp only [hpd, sysPosixSpawn, if_true, true_or]
      exact h
    · by_cases he : entry = 0
      · simp only [hpd, he, sysPosixSpawn, if_true, if_false, true_or, or_true]
        exact h
      · by_cases hn : newProc = 0
        · simp only [hpd, he, hn, sysPosixSpawn, if_true, if_false, or_true]
          exact h
        · simp only [hpd, he, hn, sysPosixSpawn, if_false, or_false]
          exact h.bear ha (shareFiles_kept { t.table with nextPid := t.table.nextPid + 1 } _) fun r hr => by cases hr
  | run p => exact ⟨ha, h.within⟩

/-- In every run, a process that comes from an initial one by forks alone has at most its pledges. A
fork gives the child the parent's pledges; a program that is loaded, by `exec` or in a spawned
process, starts with all of them, the former with the unveil list of its process and the latter with none. -/
theorem pledges_shrink (h : Start s) (hr : Runs exec Allowed s t) :
    (∀ p ∈ t.live, Within s t p) ∧
    (∀ newPd child childKstack, newPd ≠ 0 → child ∉ t.live →
      ((t.table.forkProcess newPd child childKstack).1.procs child).pledges = t.table.current.pledges) ∧
    (∀ entry topAddr, entry ≠ 0 → (t.table.execProcess entry topAddr).1.current.pledges = pledgeAll ∧
      (t.table.execProcess entry topAddr).1.current.unveils = t.table.current.unveils) ∧
    ∀ pd entry topAddr newProc kstack, pd ≠ 0 → entry ≠ 0 → newProc ≠ 0 → newProc ∉ t.live →
      ((t.table.sysPosixSpawn pd entry topAddr newProc kstack).1.procs newProc).pledges = pledgeAll ∧
      ((t.table.sysPosixSpawn pd entry topAddr newProc kstack).1.procs newProc).unveils = [] := by
  have hc : Confined s t := by
    refine hr.invariant ⟨h.current, fun p hp q hq => ?_⟩ fun u e hu ha => exec_confined hu ha
    cases (h.origin p hp).symm.trans hq
    exact ⟨hp, .refl _⟩
  have hfresh : ∀ p ∉ t.live, p ≠ t.table.currentProcess := fun p hp he => hp (he ▸ hc.current)
  refine ⟨hc.within, fun newPd child childKstack hpd hnew => ?_, fun entry topAddr he => ?_,
    fun pd entry topAddr newProc kstack hpd he hn hnew => ?_⟩
  · exact congrArg Attributes.pledges (forkProcess_attributes _ hpd (hfresh child hnew))
  · simp only [execProcess, if_neg he, setCurrent_current]
    exact ⟨trivial, trivial⟩
  · obtain ⟨-, hcur, -⟩ := shareFiles_kept { t.table with nextPid := t.table.nextPid + 1 } t.table.current.fdTable
    simp only [sysPosixSpawn, if_neg hpd, if_neg he, if_neg hn]
    rw [link_self (by rw [hcur]; exact hfresh newProc hnew)]
    exact ⟨rfl, rfl⟩

theorem bootTable_pledges : Within ⟨bootTable, [0xC1001000], some⟩
    ((exec ⟨bootTable, [0xC1001000], some⟩ (.pledge 1)).exec (.fork 5 0xC1002000 0xC1003000)) 0xC1002000 := by
  have hnew : 0xC1002000 ∉ [0xC1001000] := by decide
  exact (pledges_shrink (s := ⟨bootTable, [0xC1001000], some⟩) ⟨by decide, fun _ _ => rfl⟩
    (.tail (.tail .refl ⟨.pledge 1, trivial, rfl⟩) ⟨.fork 5 0xC1002000 0xC1003000, hnew, rfl⟩)).1 _ (by decide)

/-- A process that has pledged little has all pledges behind exec. -/
theorem execProcess_regains : (bootTable.sysPledge 1).current.pledges = 1 ∧
    ((bootTable.sysPledge 1).execProcess 0x8048000 0).1.current.pledges = pledgeAll ∧
      ¬ PledgeLe ((bootTable.sysPledge 1).execProcess 0x8048000 0).1.current.pledges
        (bootTable.sysPledge 1).current.pledges := by
  decide

end Lineage
end RetroOs.Kernel
