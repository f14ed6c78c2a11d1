import Mathlib.Data.Finset.Prod
import RetroOs.Kernel.ProcessRing
import RetroOs.Lib.RefCount
import RetroOs.Lib.Runs

/-! Descriptor tables and the open files they refer to, with the records of processes and files that are in use. -/
namespace RetroOs.Kernel
open Lib

instance : NeZero maxProcessFiles := ⟨by decide⟩

/-- The descriptions that were put in a table and that were released so far are listed by address. -/
structure OpenFiles where
  table : ProcessTable
  procs : Finset ℕ
  live : Finset ℕ
  opened : List ℕ
  released : List ℕ

/-- The index of a descriptor, if it is one. -/
def inTable? (fd : Int) : Option (Fin maxProcessFiles) :=
  if h : 0 ≤ fd ∧ fd < maxProcessFiles then some ⟨fd.toNat, by omega⟩ else none

namespace OpenFiles

def slot (s : OpenFiles) (i : Fin maxProcessFiles) : ℕ := s.table.current.fdTable i

def setSlot (s : OpenFiles) (i : Fin maxProcessFiles) (desc : ℕ) : OpenFiles :=
  { s with table := s.table.setCurrent { s.table.current with fdTable := Function.update s.table.current.fdTable i desc } }

def setRefs (s : OpenFiles) (desc : ℕ) (n : Word) : OpenFiles :=
  { s with table := s.table.setFile desc { s.table.files desc with refCount := n } }

def addRef (s : OpenFiles) (desc : ℕ) : OpenFiles := s.setRefs desc ((s.table.files desc).refCount + 1)

/-- `desc->ref_count--`, and where nothing is left close the node and free the description. -/
def dropRef (s : OpenFiles) (desc : ℕ) : OpenFiles :=
  let s := s.setRefs desc ((s.table.files desc).refCount - 1)
  if (s.table.files desc).refCount = 0 then { s with live := s.live.erase desc, released := s.released ++ [desc] } else s

/-- The first free descriptor from a number on. -/
def freeSlot? (s : OpenFiles) (start : ℕ) : Option (Fin maxProcessFiles) :=
  (List.finRange maxProcessFiles).find? fun i => start ≤ i.val ∧ s.slot i = 0

/-- `sys_open` and `sys_openat` once the path is resolved (a node of 0 is none), with the memory for the description.
It is freed again where the table is full. -/
def openNode (s : OpenFiles) (node : ℕ) (flags : Word) (desc : ℕ) : OpenFiles × Int :=
  if node = 0 then (s, -2)
  else
    let s := { s with table := s.table.setFile desc { node, offset := 0, flags, refCount := 1 } }
    match s.freeSlot? 0 with
    | none => (s, -24)
    | some i =>
      let s := s.setSlot i desc
      (if desc = 0 then s else { s with live := insert desc s.live, opened := s.opened ++ [desc] }, i.val)

def closeSlot (s : OpenFiles) (i : Fin maxProcessFiles) : OpenFiles :=
  if s.slot i = 0 then s else (s.setSlot i 0).dropRef (s.slot i)

def sysClose (s : OpenFiles) (fd : Int) : OpenFiles × Int :=
  match inTable? fd with
  | none => (s, -9)
  | some i => if s.slot i = 0 then (s, -9) else (s.closeSlot i, 0)

def share (s : OpenFiles) (i : Fin maxProcessFiles) (desc : ℕ) : OpenFiles := (s.setSlot i desc).addRef desc

def sysDup (s : OpenFiles) (oldfd : Int) : OpenFiles × Int :=
  match inTable? oldfd with
  | none => (s, -24)
  | some i =>
    if s.slot i = 0 then (s, -24)
    else
      match s.freeSlot? 0 with
      | none => (s, -24)
      | some j => (s.share j (s.slot i), j.val)

def sysDup2 (s : OpenFiles) (oldfd newfd : Int) : OpenFiles × Int :=
  match inTable? oldfd, inTable? newfd with
  | some i, some j =>
    if s.slot i = 0 then (s, -9)
    else
      let s := if s.slot j = 0 then s else s.dropRef (s.slot j)
      (s.share j (s.slot i), newfd)
  | _, _ => (s, -9)

/-- `sys_fcntl` with F_DUPFD or F_DUPFD_CLOEXEC. With a negative argument it looks at what lies before the table, which is
not modelled. -/
def sysFcntlDupfd (s : OpenFiles) (fd arg : Int) : OpenFiles × Int :=
  match inTable? fd with
  | none => (s, -9)
  | some i =>
    if s.slot i = 0 then (s, -9)
    else
      match s.freeSlot? arg.toNat with
      | none => (s, -24)
      | some j => (s.share j (s.slot i), j.val)

def forkProcess (s : OpenFiles) (newPd child childKstack : ℕ) : OpenFiles × Int :=
  let r := s.table.forkProcess newPd child childKstack
  ({ s with table := r.1, procs := if newPd = 0 then s.procs else insert child s.procs }, r.2)

def sysPosixSpawn (s : OpenFiles) (pd : ℕ) (entry topAddr : Word) (newProc kstack : ℕ) : OpenFiles × Int :=
  let r := s.table.sysPosixSpawn pd entry topAddr newProc kstack
  ({ s with table := r.1, procs := if pd = 0 ∨ entry = 0 ∨ newProc = 0 then s.procs else insert newProc s.procs }, r.2)

def setZombie (s : OpenFiles) (status : Int) : OpenFiles :=
  { s with table := s.table.setCurrent { s.table.current with state := .zombie, exitCode := BitVec.ofInt 32 status } }

def closeFiles (s : OpenFiles) : OpenFiles := (List.finRange maxProcessFiles).foldl closeSlot s

def exitProcess (s : OpenFiles) (status : Int) : OpenFiles := (s.setZombie status).closeFiles

def sysExit (s : OpenFiles) (status : Int) : OpenFiles := s.setZombie status

/-- `wait_process` and `sys_waitpid` free the record of a zombie child. -/
def reap (s : OpenFiles) (child : ℕ) : OpenFiles :=
  if (s.table.procs child).parent = s.table.currentProcess ∧ (s.table.procs child).state = .zombie then
    { s with procs := s.procs.erase child }
  else s

theorem dropRef_table (s : OpenFiles) (desc : ℕ) :
    (s.dropRef desc).table = s.table.setFile desc { s.table.files desc with refCount := (s.table.files desc).refCount - 1 } := by
  rw [dropRef]
  split_ifs <;> rfl

private theorem closeSlot_table (s : OpenFiles) (i : Fin maxProcessFiles) : (s.closeSlot i).table = s.table.closeFile i := by
  by_cases h : s.slot i = 0
  · rw [closeSlot, if_pos h]
    exact (if_pos h).symm
  · rw [closeSlot, if_neg h, dropRef_table]
    exact (if_neg h).symm

private theorem exitProcess_table (s : OpenFiles) (status : Int) :
    (s.exitProcess status).table.notifyParent = s.table.exitProcess status := by
  have hfold : ∀ (l : List (Fin maxProcessFiles)) (s : OpenFiles),
      (l.foldl closeSlot s).table = l.foldl ProcessTable.closeFile s.table := by
    intro l
    induction l with
    | nil => exact fun _ => rfl
    | cons i l ih =>
      intro s
      rw [List.foldl_cons, List.foldl_cons, ih, closeSlot_table]
  rw [ProcessTable.exitProcess, exitProcess, closeFiles, hfold]
  rfl

end OpenFiles
end RetroOs.Kernel

/-! Runs of the calls that put descriptions into tables and take them out. A description is live while some slot of some
process refers to it, and its node is closed once, with the last of them. -/
namespace RetroOs.Kernel
open Lib

inductive FileCall where
  | openNode (node : ℕ) (flags : Word) (desc : ℕ)
  | sysClose (fd : Int)
  | sysDup (oldfd : Int)
  | sysDup2 (oldfd newfd : Int)
  | sysFcntlDupfd (fd arg : Int)
  | forkProcess (newPd child childKstack : ℕ)
  | sysPosixSpawn (pd : ℕ) (entry topAddr : Word) (newProc kstack : ℕ)
  | exitProcess (status : Int)
  | sysExit (status : Int)
  | reap (child : ℕ)

structure FileEvent where
  caller : ℕ
  call : FileCall

namespace OpenFiles

def call (s : OpenFiles) : FileCall → OpenFiles
  | .openNode node flags desc => (s.openNode node flags desc).1
  | .sysClose fd => (s.sysClose fd).1
  | .sysDup oldfd => (s.sysDup oldfd).1
  | .sysDup2 oldfd newfd => (s.sysDup2 oldfd newfd).1
  | .sysFcntlDupfd fd arg => (s.sysFcntlDupfd fd arg).1
  | .forkProcess newPd child childKstack => (s.forkProcess newPd child childKstack).1
  | .sysPosixSpawn pd entry topAddr newProc kstack => (s.sysPosixSpawn pd entry topAddr newProc kstack).1
  | .exitProcess status => s.exitProcess status
  | .sysExit status => s.sysExit status
  | .reap child => s.reap child

def switchTo (s : OpenFiles) (caller : ℕ) : OpenFiles := { s with table := { s.table with currentProcess := caller } }

def exec (s : OpenFiles) (e : FileEvent) : OpenFiles :=
  if e.caller ∈ s.procs then (s.switchTo e.caller).call e.call else s

def boot (t : ProcessTable) (addr stackTop kernelDirectory : ℕ) : OpenFiles :=
  ⟨t.initMultitasking addr stackTop kernelDirectory, {addr}, ∅, [], []⟩

/-- More records than this do not fit into the address space. -/
def maxProcs : ℕ := 2 ^ 28 - 1

def NewRecord (s : OpenFiles) (p : ℕ) : Prop := p ≠ 0 ∧ p ∉ s.procs ∧ s.procs.card < maxProcs

/-- `dup2` of a descriptor onto itself that is the only reference to its file. -/
def DupsLast (s : OpenFiles) (oldfd newfd : Int) : Prop :=
  oldfd = newfd ∧ ∃ i ∈ inTable? oldfd, s.slot i ≠ 0 ∧ (s.table.files (s.slot i)).refCount = 1

/-- The calls that keep the books, where memory for a new record or description is not in use. -/
def Sound (s : OpenFiles) : FileCall → Prop
  | .openNode _ _ desc => desc ∉ s.live
  | .sysDup2 oldfd newfd => ¬ s.DupsLast oldfd newfd
  | .sysFcntlDupfd _ arg => 0 ≤ arg
  | .forkProcess newPd child _ => newPd ≠ 0 → s.NewRecord child
  | .sysPosixSpawn pd entry _ newProc _ => pd ≠ 0 → entry ≠ 0 → newProc ≠ 0 → s.NewRecord newProc
  | .reap child => (s.table.procs child).parent = s.table.currentProcess → (s.table.procs child).state = .zombie →
    ∀ i, (s.table.procs child).fdTable i = 0
  | .sysClose _ | .sysDup _ | .exitProcess _ | .sysExit _ => True

instance (s : OpenFiles) (p : ℕ) : Decidable (s.NewRecord p) := inferInstanceAs (Decidable (_ ∧ _ ∧ _))

instance (s : OpenFiles) (oldfd newfd : Int) : Decidable (s.DupsLast oldfd newfd) := inferInstanceAs (Decidable (_ ∧ _))

instance (s : OpenFiles) : ∀ c, Decidable (s.Sound c)
  | .openNode .. | .sysDup2 .. => inferInstanceAs (Decidable (¬ _))
  | .sysFcntlDupfd _ arg => inferInstanceAs (Decidable (0 ≤ arg))
  | .forkProcess .. => inferInstanceAs (Decidable (_ → _))
  | .sysPosixSpawn .. => inferInstanceAs (Decidable (_ → _ → _ → _))
  | .reap _ => inferInstanceAs (Decidable (_ → _ → _))
  | .sysClose _ | .sysDup _ | .exitProcess _ | .sysExit _ => instDecidableTrue

def slots (s : OpenFiles) : Finset (ℕ × Fin maxProcessFiles) := s.procs ×ˢ Finset.univ

def holds (s : OpenFiles) (x : ℕ × Fin maxProcessFiles) : ℕ := (s.table.procs x.1).fdTable x.2

def count (s : OpenFiles) (desc : ℕ) : ℕ := (s.table.files desc).refCount.toNat

structure Inv (s : OpenFiles) : Prop where
  counted : Counted s.slots s.holds s.count s.live
  balanced : Balanced s.live s.opened s.released
  few : s.procs.card ≤ maxProcs

variable {s : OpenFiles} {d p : ℕ}

private theorem card_slots (s : OpenFiles) : s.slots.card = s.procs.card * 16 := by
  rw [slots, Finset.card_product, Finset.card_univ, Fintype.card_fin]
  rfl

theorem slot_eq (s : OpenFiles) (i : Fin maxProcessFiles) : s.slot i = s.holds (s.table.currentProcess, i) := rfl

theorem mem_slots (hc : s.table.currentProcess ∈ s.procs) (i : Fin maxProcessFiles) : (s.table.currentProcess, i) ∈ s.slots :=
  Finset.mk_mem_product hc (Finset.mem_univ i)

@[simp] theorem setSlot_holds (s : OpenFiles) (i : Fin maxProcessFiles) (desc : ℕ) :
    (s.setSlot i desc).holds = Function.update s.holds (s.table.currentProcess, i) desc := by
  funext x
  rw [Function.update_apply, holds, setSlot]
  split_ifs with hx
  · subst hx
    dsimp only
    rw [ProcessTable.setCurrent, ProcessTable.set_self]
    exact Function.update_self ..
  · by_cases hp : x.1 = s.table.currentProcess
    · have hi : x.2 ≠ i := fun hi => hx (Prod.ext hp hi)
      dsimp only
      rw [hp, ProcessTable.setCurrent, ProcessTable.set_self]
      rw [holds, hp]
      exact Function.update_of_ne hi ..
    · dsimp only
      rw [ProcessTable.setCurrent_other _ _ hp]
      rfl

private theorem setRefs_files (s : OpenFiles) (desc : ℕ) (n : Word) :
    (s.setRefs desc n).table.files = Function.update s.table.files desc { s.table.files desc with refCount := n } := rfl

private theorem setRefs_count (s : OpenFiles) (desc : ℕ) (n : Word) : (s.setRefs desc n).count = Function.update s.count desc n.toNat := by
  funext e
  rw [Function.update_apply, count, setRefs_files, Function.update_apply]
  split_ifs <;> rfl

theorem dropRef_eq (s : OpenFiles) (desc : ℕ) :
    let n := (s.table.files desc).refCount - 1
    s.dropRef desc =
      if n = 0 then { s.setRefs desc n with live := s.live.erase desc, released := s.released ++ [desc] }
      else s.setRefs desc n := by
  have hleft : ((s.setRefs desc ((s.table.files desc).refCount - 1)).table.files desc).refCount =
      (s.table.files desc).refCount - 1 := by rw [setRefs_files, Function.update_self]
  rw [dropRef, hleft]
  rfl

private theorem dropRef_count (s : OpenFiles) (desc : ℕ) :
    (s.dropRef desc).count = Function.update s.count desc ((s.table.files desc).refCount - 1).toNat := by
  rw [← setRefs_count, dropRef_eq]
  split_ifs <;> rfl

theorem dropRef_procs (s : OpenFiles) (desc : ℕ) : (s.dropRef desc).procs = s.procs := by
  rw [dropRef_eq]
  split_ifs <;> rfl

private theorem dropRef_holds (s : OpenFiles) (desc : ℕ) : (s.dropRef desc).holds = s.holds := by
  rw [dropRef_eq]
  split_ifs <;> rfl

theorem dropRef_left (s : OpenFiles) (desc : ℕ) : (s.dropRef desc).count desc = 0 ↔ (s.table.files desc).refCount - 1 = 0 := by
  rw [dropRef_count, Function.update_self, BitVec.toNat_eq]
  rfl

theorem dropRef_live (s : OpenFiles) (desc : ℕ) :
    (s.dropRef desc).live = if (s.dropRef desc).count desc = 0 then s.live.erase desc else s.live := by
  simp only [dropRef_left]
  rw [dropRef_eq]
  split_ifs <;> rfl

private theorem dropRef_opened (s : OpenFiles) (desc : ℕ) : (s.dropRef desc).opened = s.opened := by
  rw [dropRef_eq]
  split_ifs <;> rfl

private theorem dropRef_released (s : OpenFiles) (desc : ℕ) :
    (s.dropRef desc).released = if (s.dropRef desc).count desc = 0 then s.released ++ [desc] else s.released := by
  simp only [dropRef_left]
  rw [dropRef_eq]
  split_ifs <;> rfl

theorem Inv.count_pos (h : s.Inv) (hd : d ∈ s.live) : 0 < s.count d := by
  rw [h.counted.counts d hd]
  exact (h.counted.live_iff d fun hz => h.counted.null (hz ▸ hd)).mp hd

theorem toNat_sub_one {w : Word} (h : 0 < w.toNat) : (w - 1).toNat = w.toNat - 1 := by
  have := w.isLt
  bv_omega

private theorem toNat_add_one {w : Word} (h : w.toNat < 2 ^ 32 - 1) : (w + 1).toNat = w.toNat + 1 := by
  bv_omega

theorem Inv.closeSlot (h : s.Inv) (hc : s.table.currentProcess ∈ s.procs) (i : Fin maxProcessFiles) : (s.closeSlot i).Inv := by
  rw [OpenFiles.closeSlot]
  split_ifs with hempty
  · exact h
  have hlive : s.slot i ∈ s.live := h.counted.live_of_holds (mem_slots hc i) hempty
  have hcount : ((s.setSlot i 0).dropRef (s.slot i)).count =
      Function.update s.count (s.slot i) (s.count (s.slot i) - 1) := by
    rw [dropRef_count]
    exact congrArg (Function.update s.count (s.slot i)) (toNat_sub_one (h.count_pos hlive))
  have hdrop := h.counted.drop (mem_slots hc i) rfl hempty (congrFun hcount (s.slot i) |>.trans (Function.update_self ..))
    fun e he => (congrFun hcount e).trans (Function.update_of_ne he ..)
  refine ⟨?_, ?_, ?_⟩
  · rw [dropRef_live, slots, dropRef_procs, dropRef_holds, setSlot_holds]
    exact hdrop
  · rw [dropRef_live, dropRef_opened, dropRef_released]
    split_ifs
    · exact h.balanced.release hlive
    · exact h.balanced
  · rw [dropRef_procs]
    exact h.few

theorem Inv.share (h : s.Inv) (hc : s.table.currentProcess ∈ s.procs) {i : Fin maxProcessFiles} (hempty : s.slot i = 0)
    (hd : d ∈ s.live) : (s.share i d).Inv := by
  have hcount : (s.share i d).count = Function.update s.count d (s.count d + 1) := by
    have hlt : s.count d < 2 ^ 32 - 1 := by
      have hle := refs_le s.slots s.holds d
      have hfew : s.procs.card ≤ 2 ^ 28 - 1 := h.few
      rw [card_slots] at hle
      rw [h.counted.counts d hd]
      omega
    rw [OpenFiles.share, addRef, setRefs_count]
    exact congrArg (Function.update s.count d) (toNat_add_one hlt)
  refine ⟨?_, h.balanced, h.few⟩
  have hgrab := h.counted.grab (mem_slots hc i) hempty hd (congrFun hcount d |>.trans (Function.update_self ..))
    fun e he => (congrFun hcount e).trans (Function.update_of_ne he ..)
  rw [show (s.share i d).holds = (s.setSlot i d).holds from rfl, setSlot_holds]
  exact hgrab

theorem freeSlot?_empty {start : ℕ} {i : Fin maxProcessFiles} (h : s.freeSlot? start = some i) : s.slot i = 0 := by
  rw [freeSlot?] at h
  have := List.find?_some h
  exact (of_decide_eq_true this).2

theorem Inv.openNode (h : s.Inv) (hc : s.table.currentProcess ∈ s.procs) (node : ℕ) (flags : Word) {desc : ℕ}
    (hnew : desc ∉ s.live) : (s.openNode node flags desc).1.Inv := by
  rw [OpenFiles.openNode]
  by_cases hnode : node = 0
  · rw [if_pos hnode]
    exact h
  rw [if_neg hnode]
  dsimp only
  generalize hs : ({ s with table := s.table.setFile desc { node, offset := 0, flags, refCount := 1 } } : OpenFiles) = s'
  have hfiles : s'.table.files = Function.update s.table.files desc { node, offset := 0, flags, refCount := 1 } := by rw [← hs]; rfl
  have hcount : s'.count = Function.update s.count desc 1 := by
    funext e
    rw [Function.update_apply, count, hfiles, Function.update_apply]
    split_ifs <;> rfl
  have hother : ∀ e, e ≠ desc → s'.count e = s.count e := fun e he => (congrFun hcount e).trans (Function.update_of_ne he ..)
  have hslots : s'.slots = s.slots := by rw [← hs]; rfl
  have hholds : s'.holds = s.holds := by rw [← hs]; rfl
  have hlive : s'.live = s.live := by rw [← hs]
  have hcur : s'.table.currentProcess = s.table.currentProcess := by rw [← hs]; rfl
  have hsame : s'.Inv := by
    refine ⟨?_, by rw [← hs]; exact h.balanced, by rw [← hs]; exact h.few⟩
    rw [hslots, hholds, hlive]
    exact h.counted.congr fun d hd => hother d fun hz => hnew (hz ▸ hd)
  cases hfree : s'.freeSlot? 0 with
  | none => exact hsame
  | some i =>
    have hempty := freeSlot?_empty hfree
    split_ifs with hdesc
    · -- the memory for the description is missing, and the slot stays empty
      have hstays : (s'.setSlot i desc).holds = s'.holds := by
        rw [setSlot_holds, hdesc, ← hempty, slot_eq, Function.update_eq_self]
      refine ⟨?_, hsame.balanced, hsame.few⟩
      rw [hstays]
      exact hsame.counted
    · have hinstall : Counted s.slots (Function.update s.holds (s.table.currentProcess, i) desc) s'.count (insert desc s.live) := by
        rw [slot_eq, hholds, hcur] at hempty
        exact h.counted.install (mem_slots hc i) hempty hdesc hnew ((congrFun hcount desc).trans (Function.update_self ..)) hother
      refine ⟨?_, ?_, hsame.few⟩
      · rw [show ∀ l o, ({ s'.setSlot i desc with live := l, opened := o } : OpenFiles).holds = (s'.setSlot i desc).holds from
          fun _ _ => rfl, setSlot_holds, hholds, hcur]
        rw [← hslots, ← hlive] at hinstall
        exact hinstall
      · rw [← hlive] at hnew
        exact hsame.balanced.open hnew

theorem Inv.sysClose (h : s.Inv) (hc : s.table.currentProcess ∈ s.procs) (fd : Int) : (s.sysClose fd).1.Inv := by
  rw [OpenFiles.sysClose]
  cases inTable? fd with
  | none => exact h
  | some i =>
    dsimp only
    split_ifs
    · exact h
    · exact h.closeSlot hc i

theorem Inv.sysDup (h : s.Inv) (hc : s.table.currentProcess ∈ s.procs) (oldfd : Int) : (s.sysDup oldfd).1.Inv := by
  rw [OpenFiles.sysDup]
  cases inTable? oldfd with
  | none => exact h
  | some i =>
    dsimp only
    split_ifs with hi
    · exact h
    cases hfree : s.freeSlot? 0 with
    | none => exact h
    | some j => exact h.share hc (freeSlot?_empty hfree) (h.counted.live_of_holds (mem_slots hc i) hi)

theorem Inv.sysFcntlDupfd (h : s.Inv) (hc : s.table.currentProcess ∈ s.procs) (fd arg : Int) :
    (s.sysFcntlDupfd fd arg).1.Inv := by
  rw [OpenFiles.sysFcntlDupfd]
  cases inTable? fd with
  | none => exact h
  | some i =>
    dsimp only
    split_ifs with hi
    · exact h
    cases hfree : s.freeSlot? arg.toNat with
    | none => exact h
    | some j => exact h.share hc (freeSlot?_empty hfree) (h.counted.live_of_holds (mem_slots hc i) hi)

private theorem setSlot_setSlot (s : OpenFiles) (i : Fin maxProcessFiles) (d e : ℕ) : (s.setSlot i d).setSlot i e = s.setSlot i e := by
  have hcur : (s.setSlot i d).table.current = { s.table.current with fdTable := Function.update s.table.current.fdTable i d } :=
    ProcessTable.setCurrent_current ..
  rw [setSlot, hcur]
  dsimp only
  rw [Function.update_idem, setSlot, setSlot, ProcessTable.setCurrent, ProcessTable.setCurrent, ProcessTable.set, ProcessTable.set]
  dsimp only [ProcessTable.setCurrent, ProcessTable.set]
  rw [Function.update_idem]

private theorem dropRef_setSlot (s : OpenFiles) (i : Fin maxProcessFiles) (d e : ℕ) : (s.dropRef d).setSlot i e = (s.setSlot i e).dropRef d := by
  rw [dropRef_eq, dropRef_eq]
  by_cases hn : (s.table.files d).refCount - 1 = 0
  · rw [if_pos hn]
    exact (if_pos hn).symm
  · rw [if_neg hn]
    exact (if_neg hn).symm

theorem dropRef_slot (s : OpenFiles) (d : ℕ) (i : Fin maxProcessFiles) : (s.dropRef d).slot i = s.slot i := by
  rw [dropRef_eq]
  split_ifs <;> rfl

theorem inTable?_eq {fd : Int} {i : Fin maxProcessFiles} (h : inTable? fd = some i) : fd = i.val := by
  rw [inTable?] at h
  split_ifs at h with hfd
  cases h
  exact (Int.toNat_of_nonneg hfd.1).symm

theorem Inv.sysDup2 (h : s.Inv) (hc : s.table.currentProcess ∈ s.procs) {oldfd newfd : Int} (hlast : ¬ s.DupsLast oldfd newfd) :
    (s.sysDup2 oldfd newfd).1.Inv := by
  rw [OpenFiles.sysDup2]
  cases hi : inTable? oldfd with
  | none => exact h
  | some i =>
    cases hj : inTable? newfd with
    | none => exact h
    | some j =>
      dsimp only
      by_cases hold : s.slot i = 0
      · rw [if_pos hold]
        exact h
      have hlive := h.counted.live_of_holds (mem_slots hc i) hold
      rw [if_neg hold]
      by_cases hnew : s.slot j = 0
      · rw [if_pos hnew]
        exact h.share hc hnew hlive
      · -- the slot is emptied first
        have heq : (s.dropRef (s.slot j)).share j (s.slot i) = (s.closeSlot j).share j (s.slot i) := by
          rw [OpenFiles.closeSlot, if_neg hnew, OpenFiles.share, OpenFiles.share, dropRef_setSlot, dropRef_setSlot, setSlot_setSlot]
        have hempty : (s.closeSlot j).slot j = 0 := by
          rw [OpenFiles.closeSlot, if_neg hnew, dropRef_slot, slot_eq, setSlot_holds]
          exact Function.update_self ..
        have hcur : (s.closeSlot j).table.currentProcess ∈ (s.closeSlot j).procs := by
          rw [OpenFiles.closeSlot, if_neg hnew, dropRef_procs, dropRef_table]
          exact hc
        rw [if_neg hnew, dropRef_slot, heq]
        refine (h.closeSlot hc j).share hcur hempty ?_
        by_cases hij : i = j
        · -- the description has another reference
          subst hij
          have hmany : (s.table.files (s.slot i)).refCount - 1 ≠ 0 := by
            intro hone
            exact hlast ⟨(inTable?_eq hi).trans (inTable?_eq hj).symm, i, hi, hold, by bv_omega⟩
          rw [OpenFiles.closeSlot, if_neg hnew, dropRef_live, if_neg fun hz => hmany ((dropRef_left (s.setSlot i 0) _).mp hz)]
          exact hlive
        · have hother : (s.closeSlot j).slot i = s.slot i := by
            rw [OpenFiles.closeSlot, if_neg hnew, dropRef_slot, slot_eq, setSlot_holds]
            exact Function.update_of_ne (fun hx => hij (congrArg Prod.snd hx)) ..
          have := (h.closeSlot hc j).counted.live_of_holds (mem_slots hcur i)
          rw [← slot_eq, hother] at this
          exact this hold

private theorem slots_insert (p : ℕ) (procs : Finset ℕ) :
    (insert p procs ×ˢ Finset.univ : Finset (ℕ × Fin maxProcessFiles)) = procs ×ˢ Finset.univ ∪ {p} ×ˢ Finset.univ := by
  rw [Finset.insert_eq, Finset.union_comm, Finset.union_product]

private theorem slots_disjoint {procs : Finset ℕ} (h : p ∉ procs) :
    Disjoint (procs ×ˢ Finset.univ : Finset (ℕ × Fin maxProcessFiles)) ({p} ×ˢ Finset.univ) :=
  Finset.disjoint_product.mpr (Or.inl (Finset.disjoint_singleton_right.mpr h))

theorem Inv.closeFiles (h : s.Inv) (hc : s.table.currentProcess ∈ s.procs) : s.closeFiles.Inv := by
  have hall : ∀ (l : List (Fin maxProcessFiles)) (s : OpenFiles), s.Inv → s.table.currentProcess ∈ s.procs → (l.foldl OpenFiles.closeSlot s).Inv := by
    intro l
    induction l with
    | nil => exact fun _ h _ => h
    | cons i l ih =>
      intro s h hc
      refine ih _ (h.closeSlot hc i) ?_
      rw [OpenFiles.closeSlot]
      split_ifs
      · exact hc
      · rw [dropRef_procs, dropRef_table]
        exact hc
  exact hall _ s h hc

private theorem setZombie_holds (s : OpenFiles) (status : Int) : (s.setZombie status).holds = s.holds := by
  funext x
  rw [holds, setZombie, ProcessTable.setCurrent]
  exact congrFun (ProcessTable.set_field _ _ _ Process.fdTable (by rfl) x.1) x.2

theorem Inv.setZombie (h : s.Inv) (status : Int) : (s.setZombie status).Inv := by
  refine ⟨?_, h.balanced, h.few⟩
  rw [setZombie_holds]
  exact h.counted

theorem Inv.reap (h : s.Inv) {child : ℕ} (hempty : (s.table.procs child).parent = s.table.currentProcess →
    (s.table.procs child).state = .zombie → ∀ i, (s.table.procs child).fdTable i = 0) : (s.reap child).Inv := by
  rw [OpenFiles.reap]
  split_ifs with hz
  · refine ⟨?_, h.balanced, (Finset.card_le_card (Finset.erase_subset _ _)).trans h.few⟩
    by_cases hin : child ∈ s.procs
    · have hcover : s.slots = s.procs.erase child ×ˢ Finset.univ ∪ {child} ×ˢ Finset.univ := by
        rw [← slots_insert, Finset.insert_erase hin]
        rfl
      refine h.counted.shrink hcover (slots_disjoint (Finset.notMem_erase child _)) fun x hx => ?_
      have hx := Finset.mem_singleton.mp (Finset.mem_product.mp hx).1
      rw [holds, hx]
      exact hempty hz.1 hz.2 x.2
    · rw [Finset.erase_eq_of_notMem hin]
      exact h.counted
  · exact h

private theorem shareFile_refCount (t : ProcessTable) (fds : Fin maxProcessFiles → ℕ) (i : Fin maxProcessFiles) (hd : d ≠ 0) :
    ((ProcessTable.shareFile fds t i).files d).refCount = (t.files d).refCount + if fds i = d then 1 else 0 := by
  rw [ProcessTable.shareFile]
  by_cases hi : fds i = d
  · rw [if_neg (hi ▸ hd), if_pos hi, hi]
    exact congrArg FileDescription.refCount (Function.update_self d _ t.files)
  · rw [if_neg hi]
    split_ifs
    · exact (BitVec.add_zero _).symm
    · refine Eq.trans ?_ (BitVec.add_zero _).symm
      exact congrArg FileDescription.refCount (Function.update_of_ne (Ne.symm hi) _ t.files)

private theorem shareFiles_refCount (t : ProcessTable) (fds : Fin maxProcessFiles → ℕ) (hd : d ≠ 0) :
    ((t.shareFiles fds).files d).refCount = (t.files d).refCount + BitVec.ofNat 32 (refs Finset.univ fds d) := by
  have hfold : ∀ (l : List (Fin maxProcessFiles)) (t : ProcessTable),
      ((l.foldl (ProcessTable.shareFile fds) t).files d).refCount =
        (t.files d).refCount + BitVec.ofNat 32 (l.countP fun i => fds i = d) := by
    intro l
    induction l with
    | nil => exact fun t => (BitVec.add_zero _).symm
    | cons i l ih =>
      intro t
      rw [List.foldl_cons, ih, shareFile_refCount t fds i hd, BitVec.add_assoc, List.countP_cons, Nat.add_comm, BitVec.ofNat_add]
      congr 2
      split_ifs <;> simp_all
  rw [ProcessTable.shareFiles, hfold, List.countP_eq_length_filter]
  rfl

theorem Inv.spawn (h : s.Inv) (hc : s.table.currentProcess ∈ s.procs) (hp : s.NewRecord p) {t : ProcessTable}
    (hfiles : ∀ d, d ≠ 0 → (t.files d).refCount =
      (s.table.files d).refCount + BitVec.ofNat 32 (refs Finset.univ s.table.current.fdTable d))
    (hself : (t.procs p).fdTable = s.table.current.fdTable)
    (hother : ∀ x, x ≠ p → (t.procs x).fdTable = (s.table.procs x).fdTable) :
    ({ s with table := t, procs := insert p s.procs } : OpenFiles).Inv := by
  obtain ⟨hne, hnew, hroom⟩ := hp
  have hdis := slots_disjoint hnew
  generalize hs : ({ s with table := t, procs := insert p s.procs } : OpenFiles) = s'
  have hslots : s'.slots = s.slots ∪ {p} ×ˢ Finset.univ := by
    rw [← hs]
    exact slots_insert p s.procs
  have hholds : ∀ x, s'.holds x = (t.procs x.1).fdTable x.2 := fun x => by
    rw [← hs]
    rfl
  have hmore : ∀ d, refs ({p} ×ˢ Finset.univ) s'.holds d = refs Finset.univ s.table.current.fdTable d := by
    intro d
    rw [refs, refs, Finset.singleton_product, Finset.filter_map, Finset.card_map]
    congr 1
    refine Finset.filter_congr fun i _ => ?_
    rw [Function.comp_apply, Function.Embedding.coeFn_mk, hholds, hself]
  have hlive : ∀ i, s.table.current.fdTable i ≠ 0 → s.table.current.fdTable i ∈ s.live := fun i =>
    h.counted.live_of_holds (mem_slots hc i)
  refine ⟨?_, by rw [← hs]; exact h.balanced, ?_⟩
  · rw [hslots, show s'.live = s.live by rw [← hs]]
    refine h.counted.extend hdis (fun x hx => ?_) (fun x hx hzero => ?_) fun d hd => ?_
    · rw [hholds, hother x.1 fun hx' => hnew (hx' ▸ (Finset.mem_product.mp hx).1)]
      rfl
    · have hx' := Finset.mem_singleton.mp (Finset.mem_product.mp hx).1
      rw [hholds, hx', hself] at hzero ⊢
      exact hlive x.2 hzero
    · have hd0 : d ≠ 0 := fun hz => h.counted.null (hz ▸ hd)
      have hold := h.counted.counts d hd
      have hsum : refs s.slots s.holds d + refs Finset.univ s.table.current.fdTable d < 2 ^ 32 := by
        have h1 := refs_le s.slots s.holds d
        have h2 : refs Finset.univ s.table.current.fdTable d ≤ 16 := by
          refine (refs_le _ _ _).trans ?_
          rw [Finset.card_univ, Fintype.card_fin]
          exact le_refl 16
        have hfew : s.procs.card < 2 ^ 28 - 1 := hroom
        rw [card_slots] at h1
        omega
      rw [hmore, count, ← hs]
      rw [hfiles d hd0, BitVec.toNat_add, BitVec.toNat_ofNat]
      rw [count] at hold
      rw [count, hold, Nat.add_mod_mod, Nat.mod_eq_of_lt hsum]
  · rw [← hs]
    exact (Finset.card_insert_le _ _).trans hroom

theorem link_fdTable (t : ProcessTable) (q : Process) :
    ((t.link p q).procs p).fdTable = q.fdTable ∧ ∀ x, x ≠ p → ((t.link p q).procs x).fdTable = (t.procs x).fdTable :=
  ⟨ProcessTable.link_self_field Process.fdTable (fun _ _ => rfl) q,
    fun _ hx => ProcessTable.link_field Process.fdTable (fun _ _ => rfl) hx q⟩

theorem Inv.forkProcess (h : s.Inv) (hc : s.table.currentProcess ∈ s.procs) {newPd child : ℕ} (childKstack : ℕ)
    (hnew : newPd ≠ 0 → s.NewRecord child) : (s.forkProcess newPd child childKstack).1.Inv := by
  rw [OpenFiles.forkProcess]
  by_cases hpd : newPd = 0
  · rw [if_pos hpd, ProcessTable.forkProcess, if_pos hpd]
    exact h
  · rw [if_neg hpd, ProcessTable.forkProcess, if_neg hpd]
    refine h.spawn hc (hnew hpd) (fun d hd => ?_) (link_fdTable _ _).1 fun x hx => ?_
    · exact shareFiles_refCount { s.table with nextPid := s.table.nextPid + 1 } s.table.current.fdTable hd
    · refine ((link_fdTable _ _).2 x hx).trans ?_
      rw [(ProcessTable.shareFiles_kept _ _).1]

theorem Inv.sysPosixSpawn (h : s.Inv) (hc : s.table.currentProcess ∈ s.procs) {pd newProc : ℕ} {entry : Word} (topAddr : Word)
    (kstack : ℕ) (hnew : pd ≠ 0 → entry ≠ 0 → newProc ≠ 0 → s.NewRecord newProc) :
    (s.sysPosixSpawn pd entry topAddr newProc kstack).1.Inv := by
  rw [OpenFiles.sysPosixSpawn]
  by_cases hpd : pd = 0
  · rw [if_pos (Or.inl hpd), ProcessTable.sysPosixSpawn, if_pos hpd]
    exact h
  by_cases hentry : entry = 0
  · rw [if_pos (Or.inr (Or.inl hentry)), ProcessTable.sysPosixSpawn, if_neg hpd, if_pos hentry]
    exact h
  by_cases hproc : newProc = 0
  · rw [if_pos (Or.inr (Or.inr hproc)), ProcessTable.sysPosixSpawn, if_neg hpd, if_neg hentry, if_pos hproc]
    exact h
  · rw [if_neg (by rintro (h | h | h) <;> contradiction), ProcessTable.sysPosixSpawn, if_neg hpd, if_neg hentry, if_neg hproc]
    refine h.spawn hc (hnew hpd hentry hproc) (fun d hd => ?_) (link_fdTable _ _).1 fun x hx => ?_
    · exact shareFiles_refCount { s.table with nextPid := s.table.nextPid + 1 } s.table.current.fdTable hd
    · refine ((link_fdTable _ _).2 x hx).trans ?_
      rw [(ProcessTable.shareFiles_kept _ _).1]

theorem Inv.call (h : s.Inv) (hc : s.table.currentProcess ∈ s.procs) {c : FileCall} (hs : s.Sound c) : (s.call c).Inv := by
  cases c with
  | openNode node flags desc => exact h.openNode hc node flags hs
  | sysClose fd => exact h.sysClose hc fd
  | sysDup oldfd => exact h.sysDup hc oldfd
  | sysDup2 oldfd newfd => exact h.sysDup2 hc hs
  | sysFcntlDupfd fd arg => exact h.sysFcntlDupfd hc fd arg
  | forkProcess newPd child childKstack => exact h.forkProcess hc childKstack hs
  | sysPosixSpawn pd entry topAddr newProc kstack => exact h.sysPosixSpawn hc topAddr kstack hs
  | exitProcess status => exact (h.setZombie status).closeFiles hc
  | sysExit status => exact h.setZombie status
  | reap child => exact h.reap hs

/-- The same for a step of a run. -/
def SoundEvent (s : OpenFiles) (e : FileEvent) : Prop := (s.switchTo e.caller).Sound e.call

instance (s : OpenFiles) (e : FileEvent) : Decidable (s.SoundEvent e) := inferInstanceAs (Decidable ((s.switchTo e.caller).Sound e.call))

theorem Inv.exec (h : s.Inv) {e : FileEvent} (hs : s.SoundEvent e) : (s.exec e).Inv := by
  rw [OpenFiles.exec]
  split_ifs with hc
  · have hswitch : (s.switchTo e.caller).Inv := ⟨h.counted, h.balanced, h.few⟩
    exact hswitch.call hc hs
  · exact h

theorem inv_boot (t : ProcessTable) (addr stackTop kernelDirectory : ℕ) : (boot t addr stackTop kernelDirectory).Inv := by
  have hempty : ∀ d, d ≠ 0 → refs (boot t addr stackTop kernelDirectory).slots (boot t addr stackTop kernelDirectory).holds d = 0 := by
    intro d hd
    refine Nat.eq_zero_of_not_pos fun hpos => ?_
    obtain ⟨x, hx, rfl⟩ := refs_pos.mp hpos
    have hx' := Finset.mem_singleton.mp (Finset.mem_product.mp hx).1
    refine hd ?_
    rw [holds, hx', boot, ProcessTable.initMultitasking]
    exact congrFun (congrArg Process.fdTable (ProcessTable.set_self _ _ _)) x.2
  refine ⟨⟨Finset.notMem_empty 0, fun d hd => absurd hd (Finset.notMem_empty d), fun d hd => ?_⟩, fun d => ?_, ?_⟩
  · rw [hempty d hd]
    exact iff_of_false (Finset.notMem_empty d) (by omega)
  · rfl
  · rw [boot, Finset.card_singleton]
    decide

/-- What is claimed of a state. -/
structure Accounted (s : OpenFiles) : Prop where
  counts : ∀ d ∈ s.live, (s.table.files d).refCount.toNat = refs s.slots s.holds d
  notFreed : ∀ p ∈ s.procs, ∀ i, (s.table.procs p).fdTable i ≠ 0 → (s.table.procs p).fdTable i ∈ s.live
  /-- Each description that was put in a table was released once, unless it is still in one. -/
  releases : ∀ d, d ≠ 0 → s.opened.count d = s.released.count d + if 0 < refs s.slots s.holds d then 1 else 0

theorem Inv.accounted (h : s.Inv) : s.Accounted where
  counts := h.counted.counts
  notFreed p hp i hne := h.counted.live_of_holds (x := (p, i)) (Finset.mk_mem_product hp (Finset.mem_univ i)) hne
  releases d hd := by
    rw [h.balanced d]
    simp only [h.counted.live_iff d hd]

/-- In every run of such calls each description has its number of references and is released with the last of them. -/
theorem refs_runs (t : ProcessTable) (addr stackTop kernelDirectory : ℕ) {es : List FileEvent}
    (hr : Along exec SoundEvent (boot t addr stackTop kernelDirectory) es) :
    (es.foldl exec (boot t addr stackTop kernelDirectory)).Accounted := by
  have hinv := hr.relates (R := fun s s' => s.Inv → s'.Inv) (fun _ h => h) (fun h1 h2 h => h2 (h1 h)) (fun _ _ hs h => h.exec hs)
  exact (hinv (inv_boot t addr stackTop kernelDirectory)).accounted

def firstProcess : OpenFiles := boot ⟨fun _ => .zero, fun _ => ⟨0, 0, 0, 0⟩, 0, 0, 1, 0⟩ 0xC1001000 0 1

theorem inherited_file_released :
    let es : List FileEvent := [⟨0xC1001000, .openNode 7 0 0xC2000000⟩, ⟨0xC1001000, .forkProcess 5 0xC1002000 0xC1003000⟩,
      ⟨0xC1001000, .sysClose 0⟩, ⟨0xC1002000, .sysDup2 0 3⟩, ⟨0xC1002000, .exitProcess 0⟩, ⟨0xC1001000, .reap 0xC1002000⟩]
    let s := es.foldl exec firstProcess
    s.Accounted ∧ s.opened = [0xC2000000] ∧ s.released = [0xC2000000] :=
  ⟨refs_runs _ _ _ _ (by decide +kernel), by decide +kernel, by decide +kernel⟩

/-- `dup2` of the only descriptor of a file onto itself leaves it in a slot, freed. And a child that leaves through
`_exit` keeps its references for ever. -/
theorem books_broken :
    (let es : List FileEvent := [⟨0xC1001000, .openNode 7 0 0xC2000000⟩, ⟨0xC1001000, .sysDup2 0 0⟩]
    let s := es.foldl exec firstProcess
    ¬ s.Accounted ∧ (s.table.procs 0xC1001000).fdTable 0 = 0xC2000000 ∧ s.released = [0xC2000000]) ∧
    let es : List FileEvent := [⟨0xC1001000, .openNode 7 0 0xC2000000⟩, ⟨0xC1001000, .forkProcess 5 0xC1002000 0xC1003000⟩,
      ⟨0xC1002000, .sysExit 0⟩, ⟨0xC1001000, .reap 0xC1002000⟩, ⟨0xC1001000, .sysClose 0⟩]
    let s := es.foldl exec firstProcess
    ¬ s.Accounted ∧ refs s.slots s.holds 0xC2000000 = 0 ∧ s.released = [] := by
  refine ⟨⟨fun h => ?_, by decide +kernel, by decide +kernel⟩, fun h => ?_, by decide +kernel, by decide +kernel⟩
  · exact absurd (h.notFreed 0xC1001000 (by decide +kernel) 0 (by decide +kernel)) (by decide +kernel)
  · exact absurd (h.releases 0xC2000000 (by decide)) (by decide +kernel)

end OpenFiles
end RetroOs.Kernel
