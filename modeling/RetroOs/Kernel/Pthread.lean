import RetroOs.Kernel.Mutex

/-! The thread table and the calls that make, end, join and detach threads. A call gives the stack that it frees, 0 for
none. -/
namespace RetroOs.Kernel

def maxThreads : ℕ := 64

instance : NeZero maxThreads := ⟨by decide⟩

def eSrch : Int := 3
def eAgain : Int := 11
def eNomem : Int := 12
def eInval : Int := 22

/-- A thread control block. -/
structure PThread where
  tid : Word
  inUse : Bool
  detached : Bool
  joined : Bool
  exited : Bool
  retval : Word
  stack : ℕ
  deriving DecidableEq

structure PThreads where
  threads : Fin maxThreads → PThread
  nextTid : Word
  initialized : Bool

namespace PThreads

def setThread (s : PThreads) (i : Fin maxThreads) (t : PThread) : PThreads := { s with threads := Function.update s.threads i t }

/-- The main thread has the first entry. -/
def initThreads (s : PThreads) : PThreads :=
  if s.initialized then s
  else
    { s with
      threads := fun i =>
        if i = 0 then { s.threads i with tid := 0, inUse := true, detached := false, joined := false, exited := false }
        else { s.threads i with tid := 0, inUse := false }
      initialized := true }

def findThread (s : PThreads) (tid : Word) : Option (Fin maxThreads) :=
  (List.finRange maxThreads).find? fun i => (s.threads i).inUse ∧ (s.threads i).tid = tid

def freeSlot (s : PThreads) : Option (Fin maxThreads) := (List.finRange maxThreads).find? fun i => (s.threads i).inUse = false

def allocThread (s : PThreads) : PThreads × Option (Fin maxThreads) :=
  match s.freeSlot with
  | none => (s, none)
  | some i =>
    ({ s.setThread i { s.threads i with tid := s.nextTid, inUse := true, detached := false, joined := false, exited := false, retval := 0 } with
        nextTid := s.nextTid + 1 }, some i)

/-- The pointers for the thread and its start routine are there, the attributes ask for a detached thread, and what `kmalloc`
gives for its stack. -/
structure CreateArgs where
  valid : Bool
  detached : Bool
  stack : ℕ

def pthreadCreate (s : PThreads) (args : CreateArgs) : PThreads × Except Int Word :=
  let s := s.initThreads
  if ¬ args.valid then (s, .error eInval)
  else
    match s.allocThread with
    | (s, none) => (s, .error eAgain)
    | (s, some i) =>
      let t := { s.threads i with stack := args.stack }
      if args.stack = 0 then (s.setThread i { t with inUse := false }, .error eNomem)
      else (s.setThread i { t with detached := args.detached }, .ok t.tid)

/-- There are no keys for data of threads. A thread without an entry ends with its process. -/
def pthreadExit (s : PThreads) (self retval : Word) : PThreads × ℕ :=
  match s.findThread self with
  | none => (s, 0)
  | some i =>
    let t := { s.threads i with retval, exited := true }
    if t.detached then (s.setThread i { t with inUse := false }, t.stack) else (s.setThread i t, 0)

/-- `pthread_join` up to its loop, at an entry. -/
def joinStart (s : PThreads) (self thread : Word) : PThreads × (Fin maxThreads ⊕ Int) :=
  match s.findThread thread with
  | none => (s, .inr eSrch)
  | some i =>
    let t := s.threads i
    if t.detached then (s, .inr eInval)
    else if t.tid = self then (s, .inr eDeadlk)
    else if t.joined then (s, .inr eInval)
    else (s.setThread i { t with joined := true }, .inl i)

/-- The loop: the thread has exited and its value and its stack are there, or the call goes on waiting. -/
def joinOn (s : PThreads) (i : Fin maxThreads) : Option (PThreads × Word × ℕ) :=
  let t := s.threads i
  if t.exited then some (s.setThread i { t with inUse := false }, t.retval, t.stack) else none

def pthreadDetach (s : PThreads) (thread : Word) : PThreads × Int × ℕ :=
  match s.findThread thread with
  | none => (s, eSrch, 0)
  | some i =>
    let t := s.threads i
    if t.detached then (s, eInval, 0)
    else
      let t := { t with detached := true }
      if t.exited then (s.setThread i { t with inUse := false }, 0, t.stack) else (s.setThread i t, 0, 0)

variable {s : PThreads} {i j : Fin maxThreads} {t : PThread} {tid : Word}

@[simp] theorem setThread_self : (s.setThread i t).threads i = t := Function.update_self ..

theorem setThread_other (h : j ≠ i) : (s.setThread i t).threads j = s.threads j := Function.update_of_ne h ..

private theorem findThread_some (h : s.findThread tid = some i) : (s.threads i).inUse = true ∧ (s.threads i).tid = tid := by
  simpa using List.find?_some h

private theorem findThread_none (h : s.findThread tid = none) (hi : (s.threads i).inUse = true) : (s.threads i).tid ≠ tid := by
  simpa [hi] using List.find?_eq_none.mp h i (List.mem_finRange i)

theorem freeSlot_some (h : s.freeSlot = some i) : (s.threads i).inUse = false := by simpa using List.find?_some h

/-- What a thread is when it is made, or its entry when there is no memory for its stack. -/
def newThread (s : PThreads) (args : CreateArgs) : PThread :=
  { tid := s.nextTid, inUse := args.stack ≠ 0, detached := args.stack ≠ 0 ∧ args.detached, joined := false, exited := false, retval := 0,
    stack := args.stack }

variable {args : CreateArgs}

private theorem pthreadCreate_invalid (hv : ¬ args.valid = true) : (s.pthreadCreate args).1 = s.initThreads := by
  simp [pthreadCreate, hv]

private theorem pthreadCreate_full (hv : args.valid = true) (hfree : s.initThreads.freeSlot = none) : (s.pthreadCreate args).1 = s.initThreads := by
  simp only [pthreadCreate, hv, not_true, if_false, allocThread, hfree]

private theorem pthreadCreate_made (hv : args.valid = true) (hfree : s.initThreads.freeSlot = some i) :
    (s.pthreadCreate args).1 =
      { s.initThreads.setThread i (s.initThreads.newThread args) with nextTid := s.initThreads.nextTid + 1 } := by
  simp only [pthreadCreate, hv, not_true, if_false, allocThread, hfree]
  by_cases hstack : args.stack = 0
  · simp [hstack, setThread, newThread]
  · simp [hstack, setThread, newThread]

end PThreads
end RetroOs.Kernel

/-! Runs of threads that are made, end, and are joined and detached: each stack is freed once, when its thread has ended and
is joined or detached, and the entry of a thread is its own until then. -/
namespace RetroOs.Kernel
open Lib

/-- What became of a thread: its entry and stack, what it exited with, whether it was detached, by whom it is being joined
and whether a call to join it has returned. -/
structure Life where
  slot : Fin maxThreads
  stack : ℕ
  exit : Option Word
  detached : Bool
  joiner : Option ℕ
  joined : Bool
  deriving DecidableEq

namespace Life

def Over (l : Life) : Prop := l.exit.isSome = true ∧ (l.joined = true ∨ l.detached = true)

instance (l : Life) : Decidable l.Over := inferInstanceAs (Decidable (_ ∧ _))

theorem not_over {l : Life} (hexit : l.exit = none) : ¬ l.Over := by
  rintro ⟨hsome, -⟩
  rw [hexit] at hsome
  cases hsome

def entry (l : Life) (n : ℕ) : PThread where
  tid := BitVec.ofNat 32 n
  inUse := true
  detached := l.detached
  joined := l.joiner.isSome
  exited := l.exit.isSome
  retval := l.exit.getD 0
  stack := l.stack

/-- The main thread when the table is made. -/
def main : Life := { slot := 0, stack := 0, exit := none, detached := false, joiner := none, joined := false }

end Life

/-- The table, with the threads in the order of making, the calls that wait at an entry to join a thread, whose stack is at
each address, how often the stack of each was freed and how often something else was, and what the calls to join
returned. -/
structure ThreadRun where
  table : PThreads
  made : ℕ
  lives : ℕ → Option Life
  waits : ℕ → Option (Fin maxThreads × ℕ)
  owners : ℕ → Option ℕ
  frees : ℕ → ℕ
  wild : ℕ
  joins : List (ℕ × Word)

inductive ThreadEvent where
  | create (k : ℕ) (args : PThreads.CreateArgs)
  | exit (k : ℕ) (retval : Word)
  | join (k : ℕ) (thread : Word)
  /-- A call that waits to join a thread goes on. -/
  | goOn (k : ℕ)
  | detach (k : ℕ) (thread : Word)

namespace ThreadRun
open PThreads

def tid (k : ℕ) : Word := BitVec.ofNat 32 k

def setLife (s : ThreadRun) (n : ℕ) (l : Life) : ThreadRun := { s with lives := Function.update s.lives n (some l) }

/-- A stack is freed unless its address is null. -/
def kfree (s : ThreadRun) (a : ℕ) : ThreadRun :=
  if a = 0 then s
  else
    match s.owners a with
    | none => { s with wild := s.wild + 1 }
    | some n => { s with owners := Function.update s.owners a none, frees := Function.update s.frees n (s.frees n + 1) }

def begin (s : ThreadRun) : ThreadRun :=
  { s with table := s.table.initThreads, lives := if s.table.initialized then s.lives else Function.update s.lives 0 (some .main) }

def create (s : ThreadRun) (args : CreateArgs) : ThreadRun :=
  let s' := { s.begin with table := (s.table.pthreadCreate args).1 }
  if ¬ args.valid then s'
  else
    match s.table.initThreads.freeSlot with
    | none => s'
    | some i =>
      let s' := { s' with made := s.made + 1 }
      if args.stack = 0 then s'
      else
        { s'.setLife s.made { slot := i, stack := args.stack, exit := none, detached := args.detached, joiner := none, joined := false } with
          owners := Function.update s.owners args.stack (some s.made) }

def exit (s : ThreadRun) (k : ℕ) (retval : Word) : ThreadRun :=
  let r := s.table.pthreadExit (tid k) retval
  ((s.lives k).elim { s with table := r.1 } fun l => { s with table := r.1 }.setLife k { l with exit := some retval }).kfree r.2

def goOn (s : ThreadRun) (k : ℕ) : ThreadRun :=
  match s.waits k with
  | none => s
  | some (i, n) =>
    match s.table.joinOn i with
    | none => s
    | some (table, value, stack) =>
      let s' := { s with table, waits := Function.update s.waits k none, joins := s.joins ++ [(n, value)] }
      ((s.lives n).elim s' fun l => s'.setLife n { l with joiner := none, joined := true }).kfree stack

def join (s : ThreadRun) (k : ℕ) (thread : Word) : ThreadRun :=
  match s.table.joinStart (tid k) thread with
  | (_, .inr _) => s
  | (table, .inl i) =>
    let s' := { s with table, waits := Function.update s.waits k (some (i, thread.toNat)) }
    ((s.lives thread.toNat).elim s' fun l => s'.setLife thread.toNat { l with joiner := some k }).goOn k

def detach (s : ThreadRun) (thread : Word) : ThreadRun :=
  let r := s.table.pthreadDetach thread
  let s' := { s with table := r.1 }
  if r.2.1 = 0 then
    ((s.lives thread.toNat).elim s' fun l => s'.setLife thread.toNat { l with detached := true }).kfree r.2.2
  else s'

def exec (s : ThreadRun) : ThreadEvent → ThreadRun
  | .create _ args => s.create args
  | .exit k retval => s.exit k retval
  | .join k thread => s.join k thread
  | .goOn k => s.goOn k
  | .detach _ thread => s.detach thread

/-- Before any call; the main thread is there. -/
def start : ThreadRun where
  table := { threads := fun _ => ⟨0, false, false, false, false, 0, 0⟩, nextTid := 1, initialized := false }
  made := 1
  lives _ := none
  waits _ := none
  owners _ := none
  frees _ := 0
  wild := 0
  joins := []

def Running (s : ThreadRun) (k : ℕ) : Prop :=
  s.waits k = none ∧ ((s.lives k).any fun l => l.exit.isNone) = true ∨ k = 0 ∧ s.table.initialized = false

instance (s : ThreadRun) (k : ℕ) : Decidable (s.Running k) :=
  inferInstanceAs (Decidable (_ ∧ _ ∨ _))

/-- Calls are made by threads that are there, and `kmalloc` gives null or memory that is not a stack. -/
def Proper (s : ThreadRun) : ThreadEvent → Prop
  | .create k args => s.Running k ∧ (args.stack = 0 ∨ s.owners args.stack = none)
  | .exit k _ | .join k _ | .detach k _ => s.Running k
  | .goOn _ => True

instance (s : ThreadRun) : ∀ e, Decidable (s.Proper e)
  | .create k args => inferInstanceAs (Decidable (s.Running k ∧ (args.stack = 0 ∨ s.owners args.stack = none)))
  | .exit k _ | .join k _ | .detach k _ => inferInstanceAs (Decidable (s.Running k))
  | .goOn _ => instDecidableTrue

def Meets (s : ThreadRun) (e : ThreadEvent) : Prop :=
  s.Proper e ∧
    match e with
    | .create _ _ => s.made < 2 ^ 32
    | .detach _ thread => ∀ i ∈ s.table.findThread thread, (s.table.threads i).joined = false
    | _ => True

instance (s : ThreadRun) : ∀ e, Decidable (s.Meets e)
  | .create k args => inferInstanceAs (Decidable (s.Proper (.create k args) ∧ s.made < 2 ^ 32))
  | .exit k retval => inferInstanceAs (Decidable (s.Proper (.exit k retval) ∧ True))
  | .join k thread => inferInstanceAs (Decidable (s.Proper (.join k thread) ∧ True))
  | .goOn k => inferInstanceAs (Decidable (s.Proper (.goOn k) ∧ True))
  | .detach k thread => inferInstanceAs (Decidable (s.Proper (.detach k thread) ∧
      ∀ i ∈ s.table.findThread thread, (s.table.threads i).joined = false))

/-- What a state is to be. -/
structure Sound (s : ThreadRun) : Prop where
  freed : ∀ n l, n ≠ 0 → s.lives n = some l → s.frees n = if l.Over then 1 else 0
  wild : s.wild = 0
  /-- Until then its entry is its own. -/
  held : ∀ n l, s.lives n = some l → ¬ l.Over → (s.table.threads l.slot).inUse = true ∧ (s.table.threads l.slot).tid = tid n
  apart : ∀ n m l l', s.lives n = some l → s.lives m = some l' → ¬ l.Over → ¬ l'.Over → l.slot = l'.slot → n = m
  joins : ∀ n v, (n, v) ∈ s.joins → ∃ l, s.lives n = some l ∧ l.exit = some v
  /-- The entry at which a call waits is that of the thread it is to join. -/
  waits : ∀ k i n, s.waits k = some (i, n) → ∃ l, s.lives n = some l ∧ l.slot = i ∧ ¬ l.Over

structure Inv (s : ThreadRun) : Prop where
  made : s.made ≤ 2 ^ 32
  nextTid : s.table.nextTid = tid s.made
  fewer : ∀ n l, s.lives n = some l → n < s.made
  positive : 0 < s.made
  first : s.table.initialized = false →
    (∀ i, (s.table.threads i).inUse = false) ∧ (s.table.threads 0).retval = 0 ∧ (s.table.threads 0).stack = 0 ∧ ∀ n, s.lives n = none
  entries : ∀ n l, s.lives n = some l → ¬ l.Over → s.table.threads l.slot = l.entry n
  users : ∀ i, (s.table.threads i).inUse = true → ∃ n l, s.lives n = some l ∧ ¬ l.Over ∧ l.slot = i
  memory : ∀ n l, s.lives n = some l → ¬ l.Over → if n = 0 then l.stack = 0 else l.stack ≠ 0 ∧ s.owners l.stack = some n
  frees : ∀ n l, n ≠ 0 → s.lives n = some l → s.frees n = if l.Over then 1 else 0
  unmade : ∀ n, s.made ≤ n → s.frees n = 0
  wild : s.wild = 0
  ended : ∀ n l, s.lives n = some l → l.joined = true → l.exit.isSome = true
  waits : ∀ k i n, s.waits k = some (i, n) → ∃ l, s.lives n = some l ∧ l.slot = i ∧ l.joiner = some k ∧ l.joined = false ∧ l.detached = false
  joins : ∀ n v, (n, v) ∈ s.joins → ∃ l, s.lives n = some l ∧ l.exit = some v

variable {s : ThreadRun} {n m k : ℕ} {l l' : Life} {i : Fin maxThreads} {t : PThread} {thread : Word}
  {waits : ℕ → Option (Fin maxThreads × ℕ)} {joins : List (ℕ × Word)} {owners : ℕ → Option ℕ} {frees : ℕ → ℕ} {a : ℕ}

theorem kfree_zero : s.kfree 0 = s := rfl

private theorem kfree_owned (ha : a ≠ 0) (ho : s.owners a = some n) :
    s.kfree a = { s with owners := Function.update s.owners a none, frees := Function.update s.frees n (s.frees n + 1) } := by
  rw [kfree, if_neg ha, ho]

private theorem tid_inj (hn : n < 2 ^ 32) (hm : m < 2 ^ 32) (h : tid n = tid m) : n = m := by
  have hnat := congrArg BitVec.toNat h
  rwa [tid, tid, BitVec.toNat_ofNat, BitVec.toNat_ofNat, Nat.mod_eq_of_lt hn, Nat.mod_eq_of_lt hm] at hnat

theorem Inv.lt (h : s.Inv) (hl : s.lives n = some l) : n < 2 ^ 32 := (h.fewer n l hl).trans_le h.made

theorem Inv.apart (h : s.Inv) (hl : s.lives n = some l) (hl' : s.lives m = some l') (hno : ¬ l.Over) (hno' : ¬ l'.Over)
    (hslot : l.slot = l'.slot) : n = m := by
  have hentry := h.entries n l hl hno
  rw [hslot, h.entries m l' hl' hno'] at hentry
  exact (tid_inj (h.lt hl') (h.lt hl) (congrArg PThread.tid hentry)).symm

theorem Inv.found (h : s.Inv) (hf : s.table.findThread thread = some i) :
    ∃ l, s.lives thread.toNat = some l ∧ ¬ l.Over ∧ l.slot = i ∧ s.table.threads i = l.entry thread.toNat := by
  obtain ⟨huse, htid⟩ := findThread_some hf
  obtain ⟨n, l, hl, hno, rfl⟩ := h.users i huse
  have hentry := h.entries n l hl hno
  rw [hentry] at htid
  obtain rfl : n = thread.toNat := by
    rw [← htid]
    exact (Nat.mod_eq_of_lt (h.lt hl)).symm
  exact ⟨l, hl, hno, rfl, hentry⟩

theorem Inv.initialized (h : s.Inv) (hl : s.lives n = some l) : s.table.initialized = true := by
  by_contra hfalse
  have hnone := (h.first (Bool.eq_false_iff.mpr hfalse)).2.2.2 n
  rw [hl] at hnone
  cases hnone

/-- What becomes of one thread leaves the others as they are. -/
theorem Inv.moves (h : s.Inv) (hl : s.lives n = some l) (hno : ¬ l.Over) (hslot : l'.slot = l.slot)
    (hentry : ¬ l'.Over → t = l'.entry n) (huse : l'.Over → t.inUse = false) (hended : l'.joined = true → l'.exit.isSome = true)
    (howner : ¬ l'.Over → if n = 0 then l'.stack = 0 else l'.stack ≠ 0 ∧ owners l'.stack = some n)
    (howners : ∀ a m, m ≠ n → s.owners a = some m → owners a = some m)
    (hfree : n ≠ 0 → frees n = if l'.Over then 1 else 0) (hfrees : ∀ m, m ≠ n → frees m = s.frees m)
    (hwaits : ∀ k i m, waits k = some (i, m) → ∃ l'', (s.setLife n l').lives m = some l'' ∧ l''.slot = i ∧ l''.joiner = some k ∧
      l''.joined = false ∧ l''.detached = false)
    (hjoins : ∀ m v, (m, v) ∈ joins → ∃ l'', (s.setLife n l').lives m = some l'' ∧ l''.exit = some v) :
    Inv { s.setLife n l' with table := s.table.setThread l.slot t, waits, joins, owners, frees } := by
  have hself : (s.setLife n l').lives n = some l' := Function.update_self ..
  have hother : ∀ m, m ≠ n → (s.setLife n l').lives m = s.lives m := fun m hm => Function.update_of_ne hm ..
  refine ⟨h.made, h.nextTid, fun m x hx => ?_, h.positive, fun hz => ?_, fun m x hx hnox => ?_, fun j hj => ?_, fun m x hx hnox => ?_,
    fun m x hm hx => ?_, fun m hm => ?_, h.wild, fun m x hx hjoined => ?_, hwaits, hjoins⟩
  · by_cases hmn : m = n
    · exact hmn ▸ h.fewer n l hl
    · exact h.fewer m x ((hother m hmn).symm.trans hx)
  · exact absurd ((h.initialized hl).symm.trans hz) Bool.noConfusion
  · by_cases hmn : m = n
    · subst hmn
      cases hself.symm.trans hx
      rw [hslot]
      exact setThread_self.trans (hentry hnox)
    · have hx' := (hother m hmn).symm.trans hx
      have hne : x.slot ≠ l.slot := fun heq => hmn (h.apart hx' hl hnox hno heq)
      exact (setThread_other hne).trans (h.entries m x hx' hnox)
  · by_cases hj' : j = l.slot
    · subst hj'
      have hno' : ¬ l'.Over := by
        intro hov
        have hout := huse hov
        rw [← setThread_self (s := s.table) (i := l.slot) (t := t)] at hout
        exact absurd (hout.symm.trans hj) Bool.noConfusion
      exact ⟨n, l', hself, hno', hslot⟩
    · rw [setThread_other hj'] at hj
      obtain ⟨m, x, hx, hnox, rfl⟩ := h.users j hj
      have hmn : m ≠ n := by
        rintro rfl
        exact hj' (congrArg Life.slot (Option.some.inj (hx.symm.trans hl)))
      exact ⟨m, x, (hother m hmn).trans hx, hnox, rfl⟩
  · by_cases hmn : m = n
    · subst hmn
      cases hself.symm.trans hx
      exact howner hnox
    · have hmem := h.memory m x ((hother m hmn).symm.trans hx) hnox
      split
      · rwa [if_pos ‹_›] at hmem
      · rw [if_neg ‹_›] at hmem
        exact ⟨hmem.1, howners _ m hmn hmem.2⟩
  · by_cases hmn : m = n
    · subst hmn
      cases hself.symm.trans hx
      exact hfree hm
    · exact (hfrees m hmn).trans (h.frees m x hm ((hother m hmn).symm.trans hx))
  · have hmn : m ≠ n := ((h.fewer n l hl).trans_le hm).ne'
    exact (hfrees m hmn).trans (h.unmade m hm)
  · by_cases hmn : m = n
    · subst hmn
      cases hself.symm.trans hx
      exact hended hjoined
    · exact h.ended m x ((hother m hmn).symm.trans hx) hjoined

theorem Inv.stays (h : s.Inv) (hl : s.lives n = some l) (hno : ¬ l.Over) (hslot : l'.slot = l.slot) (hstack : l'.stack = l.stack)
    (hno' : ¬ l'.Over) (hended : l'.joined = true → l'.exit.isSome = true)
    (hwaits : ∀ k i m, waits k = some (i, m) → ∃ l'', (s.setLife n l').lives m = some l'' ∧ l''.slot = i ∧ l''.joiner = some k ∧
      l''.joined = false ∧ l''.detached = false)
    (hjoins : ∀ m v, (m, v) ∈ joins → ∃ l'', (s.setLife n l').lives m = some l'' ∧ l''.exit = some v) :
    Inv { s.setLife n l' with table := s.table.setThread l.slot (l'.entry n), waits, joins } := by
  apply h.moves hl hno hslot (fun _ => rfl) (fun hov => absurd hov hno') hended (fun _ => ?_) (fun _ _ _ ho => ho) (fun hn => ?_)
    (fun _ _ => rfl) hwaits hjoins
  · rw [hstack]
    exact h.memory n l hl hno
  · rw [if_neg hno']
    exact (h.frees n l hn hl).trans (if_neg hno)

theorem Inv.ends (h : s.Inv) (hl : s.lives n = some l) (hno : ¬ l.Over) (hslot : l'.slot = l.slot) (huse : t.inUse = false)
    (hov : l'.Over)
    (hwaits : ∀ k i m, waits k = some (i, m) → ∃ l'', (s.setLife n l').lives m = some l'' ∧ l''.slot = i ∧ l''.joiner = some k ∧
      l''.joined = false ∧ l''.detached = false)
    (hjoins : ∀ m v, (m, v) ∈ joins → ∃ l'', (s.setLife n l').lives m = some l'' ∧ l''.exit = some v) :
    Inv ({ s.setLife n l' with table := s.table.setThread l.slot t, waits, joins }.kfree l.stack) := by
  have hmem := h.memory n l hl hno
  by_cases hn : n = 0
  · rw [if_pos hn] at hmem
    rw [hmem, kfree_zero]
    exact h.moves hl hno hslot (fun hno' => absurd hov hno') (fun _ => huse) (fun _ => hov.1) (fun hno' => absurd hov hno')
      (fun _ _ _ ho => ho) (fun hn' => absurd hn hn') (fun _ _ => rfl) hwaits hjoins
  · rw [if_neg hn] at hmem
    rw [kfree_owned (s := { s.setLife n l' with table := s.table.setThread l.slot t, waits, joins }) hmem.1 hmem.2]
    apply h.moves hl hno hslot (fun hno' => absurd hov hno') (fun _ => huse) (fun _ => hov.1) (fun hno' => absurd hov hno')
      (fun a m hm ho => ?_) (fun _ => ?_) (fun m hm => Function.update_of_ne hm ..) hwaits hjoins
    · have hne : a ≠ l.stack := by
        rintro rfl
        exact hm (Option.some.inj (ho.symm.trans hmem.2))
      exact (Function.update_of_ne hne ..).trans ho
    · rw [if_pos hov]
      refine (Function.update_self ..).trans ?_
      exact congrArg (· + 1) ((h.frees n l hn hl).trans (if_neg hno))

theorem Inv.begin (h : s.Inv) : s.begin.Inv := by
  cases hinit : s.table.initialized with
  | true =>
    have hsame : s.begin = s := by simp [ThreadRun.begin, initThreads, hinit]
    rwa [hsame]
  | false =>
    obtain ⟨huse, hretval, hstack, hlives⟩ := h.first hinit
    have hthreads : s.begin.table.threads = fun i =>
        if i = 0 then { s.table.threads i with tid := 0, inUse := true, detached := false, joined := false, exited := false }
        else { s.table.threads i with tid := 0, inUse := false } := by
      simp [ThreadRun.begin, initThreads, hinit]
    have hmain : ∀ n l, s.begin.lives n = some l → n = 0 ∧ l = .main := by
      intro n l hl
      simp only [ThreadRun.begin, hinit, Bool.false_eq_true, if_false] at hl
      by_cases hn : n = 0
      · subst hn
        rw [Function.update_self] at hl
        exact ⟨rfl, (Option.some.inj hl).symm⟩
      · rw [Function.update_of_ne hn, hlives] at hl
        cases hl
    have hlife : s.begin.lives 0 = some .main := by
      simp only [ThreadRun.begin, hinit, Bool.false_eq_true, if_false]
      exact Function.update_self ..
    have hnext : s.begin.table.nextTid = s.table.nextTid := by simp [ThreadRun.begin, initThreads, hinit]
    have hthen : s.begin.table.initialized = true := by simp [ThreadRun.begin, initThreads, hinit]
    refine ⟨h.made, hnext.trans h.nextTid, fun n l hl => ?_, h.positive, fun hz => ?_, fun n l hl hno => ?_, fun i hi => ?_,
      fun n l hl hno => ?_, fun n l hn hl => ?_, h.unmade, h.wild, fun n l hl hjoined => ?_, fun k i n hw => ?_, fun n v hj => ?_⟩
    · rw [(hmain n l hl).1]
      exact h.positive
    · exact absurd (hthen.symm.trans hz) Bool.noConfusion
    · obtain ⟨rfl, rfl⟩ := hmain n l hl
      rw [hthreads]
      simp [Life.main, Life.entry, hretval, hstack]
    · have hi0 : i = 0 := by
        by_contra hne
        rw [hthreads] at hi
        simp [hne] at hi
      exact ⟨0, .main, hlife, by decide, hi0.symm⟩
    · obtain ⟨rfl, rfl⟩ := hmain n l hl
      rfl
    · exact absurd (hmain n l hl).1 hn
    · obtain ⟨rfl, rfl⟩ := hmain n l hl
      cases hjoined
    · obtain ⟨l, hl, -⟩ := h.waits k i n hw
      rw [hlives] at hl
      cases hl
    · obtain ⟨l, hl, -⟩ := h.joins n v hj
      rw [hlives] at hl
      cases hl

private theorem begin_initialized : s.begin.table.initialized = true := by
  cases hinit : s.table.initialized <;> simp [ThreadRun.begin, initThreads, hinit]

private theorem tid_succ : tid n + 1 = tid (n + 1) := (BitVec.ofNat_add n 1).symm

theorem Inv.fails (h : s.Inv) (hinit : s.table.initialized = true) (hlt : s.made < 2 ^ 32) (hfree : (s.table.threads i).inUse = false)
    (huse : t.inUse = false) :
    Inv { s with table := { s.table.setThread i t with nextTid := s.table.nextTid + 1 }, made := s.made + 1 } := by
  have hnext : s.table.nextTid + 1 = tid (s.made + 1) := by rw [h.nextTid, tid_succ]
  refine ⟨hlt, hnext, fun n l hl => Nat.lt_succ_of_lt (h.fewer n l hl), Nat.succ_pos _, fun hz => ?_, fun n l hl hno => ?_, fun j hj => ?_,
    h.memory, h.frees, fun n hn => h.unmade n (Nat.le_of_succ_le hn), h.wild, h.ended, h.waits, h.joins⟩
  · exact absurd (hinit.symm.trans hz) Bool.noConfusion
  · have hentry := h.entries n l hl hno
    have hne : l.slot ≠ i := by
      rintro rfl
      rw [hentry] at hfree
      cases hfree
    exact (setThread_other hne).trans hentry
  · by_cases hji : j = i
    · subst hji
      have hj' : t.inUse = true := by
        rw [← setThread_self (s := s.table) (i := j) (t := t)]
        exact hj
      exact absurd (huse.symm.trans hj') Bool.noConfusion
    · exact h.users j ((congrArg PThread.inUse (setThread_other hji)).symm.trans hj)

theorem Inv.makes (h : s.Inv) (hinit : s.table.initialized = true) (hlt : s.made < 2 ^ 32)
    (hfree : (s.table.threads l.slot).inUse = false) (hstack : l.stack ≠ 0) (hown : s.owners l.stack = none) (hexit : l.exit = none)
    (hjoined : l.joined = false) :
    Inv { s.setLife s.made l with
      table := { s.table.setThread l.slot (l.entry s.made) with nextTid := s.table.nextTid + 1 }
      made := s.made + 1
      owners := Function.update s.owners l.stack (some s.made) } := by
  have hnext : s.table.nextTid + 1 = tid (s.made + 1) := by rw [h.nextTid, tid_succ]
  have hself : (s.setLife s.made l).lives s.made = some l := Function.update_self ..
  have hold : ∀ n, n ≠ s.made → (s.setLife s.made l).lives n = s.lives n := fun n hn => Function.update_of_ne hn ..
  have hkeep : ∀ n x, s.lives n = some x → (s.setLife s.made l).lives n = some x := by
    intro n x hx
    exact (hold n (h.fewer n x hx).ne).trans hx
  have hno : ¬ l.Over := Life.not_over hexit
  refine ⟨hlt, hnext, fun n x hx => ?_, Nat.succ_pos _, fun hz => ?_, fun n x hx hnox => ?_, fun j hj => ?_, fun n x hx hnox => ?_,
    fun n x hn hx => ?_, fun n hn => h.unmade n (Nat.le_of_succ_le hn), h.wild, fun n x hx hjx => ?_, fun k i n hw => ?_, fun n v hj => ?_⟩
  · by_cases hn : n = s.made
    · exact hn ▸ Nat.lt_succ_self _
    · exact Nat.lt_succ_of_lt (h.fewer n x ((hold n hn).symm.trans hx))
  · exact absurd (hinit.symm.trans hz) Bool.noConfusion
  · by_cases hn : n = s.made
    · subst hn
      cases hself.symm.trans hx
      exact setThread_self
    · have hentry := h.entries n x ((hold n hn).symm.trans hx) hnox
      have hne : x.slot ≠ l.slot := by
        intro heq
        rw [← heq, hentry] at hfree
        cases hfree
      exact (setThread_other hne).trans hentry
  · by_cases hjl : j = l.slot
    · exact ⟨s.made, l, hself, hno, hjl.symm⟩
    · obtain ⟨n, x, hx, hnox, hslot⟩ := h.users j ((congrArg PThread.inUse (setThread_other hjl)).symm.trans hj)
      exact ⟨n, x, hkeep n x hx, hnox, hslot⟩
  · by_cases hn : n = s.made
    · subst hn
      cases hself.symm.trans hx
      rw [if_neg h.positive.ne']
      exact ⟨hstack, Function.update_self ..⟩
    · have hmem := h.memory n x ((hold n hn).symm.trans hx) hnox
      split
      · rwa [if_pos ‹_›] at hmem
      · rw [if_neg ‹_›] at hmem
        have hne : x.stack ≠ l.stack := by
          intro heq
          rw [heq, hown] at hmem
          cases hmem.2
        exact ⟨hmem.1, (Function.update_of_ne hne ..).trans hmem.2⟩
  · by_cases hns : n = s.made
    · subst hns
      cases hself.symm.trans hx
      rw [if_neg hno]
      exact h.unmade _ le_rfl
    · exact h.frees n x hn ((hold n hns).symm.trans hx)
  · by_cases hn : n = s.made
    · subst hn
      cases hself.symm.trans hx
      exact absurd (hjoined.symm.trans hjx) Bool.noConfusion
    · exact h.ended n x ((hold n hn).symm.trans hx) hjx
  · obtain ⟨x, hx, hrest⟩ := h.waits k i n hw
    exact ⟨x, hkeep n x hx, hrest⟩
  · obtain ⟨x, hx, hexit⟩ := h.joins n v hj
    exact ⟨x, hkeep n x hx, hexit⟩

theorem Inv.create {args : CreateArgs} (h : s.Inv) (hlt : s.made < 2 ^ 32) (hown : args.stack = 0 ∨ s.owners args.stack = none) :
    (s.create args).Inv := by
  have hb := h.begin
  have hinit : s.table.initThreads.initialized = true := begin_initialized
  cases hv : args.valid with
  | false =>
    have hsame : s.create args = s.begin := by
      simp only [ThreadRun.create, hv, Bool.false_eq_true, not_false_eq_true, if_true]
      rw [pthreadCreate_invalid (by simp [hv])]
      rfl
    rwa [hsame]
  | true =>
    cases hfree : s.table.initThreads.freeSlot with
    | none =>
      have hsame : s.create args = s.begin := by
        simp only [ThreadRun.create, hv, not_true, if_false, hfree]
        rw [pthreadCreate_full hv hfree]
        rfl
      rwa [hsame]
    | some i =>
      have huse := freeSlot_some hfree
      by_cases hstack : args.stack = 0
      · have hmade : s.create args =
            { s.begin with
              table := { s.begin.table.setThread i (s.begin.table.newThread args) with nextTid := s.begin.table.nextTid + 1 }
              made := s.begin.made + 1 } := by
          simp only [ThreadRun.create, hv, not_true, if_false, hfree, hstack, if_true]
          rw [pthreadCreate_made hv hfree]
          rfl
        rw [hmade]
        exact hb.fails hinit hlt huse (by simp [newThread, hstack])
      · let l : Life := { slot := i, stack := args.stack, exit := none, detached := args.detached, joiner := none, joined := false }
        have hentry : s.begin.table.newThread args = l.entry s.begin.made := by
          simp [newThread, Life.entry, l, hstack, hb.nextTid, tid]
        have hmade : s.create args =
            { s.begin.setLife s.begin.made l with
              table := { s.begin.table.setThread l.slot (l.entry s.begin.made) with nextTid := s.begin.table.nextTid + 1 }
              made := s.begin.made + 1
              owners := Function.update s.begin.owners l.stack (some s.begin.made) } := by
          simp only [ThreadRun.create, hv, not_true, if_false, hfree, hstack]
          rw [pthreadCreate_made hv hfree, ← hentry]
          rfl
        rw [hmade]
        exact hb.makes hinit hlt huse hstack (hown.resolve_left hstack) rfl rfl

theorem Inv.find (h : s.Inv) (hl : s.lives n = some l) (hno : ¬ l.Over) : s.table.findThread (tid n) = some l.slot := by
  have hentry := h.entries n l hl hno
  cases hf : s.table.findThread (tid n) with
  | none =>
    have hne := findThread_none hf (i := l.slot) (by rw [hentry]; rfl)
    rw [hentry] at hne
    exact absurd rfl hne
  | some i =>
    obtain ⟨l', hl', -, rfl, -⟩ := h.found hf
    have hn : (tid n).toNat = n := Nat.mod_eq_of_lt (h.lt hl)
    rw [hn, hl] at hl'
    rw [Option.some.inj hl']

theorem Inv.waits_same (h : s.Inv) (l' : Life) (hl : s.lives n = some l) (hslot : l'.slot = l.slot) (hjoiner : l'.joiner = l.joiner)
    (hjoined : l'.joined = l.joined) (hdetached : l.joiner.isSome = true → l'.detached = l.detached) (k : ℕ) (i : Fin maxThreads) (m : ℕ)
    (hw : s.waits k = some (i, m)) :
    ∃ l'', (s.setLife n l').lives m = some l'' ∧ l''.slot = i ∧ l''.joiner = some k ∧ l''.joined = false ∧ l''.detached = false := by
  obtain ⟨x, hx, hi, hk, hj, hd⟩ := h.waits k i m hw
  by_cases hmn : m = n
  · subst hmn
    cases hl.symm.trans hx
    exact ⟨l', Function.update_self .., hslot.trans hi, hjoiner.trans hk, hjoined.trans hj, (hdetached (by rw [hk]; rfl)).trans hd⟩
  · exact ⟨x, (Function.update_of_ne hmn ..).trans hx, hi, hk, hj, hd⟩

theorem Inv.joins_same (h : s.Inv) (l' : Life) (hl : s.lives n = some l) (hexit : ∀ v, l.exit = some v → l'.exit = some v) (m : ℕ) (v : Word)
    (hj : (m, v) ∈ s.joins) : ∃ l'', (s.setLife n l').lives m = some l'' ∧ l''.exit = some v := by
  obtain ⟨x, hx, hv⟩ := h.joins m v hj
  by_cases hmn : m = n
  · subst hmn
    cases hl.symm.trans hx
    exact ⟨l', Function.update_self .., hexit v hv⟩
  · exact ⟨x, (Function.update_of_ne hmn ..).trans hx, hv⟩

theorem Inv.unjoined (h : s.Inv) (hl : s.lives n = some l) (hno : ¬ l.Over) : l.joined = false := by
  by_contra hj
  have hjoined : l.joined = true := Bool.not_eq_false _ ▸ hj
  exact hno ⟨h.ended n l hl hjoined, .inl hjoined⟩

theorem Inv.exit {v : Word} (h : s.Inv) (hrun : s.Running k) : (s.exit k v).Inv := by
  rcases hrun with ⟨-, hany⟩ | ⟨rfl, hinit⟩
  · obtain ⟨l, hl, hexit⟩ : ∃ l, s.lives k = some l ∧ l.exit = none := by
      cases hl : s.lives k with
      | none =>
        rw [hl] at hany
        cases hany
      | some l =>
        rw [hl] at hany
        exact ⟨l, rfl, Option.isNone_iff_eq_none.mp hany⟩
    have hno := Life.not_over hexit
    have hjoined := h.unjoined hl hno
    have hentry := h.entries k l hl hno
    have hwaits := h.waits_same { l with exit := some v } hl rfl rfl rfl (fun _ => rfl)
    have hjoins := h.joins_same { l with exit := some v } hl (fun v' hv' => by rw [hexit] at hv'; cases hv')
    cases hd : l.detached with
    | false =>
      have hdone : s.exit k v = { s.setLife k { l with exit := some v } with
          table := s.table.setThread l.slot (Life.entry { l with exit := some v } k), waits := s.waits, joins := s.joins } := by
        simp only [ThreadRun.exit, pthreadExit, h.find hl hno, hentry, hl]
        simp [Life.entry, hd, setLife, kfree_zero]
      rw [hdone]
      refine h.stays hl hno rfl rfl ?_ (fun _ => rfl) hwaits hjoins
      rintro ⟨-, hj | hd'⟩
      · exact absurd (hjoined.symm.trans hj) Bool.noConfusion
      · exact absurd (hd.symm.trans hd') Bool.noConfusion
    | true =>
      have hdone : s.exit k v = ({ s.setLife k { l with exit := some v } with
          table := s.table.setThread l.slot { Life.entry { l with exit := some v } k with inUse := false },
          waits := s.waits, joins := s.joins }).kfree l.stack := by
        simp only [ThreadRun.exit, pthreadExit, h.find hl hno, hentry, hl]
        simp [Life.entry, hd, setLife]
      rw [hdone]
      exact h.ends hl hno rfl rfl ⟨rfl, .inr hd⟩ hwaits hjoins
  · obtain ⟨huse, -, -, hlives⟩ := h.first hinit
    have hnone : s.table.findThread (tid 0) = none := by
      cases hf : s.table.findThread (tid 0) with
      | none => rfl
      | some i => exact absurd ((huse i).symm.trans (findThread_some hf).1) Bool.noConfusion
    have hsame : s.exit 0 v = s := by
      simp only [ThreadRun.exit, pthreadExit, hnone, hlives, Option.elim_none, kfree_zero]
    rwa [hsame]

theorem Inv.goOn (h : s.Inv) : (s.goOn k).Inv := by
  cases hw : s.waits k with
  | none =>
    have hsame : s.goOn k = s := by simp only [ThreadRun.goOn, hw]
    rwa [hsame]
  | some r =>
    obtain ⟨i, n⟩ := r
    obtain ⟨l, hl, rfl, hk, hj, hd⟩ := h.waits k i n hw
    have hno : ¬ l.Over := by
      rintro ⟨-, hj' | hd'⟩
      · exact absurd (hj.symm.trans hj') Bool.noConfusion
      · exact absurd (hd.symm.trans hd') Bool.noConfusion
    have hentry := h.entries n l hl hno
    cases hexit : l.exit with
    | none =>
      have hsame : s.goOn k = s := by simp [ThreadRun.goOn, hw, joinOn, hentry, Life.entry, hexit]
      rwa [hsame]
    | some v =>
      have hdone : s.goOn k = ({ s.setLife n { l with joiner := none, joined := true } with
          table := s.table.setThread l.slot { l.entry n with inUse := false }
          waits := Function.update s.waits k none
          joins := s.joins ++ [(n, v)] }).kfree l.stack := by
        simp [ThreadRun.goOn, hw, joinOn, hentry, Life.entry, hexit, hl, setLife]
      rw [hdone]
      refine h.ends hl hno rfl rfl ⟨by rw [hexit]; rfl, .inl rfl⟩ (fun k' i' m hw' => ?_) (fun m v' hj' => ?_)
      · have hk' : k' ≠ k := by
          rintro rfl
          rw [Function.update_self] at hw'
          cases hw'
        rw [Function.update_of_ne hk'] at hw'
        obtain ⟨x, hx, hi, hkx, hrest⟩ := h.waits k' i' m hw'
        have hmn : m ≠ n := by
          rintro rfl
          obtain rfl := Option.some.inj (hl.symm.trans hx)
          exact hk' (Option.some.inj (hkx.symm.trans hk))
        exact ⟨x, (Function.update_of_ne hmn ..).trans hx, hi, hkx, hrest⟩
      · rcases List.mem_append.mp hj' with hold | hnew
        · exact h.joins_same { l with joiner := none, joined := true } hl (fun _ hv => hv) m v' hold
        · obtain ⟨rfl, rfl⟩ := Prod.mk.inj (List.mem_singleton.mp hnew)
          exact ⟨_, Function.update_self .., hexit⟩

theorem Inv.join (h : s.Inv) : (s.join k thread).Inv := by
  cases hf : s.table.findThread thread with
  | none =>
    have hsame : s.join k thread = s := by simp only [ThreadRun.join, joinStart, hf]
    rwa [hsame]
  | some i =>
    obtain ⟨l, hl, hno, rfl, hentry⟩ := h.found hf
    by_cases hsome : l.detached = true ∨ (l.entry thread.toNat).tid = tid k ∨ l.joiner.isSome = true
    · have hsame : s.join k thread = s := by
        simp only [ThreadRun.join, joinStart, hf, hentry]
        rcases hsome with hd | hself | hj
        · simp [Life.entry, hd]
        · rw [hself]
          cases hd : l.detached <;> simp [Life.entry, hd]
        · cases hd : l.detached <;> by_cases hself : (l.entry thread.toNat).tid = tid k <;> simp_all [Life.entry]
      rwa [hsame]
    · push Not at hsome
      obtain ⟨hd, hself, hj⟩ := hsome
      have hd' := Bool.eq_false_iff.mpr hd
      have hj' := Bool.eq_false_iff.mpr hj
      have hdone : s.join k thread = ThreadRun.goOn { s.setLife thread.toNat { l with joiner := some k } with
          table := s.table.setThread l.slot (Life.entry { l with joiner := some k } thread.toNat)
          waits := Function.update s.waits k (some (l.slot, thread.toNat))
          joins := s.joins } k := by
        simp only [ThreadRun.join, joinStart, hf, hentry, hself, if_false]
        simp [Life.entry, hd', hj', hl, setLife]
      rw [hdone]
      apply Inv.goOn
      refine h.stays hl hno rfl rfl hno (h.ended _ l hl) (fun k' i m hw => ?_) (h.joins_same _ hl fun _ hv => hv)
      by_cases hk : k' = k
      · subst hk
        rw [Function.update_self] at hw
        obtain ⟨rfl, rfl⟩ := Prod.mk.inj (Option.some.inj hw)
        have hjoined := h.unjoined hl hno
        exact ⟨_, Function.update_self .., rfl, rfl, hjoined, hd'⟩
      · rw [Function.update_of_ne hk] at hw
        obtain ⟨x, hx, hi, hkx, hrest⟩ := h.waits k' i m hw
        have hmn : m ≠ thread.toNat := by
          rintro rfl
          obtain rfl := Option.some.inj (hl.symm.trans hx)
          rw [hkx] at hj
          exact hj rfl
        exact ⟨x, (Function.update_of_ne hmn ..).trans hx, hi, hkx, hrest⟩

theorem Inv.detach (h : s.Inv) (hjoined : ∀ i ∈ s.table.findThread thread, (s.table.threads i).joined = false) : (s.detach thread).Inv := by
  cases hf : s.table.findThread thread with
  | none =>
    have hsame : s.detach thread = s := by simp [ThreadRun.detach, pthreadDetach, hf, eSrch]
    rwa [hsame]
  | some i =>
    obtain ⟨l, hl, hno, rfl, hentry⟩ := h.found hf
    have hj : l.joiner.isSome = false := by
      have hi := hjoined l.slot hf
      rwa [hentry] at hi
    have hwaits := h.waits_same { l with detached := true } hl rfl rfl rfl
      (fun hj' => absurd (hj.symm.trans hj') Bool.noConfusion)
    have hjoins := h.joins_same { l with detached := true } hl fun _ hv => hv
    cases hd : l.detached with
    | true =>
      have hsame : s.detach thread = s := by simp [ThreadRun.detach, pthreadDetach, hf, hentry, Life.entry, hd, eInval]
      rwa [hsame]
    | false =>
      cases hexit : l.exit with
      | none =>
        have hdone : s.detach thread = { s.setLife thread.toNat { l with detached := true } with
            table := s.table.setThread l.slot (Life.entry { l with detached := true } thread.toNat), waits := s.waits, joins := s.joins } := by
          simp [ThreadRun.detach, pthreadDetach, hf, hentry, Life.entry, hd, hexit, hl, setLife, kfree_zero]
        rw [hdone]
        exact h.stays hl hno rfl rfl (Life.not_over hexit) (h.ended _ l hl) hwaits hjoins
      | some v =>
        have hdone : s.detach thread = ({ s.setLife thread.toNat { l with detached := true } with
            table := s.table.setThread l.slot { Life.entry { l with detached := true } thread.toNat with inUse := false },
            waits := s.waits, joins := s.joins }).kfree l.stack := by
          simp [ThreadRun.detach, pthreadDetach, hf, hentry, Life.entry, hd, hexit, hl, setLife]
        rw [hdone]
        exact h.ends hl hno rfl rfl ⟨by rw [hexit]; rfl, .inr rfl⟩ hwaits hjoins

theorem Inv.exec {e : ThreadEvent} (h : s.Inv) (he : s.Meets e) : (s.exec e).Inv := by
  cases e with
  | create k args => exact h.create he.2 he.1.2
  | exit k retval => exact h.exit he.1
  | join k thread => exact h.join
  | goOn k => exact h.goOn
  | detach k thread => exact h.detach he.2

theorem start_inv : start.Inv where
  made := by decide
  nextTid := rfl
  fewer _ _ hl := nomatch hl
  positive := Nat.one_pos
  first _ := ⟨fun _ => rfl, rfl, rfl, fun _ => rfl⟩
  entries _ _ hl := nomatch hl
  users _ hi := nomatch hi
  memory _ _ hl := nomatch hl
  frees _ _ _ hl := nomatch hl
  unmade _ _ := rfl
  wild := rfl
  ended _ _ hl := nomatch hl
  waits _ _ _ hw := nomatch hw
  joins _ _ hj := nomatch hj

theorem Inv.sound (h : s.Inv) : s.Sound := by
  refine ⟨h.frees, h.wild, fun n l hl hno => ?_, fun n m l l' => h.apart, h.joins, fun k i n hw => ?_⟩
  · rw [h.entries n l hl hno]
    exact ⟨rfl, rfl⟩
  · obtain ⟨l, hl, hi, -, hj, hd⟩ := h.waits k i n hw
    refine ⟨l, hl, hi, ?_⟩
    rintro ⟨-, hj' | hd'⟩
    · exact absurd (hj.symm.trans hj') Bool.noConfusion
    · exact absurd (hd.symm.trans hd') Bool.noConfusion

/-- In every run in which no thread is detached while it is being joined, the stack of each thread is freed once, when it
has exited and was joined or detached, and its entry is its own until then. -/
theorem thread_runs {es : List ThreadEvent} (hrun : Along exec Meets start es) : (es.foldl exec start).Sound := by
  have h : (es.foldl exec start).Inv :=
    hrun.relates (R := fun s t => s.Inv → t.Inv) (fun _ h => h) (fun hst htu h => htu (hst h)) (fun _ _ hm h => h.exec hm) start_inv
  exact h.sound

def twoLives : List ThreadEvent :=
  [.create 0 ⟨true, false, 16⟩, .create 1 ⟨true, false, 32⟩, .join 0 1, .exit 2 7, .detach 1 2, .exit 1 5, .goOn 0]

theorem twoLives_sound : (twoLives.foldl exec start).Sound := by
  have hrun : Along exec Meets start twoLives := by decide
  exact thread_runs hrun

/-- A thread is joined and detached, and its stack freed by both. -/
theorem detached_freed_twice : ¬ ∀ es : List ThreadEvent, Along exec Proper start es → (es.foldl exec start).Sound := by
  intro h
  have hproper : Along exec Proper start [.create 0 ⟨true, false, 16⟩, .join 0 1, .detach 1 1, .exit 1 5, .goOn 0] := by decide
  exact absurd (h _ hproper).wild (by decide)

end ThreadRun
end RetroOs.Kernel
