import RetroOs.Kernel.Process

/-! The ring of processes under the calls that leave its links alone: scheduling, signals, exits. -/
namespace RetroOs.Kernel
open Lib List
namespace ProcessTable

structure InRing (t : ProcessTable) (l : List Nat) : Prop where
  ring : Ring t.next t.readyQueue l
  addr : ∀ p ∈ l, p ≠ 0 ∧ p < 2 ^ 32
  current : t.currentProcess ∈ l

end ProcessTable

/-- A record without what scheduling, signals, exit and the waiting for children change in it. -/
def Process.identity (q : Process) : Process :=
  { q with
    state := .running
    exitCode := 0
    fdTable := fun _ => 0
    timeRemaining := 0
    pendingSignals := 0
    cutime := 0
    cstime := 0 }

namespace ProcessTable

/-- No process has changed in more than its state, signals, exit code, open files and times. -/
structure Keeps (t t' : ProcessTable) : Prop where
  procs : ∀ p, (t'.procs p).identity = (t.procs p).identity
  readyQueue : t'.readyQueue = t.readyQueue

variable {t t' u : ProcessTable} {l xs ys : List Nat} {p : Nat} {q : Process} {sw : Option Switch} {pid : Word}
  {signum : Nat}

theorem Keeps.refl : Keeps t t := ⟨fun _ => rfl, rfl⟩

theorem Keeps.trans (h : Keeps t t') (h' : Keeps t' u) : Keeps t u :=
  ⟨fun p => (h'.procs p).trans (h.procs p), h'.readyQueue.trans h.readyQueue⟩

theorem keeps_set (h : q.identity = (t.procs p).identity) : Keeps t (t.set p q) :=
  ⟨set_field t p q Process.identity h, rfl⟩

theorem keeps_setCurrent (h : q.identity = t.current.identity) : Keeps t (t.setCurrent q) := keeps_set h

theorem setState_keeps (t : ProcessTable) (p : Nat) (s : ProcessState) : Keeps t (t.setState p s) := keeps_set rfl

theorem setTime_keeps (t : ProcessTable) (r : Int) : Keeps t (t.setTime r) := keeps_setCurrent rfl

private theorem preempt_keeps (t : ProcessTable) : Keeps t t.preempt := by
  rw [preempt]
  split
  · exact setState_keeps t _ _
  · exact .refl

theorem switchTo_keeps (t : ProcessTable) (best : Nat) : Keeps t (t.switchTo best) := by
  have hk := preempt_keeps t
  have hk' : Keeps t { t.preempt with currentProcess := best } := ⟨hk.procs, hk.readyQueue⟩
  exact (hk'.trans (setState_keeps _ _ _)).trans (setTime_keeps _ _)

theorem Keeps.next (h : Keeps t t') : t'.next = t.next := by
  funext p
  have hp := congrArg Process.next (h.procs p)
  exact hp

theorem Keeps.parent (h : Keeps t t') (p : Nat) : (t'.procs p).parent = (t.procs p).parent := by
  have hp := congrArg Process.parent (h.procs p)
  exact hp

theorem Keeps.priority (h : Keeps t t') : t'.priority = t.priority := by
  funext p
  have hp := congrArg Process.priority (h.procs p)
  exact hp

theorem Keeps.inRing (h : Keeps t t') (hl : InRing t l) (hc : t'.currentProcess ∈ l) : InRing t' l := by
  refine ⟨?_, hl.addr, hc⟩
  rw [h.next, h.readyQueue]
  exact hl.ring

theorem InRing.length_le (h : InRing t l) : l.length ≤ ringFuel := by
  have hsub : l ⊆ range ringFuel := fun p hp => mem_range.mpr (h.addr p hp).2
  exact ((h.ring.nodup.subperm hsub).length_le).trans_eq length_range

theorem InRing.readyQueue_ne (h : InRing t l) : t.readyQueue ≠ 0 := (h.addr _ h.ring.head_mem).1

/-- The null test in a walk from `ready_queue` never ends it. -/
theorem InRing.stop (h : InRing t l) : ∀ p ∈ l, (p == 0 || p == t.readyQueue) = true ↔ p = t.readyQueue := by
  intro p hp
  simp [(h.addr p hp).1]

theorem signal_keeps (t : ProcessTable) (signum p : Nat) : Keeps t (t.signal signum p) := keeps_set rfl

private theorem signal_state (t : ProcessTable) (signum p x : Nat) :
    ((t.signal signum p).procs x).state = (t.procs x).state ∨
      (t.procs x).state = .waiting ∧ ((t.signal signum p).procs x).state = .ready := by
  by_cases hx : x = p
  · subst hx
    rw [signal, set_self]
    split
    · rename_i h
      exact Or.inr ⟨h, rfl⟩
    · exact Or.inl rfl
  · exact Or.inl (by rw [signal, set_other _ _ _ hx])

/-- What a call of `sys_kill` does to the table, whichever processes it is for. -/
structure Signalled (t t' : ProcessTable) : Prop where
  keeps : Keeps t t'
  currentProcess : t'.currentProcess = t.currentProcess
  state : ∀ p, (t'.procs p).state = (t.procs p).state ∨
    (t.procs p).state = .waiting ∧ (t'.procs p).state = .ready

theorem Signalled.refl : Signalled t t := ⟨.refl, rfl, fun _ => Or.inl rfl⟩

private theorem signal_signalled (t : ProcessTable) (signum p : Nat) : Signalled t (t.signal signum p) :=
  ⟨signal_keeps t signum p, rfl, signal_state t signum p⟩

theorem Signalled.trans (h : Signalled t t') (h' : Signalled t' u) : Signalled t u := by
  refine ⟨h.keeps.trans h'.keeps, h'.currentProcess.trans h.currentProcess, fun p => ?_⟩
  rcases h.state p with h₁ | ⟨hw, hr⟩
  · rw [← h₁]
    exact h'.state p
  · rcases h'.state p with h₂ | ⟨hw', -⟩
    · exact Or.inr ⟨hw, h₂.trans hr⟩
    · rw [hr] at hw'
      cases hw'

private theorem signalAll_spec (h : InRing t l) (signum : Nat) (test : Process → Nat → Bool) :
    ∃ t' r, t.signalAll signum test = some (t', r) ∧ Signalled t t' := by
  rw [signalAll, if_neg h.readyQueue_ne, h.ring.fold _ h.stop h.length_le, Option.map_some]
  refine ⟨_, _, rfl, ?_⟩
  have hfold : ∀ (l : List Nat) (r : ProcessTable × Bool), Signalled t r.1 → Signalled t (l.foldl
      (fun (r : ProcessTable × Bool) p => if test (r.1.procs p) p then (r.1.signal signum p, true) else r) r).1 := by
    intro l
    induction l with
    | nil => exact fun _ hr => hr
    | cons x l ih =>
      intro r hr
      apply ih
      dsimp only
      split
      · exact hr.trans (signal_signalled r.1 signum x)
      · exact hr
  exact hfold l (t, false) .refl

private theorem signalOne_spec (h : InRing t l) (signum : Nat) (pid : Word) :
    ∃ t' r, t.signalOne signum pid = some (t', r) ∧ Signalled t t' := by
  rw [signalOne, if_neg h.readyQueue_ne, h.ring.find h.stop h.length_le, Option.map_some]
  cases l.find? fun p => (t.procs p).id == pid with
  | none => exact ⟨t, -3, rfl, .refl⟩
  | some p => exact ⟨_, 0, rfl, signal_signalled t signum p⟩

theorem sysKill_spec (h : InRing t l) (pid : Word) (signum : Int) :
    ∃ t' r, t.sysKill pid signum = some (t', r) ∧ Signalled t t' := by
  rw [sysKill]
  split
  · exact ⟨t, -22, rfl, .refl⟩
  · dsimp only
    generalize (if pid = 0 then t.current.pgid else pid) = pid'
    split
    · exact signalAll_spec h _ _
    · split
      · exact signalAll_spec h _ _
      · exact signalOne_spec h _ _

private theorem notifyParent_spec (h : InRing t l) : ∃ t', t.notifyParent = some t' ∧ Signalled t t' := by
  rw [notifyParent]
  split
  · exact ⟨t, rfl, .refl⟩
  · obtain ⟨t', r, ht, hs⟩ := sysKill_spec h (t.procs t.current.parent).id sigChld
    exact ⟨t', by rw [ht]; rfl, hs⟩

/-- An operation on the current process that leaves its identity and every state alone. -/
structure Tidies (t t' : ProcessTable) : Prop where
  keeps : Keeps t t'
  currentProcess : t'.currentProcess = t.currentProcess
  state : ∀ p, (t'.procs p).state = (t.procs p).state

theorem Tidies.trans (h : Tidies t t') (h' : Tidies t' u) : Tidies t u :=
  ⟨h.keeps.trans h'.keeps, h'.currentProcess.trans h.currentProcess, fun p => (h'.state p).trans (h.state p)⟩

private theorem closeFile_spec (t : ProcessTable) (i : Fin maxProcessFiles) : Tidies t (t.closeFile i) := by
  rw [closeFile]
  split
  · exact ⟨.refl, rfl, fun _ => rfl⟩
  · have hk : Keeps t (t.setCurrent { t.current with fdTable := Function.update t.current.fdTable i 0 }) :=
      keeps_setCurrent rfl
    have hs : ∀ p, ((t.setCurrent { t.current with fdTable := Function.update t.current.fdTable i 0 }).procs p).state =
        (t.procs p).state := set_field t _ _ Process.state rfl
    exact ⟨⟨hk.procs, hk.readyQueue⟩, rfl, hs⟩

theorem closeFiles_spec (t : ProcessTable) : Tidies t t.closeFiles := by
  rw [closeFiles]
  induction finRange maxProcessFiles generalizing t with
  | nil => exact ⟨.refl, rfl, fun _ => rfl⟩
  | cons i l ih => exact (closeFile_spec t i).trans (ih (t.closeFile i))

structure Exited (t t' : ProcessTable) : Prop where
  keeps : Keeps t t'
  currentProcess : t'.currentProcess = t.currentProcess
  zombie : t'.current.state = .zombie
  state : ∀ p, p ≠ t.currentProcess → (t'.procs p).state = (t.procs p).state ∨
    (t.procs p).state = .waiting ∧ (t'.procs p).state = .ready

private theorem exited_of_signalled {code : Word} (hu : Tidies (t.setCurrent { t.current with state := .zombie, exitCode := code }) u)
    (hs : Signalled u t') : Exited t t' := by
  have hk : Keeps t (t.setCurrent { t.current with state := .zombie, exitCode := code }) := keeps_setCurrent rfl
  have hcur : t'.currentProcess = t.currentProcess := hs.currentProcess.trans hu.currentProcess
  refine ⟨hk.trans (hu.keeps.trans hs.keeps), hcur, ?_, fun p hp => ?_⟩
  · have hz : (u.procs t.currentProcess).state = .zombie := by
      rw [hu.state, setCurrent, set_self]
    rw [current, hcur]
    rcases hs.state t.currentProcess with h | ⟨h, -⟩
    · rw [h, hz]
    · rw [hz] at h
      cases h
  · have hsame : (u.procs p).state = (t.procs p).state := by
      rw [hu.state, setCurrent_other _ _ hp]
    rw [← hsame]
    exact hs.state p

theorem exitProcess_spec (h : InRing t l) (status : Int) : ∃ t', t.exitProcess status = some t' ∧ Exited t t' := by
  have hu := closeFiles_spec (t.setCurrent { t.current with state := .zombie, exitCode := BitVec.ofInt 32 status })
  have hk : Keeps t (t.setCurrent { t.current with state := .zombie, exitCode := BitVec.ofInt 32 status }) :=
    keeps_setCurrent rfl
  obtain ⟨t', ht, hs⟩ := notifyParent_spec ((hk.trans hu.keeps).inRing h (by rw [hu.currentProcess]; exact h.current))
  exact ⟨t', ht, exited_of_signalled hu hs⟩

theorem sysExit_spec (h : InRing t l) (status : Int) : ∃ t', t.sysExit status = some t' ∧ Exited t t' := by
  have hk : Keeps t (t.setCurrent { t.current with state := .zombie, exitCode := BitVec.ofInt 32 status }) :=
    keeps_setCurrent rfl
  obtain ⟨t', ht, hs⟩ := notifyParent_spec (hk.inRing h h.current)
  exact ⟨t', ht, exited_of_signalled ⟨.refl, rfl, fun _ => rfl⟩ hs⟩

theorem link_self (h : p ≠ t.currentProcess) (q : Process) : (t.link p q).procs p = { q with next := t.current.next } := by
  rw [link, set_currentProcess, setNext_other _ _ h, set_self]

theorem link_other {x : Nat} (hx : x ≠ t.currentProcess) (hp : x ≠ p) (q : Process) :
    (t.link p q).procs x = t.procs x := by
  rw [link, set_currentProcess, setNext_other _ _ hx, set_other _ _ _ hp]

theorem link_field {γ : Type} (f : Process → γ) (hf : ∀ (q : Process) (n : Nat), f { q with next := n } = f q) {x : Nat}
    (hp : x ≠ p) (q : Process) : f ((t.link p q).procs x) = f (t.procs x) := by
  rw [link, setNext]
  refine (set_field _ _ _ f (hf _ _) x).trans ?_
  rw [set_other _ _ _ hp]

theorem link_self_field {γ : Type} (f : Process → γ) (hf : ∀ (q : Process) (n : Nat), f { q with next := n } = f q)
    (q : Process) : f ((t.link p q).procs p) = f q := by
  rw [link, setNext]
  refine (set_field _ _ _ f (hf _ _) p).trans ?_
  rw [set_self, hf]

theorem shareFiles_eq (t : ProcessTable) (fds : Fin maxProcessFiles → Nat) :
    t.shareFiles fds = { t with files := (t.shareFiles fds).files } := by
  rw [shareFiles]
  induction finRange maxProcessFiles generalizing t with
  | nil => rfl
  | cons i l ih =>
    have hi : shareFile fds t i = { t with files := (shareFile fds t i).files } := by
      rw [shareFile]
      split <;> rfl
    rw [foldl_cons, ih, hi]

theorem shareFiles_kept (t : ProcessTable) (fds : Fin maxProcessFiles → Nat) :
    (t.shareFiles fds).procs = t.procs ∧ (t.shareFiles fds).currentProcess = t.currentProcess ∧
      (t.shareFiles fds).readyQueue = t.readyQueue := by
  rw [shareFiles_eq]
  exact ⟨rfl, rfl, rfl⟩

def bootTable : ProcessTable := initMultitasking ⟨fun _ => .zero, fun _ => ⟨0, 0, 0, 0⟩, 0, 0, 1, 0⟩ 0xC1001000 0 1

end ProcessTable
end RetroOs.Kernel
