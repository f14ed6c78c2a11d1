import RetroOs.Kernel.ProcessRing
import RetroOs.Lib.Runs

/-! What `schedule` chooses, over any run of scheduling, blocking, waking and exits. -/
namespace RetroOs.Kernel
open Lib List
namespace ProcessTable

variable {t t' : ProcessTable} {l xs ys : List Nat} {best p : Nat} {q : Process} {sw : Option Switch}

def Continues (t : ProcessTable) (order : List Nat) : Prop :=
  t.current.state = .running ∧ 1 < t.current.timeRemaining ∧
    ∀ p ∈ order, (t.procs p).state = .ready → t.current.priority ≤ t.priority p

/-- What a call of `schedule` comes to. `order` is the ring from the process after the old one on. -/
structure Scheduled (t : ProcessTable) (order : List Nat) (t' : ProcessTable) (sw : Option Switch) : Prop where
  one_running : t'.current.state = .running ∨ t'.current.state = .ready →
    ∀ p ∈ order, (t'.procs p).state = .running ↔ p = t'.currentProcess
  least : ∀ p ∈ order, t.runnable p = true →
    t.runnable t'.currentProcess = true ∧ t.priority t'.currentProcess ≤ t.priority p
  ties : ¬ t.Continues order → (∃ p ∈ order, t.runnable p = true) →
    FirstLeast t.runnable t.priority order t'.currentProcess
  switches : ∀ w ∈ sw, w.old = t.currentProcess ∧ w.new = t'.currentProcess ∧ w.old ≠ w.new
  stays : sw = none → t'.currentProcess = t.currentProcess

structure SchedInv (t : ProcessTable) (l : List Nat) : Prop where
  ring : InRing t l
  running : ∀ p ∈ l, (t.procs p).state = .running → p = t.currentProcess

/-- The current process, made ready before it was switched away, is the one `schedule` would choose. -/
def Overtaken (t : ProcessTable) (l : List Nat) : Prop :=
  t.current.state = .ready ∧
    ∀ p ∈ l, p ≠ t.currentProcess → (t.procs p).state = .ready → t.current.priority < t.priority p

theorem InRing.order (h : InRing t (xs ++ t.currentProcess :: ys)) :
    (ys ++ xs ++ [t.currentProcess]).length ≤ ringFuel ∧
      ∀ p, p ∈ ys ++ xs ++ [t.currentProcess] ↔ p ∈ xs ++ t.currentProcess :: ys := by
  constructor
  · have := h.length_le
    simp only [length_append, length_cons, length_nil] at this ⊢
    omega
  · intro p
    simp only [mem_append, mem_cons, mem_nil_iff, or_false]
    tauto

theorem foundHigher_spec (h : InRing t (xs ++ t.currentProcess :: ys)) : ∃ b, t.foundHigher = some b ∧
    (b = true ↔ ∃ p ∈ ys ++ xs ++ [t.currentProcess], (t.procs p).state = .ready ∧ t.priority p < t.current.priority) := by
  have hr := h.ring.after
  have hc : t.currentProcess ∉ ys ++ xs := by
    have hd := (perm_append_singleton _ _).nodup_iff.mp hr.nodup
    exact (nodup_cons.mp hd).1
  obtain ⟨x, hx, hiff⟩ := find?_last
    (fun p => decide ((t.procs p).state = .ready ∧ (t.procs p).priority < t.current.priority)) hc
  refine ⟨x != t.currentProcess, ?_, ?_⟩
  · have hseek := hr.path.seek hx _ h.order.1
    rw [foundHigher]
    exact congrArg (Option.map (· != t.currentProcess)) hseek
  · rw [bne_iff_ne, hiff]
    constructor
    · rintro ⟨p, hp, hlt⟩
      exact ⟨p, mem_append_left _ hp, of_decide_eq_true hlt⟩
    · rintro ⟨p, hp, hready, hlt⟩
      rcases mem_append.mp hp with hp | hp
      · exact ⟨p, hp, decide_eq_true ⟨hready, hlt⟩⟩
      · rw [mem_singleton.mp hp] at hlt
        exact absurd hlt (Int.lt_irrefl _)

theorem scheduleSelect_spec (h : InRing t (xs ++ t.currentProcess :: ys)) :
    (∀ p ∈ ys ++ xs ++ [t.currentProcess], t.runnable p = false) ∧ t.scheduleSelect = some (t, none) ∨
      ∃ best, FirstLeast t.runnable t.priority (ys ++ xs ++ [t.currentProcess]) best ∧
        t.scheduleSelect = some (if best = t.currentProcess ∧ t.current.state = .running then
          (t.setTime t.current.timeSlice, none)
        else (t.switchTo best, some ⟨t.currentProcess, best⟩)) := by
  have hr := h.ring.after
  obtain ⟨hlen, hmem⟩ := h.order
  have h0 : 0 ∉ ys ++ xs ++ [t.currentProcess] := fun h0 => (h.addr 0 ((hmem 0).mp h0)).1 rfl
  have hfold := hr.fold (· == t.next t.currentProcess) (f := leastStep 0 t.runnable t.priority)
    (fun _ _ => beq_iff_eq) hlen 0
  rw [scheduleSelect, hfold, Option.map_some]
  rcases foldl_leastStep t.runnable t.priority h0 with ⟨hb, hn⟩ | hb
  · exact Or.inl ⟨hn, by rw [hb, if_pos rfl]⟩
  · refine Or.inr ⟨_, hb, ?_⟩
    have hne := (h.addr _ ((hmem _).mp hb.cand.1)).1
    rw [if_neg hne]

private theorem preempt_state (t : ProcessTable) (p : Nat) : (t.preempt.procs p).state =
    if p = t.currentProcess ∧ t.current.state = .running then .ready else (t.procs p).state := by
  rw [preempt]
  by_cases hs : t.current.state = .running
  · rw [if_pos hs]
    by_cases hc : p = t.currentProcess
    · rw [if_pos ⟨hc, hs⟩, hc, setState_state]
    · rw [if_neg fun h => hc h.1, setState_other _ _ _ hc]
  · rw [if_neg hs, if_neg fun h => hs h.2]

theorem switchTo_state (t : ProcessTable) (best p : Nat) : ((t.switchTo best).procs p).state =
    if p = best then .running else if p = t.currentProcess ∧ t.current.state = .running then .ready
    else (t.procs p).state := by
  rw [switchTo, setTime_state]
  by_cases hp : p = best
  · rw [if_pos hp, hp, setState_state]
  · rw [if_neg hp, setState_other _ _ _ hp]
    exact preempt_state t p

private theorem scheduleSelect_keeps (h : InRing t l) : ∃ t' sw, t.scheduleSelect = some (t', sw) ∧ Keeps t t' ∧
    t'.currentProcess ∈ l := by
  obtain ⟨xs, ys, rfl⟩ := append_of_mem h.current
  rcases scheduleSelect_spec h with ⟨-, hs⟩ | ⟨best, hb, hs⟩
  · exact ⟨t, none, hs, .refl, h.current⟩
  · have hbm := (h.order.2 best).mp hb.cand.1
    split at hs
    · exact ⟨_, _, hs, setTime_keeps t _, h.current⟩
    · exact ⟨_, _, hs, switchTo_keeps t best, hbm⟩

/-- Whatever the states of the processes are, `schedule` returns and leaves the ring alone. -/
theorem schedule_keeps (h : InRing t l) : ∃ t' sw, t.schedule = some (t', sw) ∧ Keeps t t' ∧ t'.currentProcess ∈ l := by
  rw [schedule, if_neg (h.addr _ h.current).1]
  split
  · have hk := setTime_keeps t (t.current.timeRemaining - 1)
    have hr := hk.inRing h h.current
    obtain ⟨t', sw, hs, hk', hc⟩ := scheduleSelect_keeps hr
    dsimp only
    split
    · obtain ⟨xs, ys, hl⟩ := append_of_mem hr.current
      obtain ⟨b, hb, -⟩ := foundHigher_spec (hl ▸ hr)
      rw [hb, Option.bind_some]
      split
      · exact ⟨t', sw, hs, hk.trans hk', hc⟩
      · exact ⟨_, none, rfl, hk, h.current⟩
    · exact ⟨t', sw, hs, hk.trans hk', hc⟩
  · exact scheduleSelect_keeps h

/-- The two tables differ at most in the time left to the current process. -/
structure SameChoices (t u : ProcessTable) : Prop where
  keeps : Keeps t u
  currentProcess : u.currentProcess = t.currentProcess
  state : ∀ p, (u.procs p).state = (t.procs p).state

theorem SameChoices.runnable {u : ProcessTable} (h : SameChoices t u) : u.runnable = t.runnable := by
  funext p
  simp only [ProcessTable.runnable, h.state, h.currentProcess]

private theorem setTime_same (t : ProcessTable) (r : Int) :
    SameChoices t (t.setTime r) :=
  ⟨setTime_keeps t r, rfl, setTime_state t r⟩

theorem SameChoices.schedInv {u : ProcessTable} (h : SameChoices t u) (hi : SchedInv t l) : SchedInv u l := by
  refine ⟨h.keeps.inRing hi.ring (by rw [h.currentProcess]; exact hi.ring.current), fun p hp hs => ?_⟩
  rw [h.currentProcess]
  exact hi.running p hp (h.state p ▸ hs)

private theorem runnable_of_ready (h : (t.procs p).state = .ready) : t.runnable p = true := decide_eq_true (Or.inl h)

private theorem runnable_cases (hr : t.runnable p = true) :
    (t.procs p).state = .ready ∨ p = t.currentProcess ∧ t.current.state = .running := of_decide_eq_true hr

theorem select_scheduled {u : ProcessTable} (h : SchedInv t (xs ++ t.currentProcess :: ys))
    (hc : ¬ t.Overtaken (xs ++ t.currentProcess :: ys)) (hu : SameChoices t u) :
    ∃ t' sw, u.scheduleSelect = some (t', sw) ∧ Scheduled t (ys ++ xs ++ [t.currentProcess]) t' sw ∧
      SchedInv t' (xs ++ t.currentProcess :: ys) := by
  have hcur := hu.currentProcess
  have hst : u.current.state = t.current.state := by rw [current, hcur, hu.state]; rfl
  have hui := hu.schedInv h
  have hmem := h.ring.order.2
  have hnot : t.currentProcess ∉ ys ++ xs :=
    (nodup_cons.mp ((perm_append_singleton _ _).nodup_iff.mp h.ring.ring.after.nodup)).1
  have hring : InRing u (xs ++ u.currentProcess :: ys) := by
    rw [hcur]
    exact hui.ring
  have hsel := scheduleSelect_spec hring
  rw [hu.runnable, hu.keeps.priority, hcur, hst] at hsel
  rcases hsel with ⟨hn, hsel⟩ | ⟨best, hb, hsel⟩
  · -- Nobody is runnable, so the table stays as it is.
    refine ⟨u, none, hsel, ⟨fun hr => ?_, fun p hp hr => ?_, fun _ hr => ?_, by simp, fun _ => hcur⟩, hui⟩
    · have hno := of_decide_eq_false (hn t.currentProcess (by simp))
      rw [hst] at hr
      exact absurd (hr.elim (fun h => Or.inr ⟨rfl, h⟩) Or.inl) hno
    · rw [hn p hp] at hr
      cases hr
    · obtain ⟨p, hp, hr⟩ := hr
      rw [hn p hp] at hr
      cases hr
  · have hbm := (hmem best).mp hb.cand.1
    by_cases hagain : best = t.currentProcess ∧ t.current.state = .running
    · rw [if_pos hagain] at hsel
      have hu' : SameChoices t (u.setTime u.current.timeSlice) := by
        have hs := setTime_same u u.current.timeSlice
        exact ⟨hu.keeps.trans hs.keeps, hs.currentProcess.trans hcur, fun p => (hs.state p).trans (hu.state p)⟩
      have hc' : (u.setTime u.current.timeSlice).currentProcess = best :=
        hcur.trans hagain.1.symm
      refine ⟨_, none, hsel, ⟨fun _ p hp => ⟨fun hs => ?_, fun he => ?_⟩, fun p hp hr => ?_, fun _ _ => ?_, by simp,
        fun _ => hcur⟩, hu'.schedInv h⟩
      · rw [hu'.state] at hs
        exact (h.running p ((hmem p).mp hp) hs).trans hcur.symm
      · rw [hu'.state, he.trans (hc'.trans hagain.1)]
        exact hagain.2
      · rw [hc']
        exact ⟨hb.cand.2, hb.le hp hr⟩
      · rw [hc']
        exact hb
    · rw [if_neg hagain] at hsel
      have hk := hu.keeps.trans (switchTo_keeps u best)
      have hne : t.currentProcess ≠ best := by
        rintro rfl
        refine hc ⟨?_, fun p hp hpc hready => ?_⟩
        · exact (runnable_cases hb.cand.2).resolve_right fun h => hagain ⟨rfl, h.2⟩
        · have hp' := (hmem p).mpr hp
          rcases mem_append.mp hp' with hp' | hp'
          · exact hb.last hnot hp' (runnable_of_ready hready)
          · exact absurd (mem_singleton.mp hp') hpc
      have hstate : ∀ p ∈ xs ++ t.currentProcess :: ys, ((u.switchTo best).procs p).state = .running ↔ p = best := by
        intro p hp
        rw [switchTo_state, hcur, hst, hu.state]
        by_cases hpb : p = best
        · simp [hpb]
        · rw [if_neg hpb]
          refine iff_of_false (fun hs => ?_) hpb
          split at hs
          · cases hs
          · rename_i hno
            have hpc := h.running p hp hs
            refine hno ⟨hpc, ?_⟩
            rw [current, ← hpc]
            exact hs
      refine ⟨_, _, hsel, ⟨fun _ p hp => hstate p ((hmem p).mp hp), fun p hp hr => ⟨hb.cand.2, hb.le hp hr⟩, fun _ _ => hb,
        ?_, fun hs => by cases hs⟩, ⟨hk.inRing h.ring hbm, fun p hp hs => (hstate p hp).mp hs⟩⟩
      rintro w hw
      cases hw
      exact ⟨rfl, rfl, hne⟩

private theorem schedule_scheduled (h : SchedInv t (xs ++ t.currentProcess :: ys))
    (hc : ¬ t.Overtaken (xs ++ t.currentProcess :: ys)) :
    ∃ t' sw, t.schedule = some (t', sw) ∧ Scheduled t (ys ++ xs ++ [t.currentProcess]) t' sw ∧
      SchedInv t' (xs ++ t.currentProcess :: ys) := by
  rw [schedule, if_neg (h.ring.addr _ h.ring.current).1]
  split
  · rename_i hrun
    have hu := setTime_same t (t.current.timeRemaining - 1)
    have hui := hu.schedInv h
    dsimp only
    rw [setTime_time]
    split
    · rename_i htime
      obtain ⟨b, hb, hiff⟩ := @foundHigher_spec (t.setTime (t.current.timeRemaining - 1)) xs ys hui.ring
      rw [hb, Option.bind_some]
      cases b with
      | true =>
        rw [if_pos rfl]
        exact select_scheduled h hc hu
      | false =>
        rw [if_neg Bool.false_ne_true]
        -- The slice is not used up and nobody goes before the running process.
        have hno : ∀ p ∈ ys ++ xs ++ [t.currentProcess], (t.procs p).state = .ready → t.current.priority ≤ t.priority p := by
          intro p hp hs
          refine Int.not_lt.mp fun hlt => Bool.false_ne_true (hiff.mpr ⟨p, hp, (hu.state p).trans hs, ?_⟩)
          rw [hu.keeps.priority]
          exact lt_of_lt_of_eq hlt (congrFun hu.keeps.priority t.currentProcess).symm
        refine ⟨_, none, rfl, ⟨fun _ p hp => ⟨fun hs => ?_, fun he => ?_⟩, fun p hp hr => ?_, fun hn _ => ?_, by simp,
          fun _ => rfl⟩, hui⟩
        · exact h.running p ((h.ring.order.2 p).mp hp) (hu.state p ▸ hs)
        · rw [hu.state, he]
          exact hrun
        · refine ⟨decide_eq_true (Or.inr ⟨rfl, hrun⟩), ?_⟩
          rcases runnable_cases hr with hs | ⟨rfl, -⟩
          · exact hno p hp hs
          · exact Int.le_refl _
        · exact absurd ⟨hrun, by omega, hno⟩ hn
    · exact select_scheduled h hc hu
  · exact select_scheduled h hc ⟨.refl, rfl, fun _ => rfl⟩

end ProcessTable

/-- The process table and the wait queues, each the processes of its entries from `head` on. -/
structure Scheduler where
  table : ProcessTable
  queues : Nat → List Nat

/-- The calls that change which processes may run. A call that blocks its caller goes on to a
call of `schedule`, which is a step of its own: interrupts are enabled in between. -/
inductive SchedEvent where
  | schedule
  /-- `sleep_on`, with the memory `kmalloc` gave for the queue entry. -/
  | sleepOn (wq entry : Nat)
  | wakeUp (wq : Nat)
  | wakeUpAll (wq : Nat)
  | wait
  /-- A call that sets its caller to sleeping on the timer. -/
  | sleep
  /-- Another part of the kernel makes a process ready. -/
  | wake (p : Nat)
  | kill (pid : Word) (signum : Int)
  | exitProcess (status : Int)

namespace Scheduler
open ProcessTable

def sleepOn (s : Scheduler) (wq entry : Nat) : Scheduler :=
  if s.table.currentProcess = 0 ∨ entry = 0 then s
  else
    ⟨s.table.setState s.table.currentProcess .waiting,
      Function.update s.queues wq (s.queues wq ++ [s.table.currentProcess])⟩

def wakeEntry (t : ProcessTable) (p : Nat) : ProcessTable := if p = 0 then t else t.setState p .ready

def wakeUp (s : Scheduler) (wq : Nat) : Scheduler :=
  match s.queues wq with
  | [] => s
  | p :: rest => ⟨wakeEntry s.table p, Function.update s.queues wq rest⟩

def wakeUpAll (s : Scheduler) (wq : Nat) : Scheduler :=
  ⟨(s.queues wq).foldl wakeEntry s.table, Function.update s.queues wq []⟩

def exec (s : Scheduler) : SchedEvent → Option Scheduler
  | .schedule => s.table.schedule.map fun (t, _) => { s with table := t }
  | .sleepOn wq entry => some (s.sleepOn wq entry)
  | .wakeUp wq => some (s.wakeUp wq)
  | .wakeUpAll wq => some (s.wakeUpAll wq)
  | .wait => some { s with table := s.table.setState s.table.currentProcess .waiting }
  | .sleep => some { s with table := s.table.setState s.table.currentProcess .sleeping }
  | .wake p => some { s with table := s.table.setState p .ready }
  | .kill pid signum => (s.table.sysKill pid signum).map fun (t, _) => { s with table := t }
  | .exitProcess status => (s.table.exitProcess status).map fun t => { s with table := t }

/-- When `schedule` is called, the current process has not been made ready again and left the best choice. -/
def Regular (l : List Nat) (s : Scheduler) : SchedEvent → Prop
  | .schedule => ¬ s.table.Overtaken l
  | _ => True

def Step (l : List Nat) (s : Scheduler) (e : SchedEvent) (t : Scheduler) : Prop :=
  Regular l s e ∧ s.exec e = some t

variable {l xs ys : List Nat} {s t u : Scheduler} {e : SchedEvent} {es : List SchedEvent}

theorem setState_inv {t : ProcessTable} {p : Nat} {st : ProcessState} (h : SchedInv t l) (hst : st ≠ .running) :
    SchedInv (t.setState p st) l := by
  refine ⟨(setState_keeps t p st).inRing h.ring h.ring.current, fun x hx hs => h.running x hx ?_⟩
  by_cases hxp : x = p
  · rw [hxp, setState_state] at hs
    exact absurd hs hst
  · rwa [setState_other _ _ _ hxp] at hs

private theorem wakeEntry_inv {t : ProcessTable} {p : Nat} (h : SchedInv t l) : SchedInv (wakeEntry t p) l := by
  rw [wakeEntry]
  split
  · exact h
  · exact setState_inv h (by decide)

private theorem signalled_inv {t t' : ProcessTable} (h : SchedInv t l) (hs : Signalled t t') : SchedInv t' l := by
  refine ⟨hs.keeps.inRing h.ring (hs.currentProcess ▸ h.ring.current), fun p hp hr => ?_⟩
  rw [hs.currentProcess]
  rcases hs.state p with he | ⟨-, he⟩
  · exact h.running p hp (he ▸ hr)
  · rw [he] at hr
    cases hr

private theorem exited_inv {t t' : ProcessTable} (h : SchedInv t l) (hx : Exited t t') : SchedInv t' l := by
  refine ⟨hx.keeps.inRing h.ring (hx.currentProcess ▸ h.ring.current), fun p hp hr => ?_⟩
  rw [hx.currentProcess]
  by_contra hne
  rcases hx.state p hne with he | ⟨-, he⟩
  · exact hne (h.running p hp (he ▸ hr))
  · rw [he] at hr
    cases hr

theorem around {t : ProcessTable} (h : InRing t l) : ∃ xs ys, l = xs ++ t.currentProcess :: ys :=
  append_of_mem h.current

private theorem step_inv (h : SchedInv s.table l) (hs : Step l s e t) : SchedInv t.table l := by
  obtain ⟨hreg, he⟩ := hs
  cases e with
  | schedule =>
    obtain ⟨xs, ys, rfl⟩ := around h.ring
    obtain ⟨t', sw, ht, -, hi⟩ := schedule_scheduled h hreg
    rw [exec, ht] at he
    cases he
    exact hi
  | sleepOn wq entry =>
    cases he
    rw [sleepOn]
    split
    · exact h
    · exact setState_inv h (by decide)
  | wakeUp wq =>
    cases he
    rw [wakeUp]
    split
    · exact h
    · exact wakeEntry_inv h
  | wakeUpAll wq =>
    cases he
    have hfold : ∀ (ps : List Nat) (t : ProcessTable), SchedInv t l → SchedInv (ps.foldl wakeEntry t) l := by
      intro ps
      induction ps with
      | nil => exact fun _ ht => ht
      | cons p ps ih => exact fun t ht => ih _ (wakeEntry_inv ht)
    exact hfold _ _ h
  | wait =>
    cases he
    exact setState_inv h (by decide)
  | sleep =>
    cases he
    exact setState_inv h (by decide)
  | wake p =>
    cases he
    exact setState_inv h (by decide)
  | kill pid signum =>
    obtain ⟨t', r, ht, hk⟩ := sysKill_spec h.ring pid signum
    rw [exec, ht] at he
    cases he
    exact signalled_inv h hk
  | exitProcess status =>
    obtain ⟨t', ht, hx⟩ := exitProcess_spec h.ring status
    rw [exec, ht] at he
    cases he
    exact exited_inv h hx

theorem run_inv (h : SchedInv s.table l) (hr : Trace (Step l) s es t) : SchedInv t.table l := by
  induction hr with
  | nil => exact h
  | snoc _ hs ih => exact step_inv ih hs

/-- After any run in which no process is overtaken, a call of `schedule` returns; it has chosen the
first of the runnable processes with the least priority value in ring order after the old one,
exactly the process it chose is running, and it never switches a process to itself. -/
theorem schedule_runs (h : SchedInv s.table l) (hr : Trace (Step l) s es t) (hc : ¬ t.table.Overtaken l)
    (hl : l = xs ++ t.table.currentProcess :: ys) :
    ∃ t' sw, t.table.schedule = some (t', sw) ∧ Scheduled t.table (ys ++ xs ++ [t.table.currentProcess]) t' sw := by
  subst hl
  obtain ⟨t', sw, ht, hs, -⟩ := schedule_scheduled (run_inv h hr) hc
  exact ⟨t', sw, ht, hs⟩

/-- The first process and a child of it. -/
def twoProcesses : Scheduler := ⟨(bootTable.forkProcess 5 0xC1002000 0xC1003000).1, fun _ => []⟩

private theorem twoProcesses_inv : SchedInv twoProcesses.table [0xC1001000, 0xC1002000] := by
  refine ⟨⟨⟨by decide, by decide, rfl, id, rfl, id, rfl⟩, by decide, by decide⟩, ?_⟩
  decide

theorem twoProcesses_schedule : ∃ t' sw, (twoProcesses.table.setState 0xC1001000 .waiting).schedule = some (t', sw) ∧
    Scheduled (twoProcesses.table.setState 0xC1001000 .waiting) [0xC1002000, 0xC1001000] t' sw :=
  @schedule_runs _ [] [0xC1002000] _ { twoProcesses with table := twoProcesses.table.setState 0xC1001000 .waiting }
    [.wait] twoProcesses_inv
    (.snoc (l := []) (e := SchedEvent.wait) .nil ⟨trivial, rfl⟩) (fun h => by cases h.1) rfl

/-- A process that sleeps alone and is woken before `schedule` runs is switched to itself. -/
theorem schedule_switches_to_self : SchedInv bootTable [0xC1001000] ∧ ∃ t,
    Trace (fun s e t => exec s e = some t) ⟨bootTable, fun _ => []⟩ [.sleepOn 0 0xC1002000, .wakeUp 0] t ∧
      t.table.schedule.map Prod.snd = some (some ⟨0xC1001000, 0xC1001000⟩) := by
  refine ⟨⟨⟨⟨by decide, by decide, rfl, id, rfl⟩, by decide, by decide⟩, by decide⟩, _,
    .snoc (l := [SchedEvent.sleepOn 0 0xC1002000]) (.snoc (l := []) .nil rfl) rfl, ?_⟩
  decide +kernel

end Scheduler
end RetroOs.Kernel
