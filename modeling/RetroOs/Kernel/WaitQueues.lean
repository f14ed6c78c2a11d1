import RetroOs.Kernel.KillTargets
import RetroOs.Kernel.Preemption
import RetroOs.Kernel.ProcessFamily

/-! What the calls that stop, signal, end and reap processes do to those that wait. -/
namespace RetroOs.Kernel
open Lib Option
namespace ProcessTable

def AlarmDue (t : ProcessTable) (p : Nat) : Prop := 0 < (t.procs p).alarmTime ∧ (t.procs p).alarmTime ≤ t.tick

instance (t : ProcessTable) (p : Nat) : Decidable (t.AlarmDue p) := inferInstanceAs (Decidable (_ ∧ _))

def checkAlarm (t : ProcessTable) (p : Nat) : ProcessTable :=
  if t.AlarmDue p then
    let q := t.procs p
    t.set p { q with
      pendingSignals := q.pendingSignals ||| BitVec.twoPow 64 sigAlrm
      alarmTime := 0
      state := if q.state = .waiting ∨ q.state = .sleeping then .ready else q.state }
  else t

def checkAlarms (t : ProcessTable) : Option ProcessTable :=
  if t.readyQueue = 0 then some t
  else ringFold t.next (fun p => p == 0 || p == t.readyQueue) checkAlarm ringFuel t.readyQueue t

/-- The processes that a call of `sys_kill` signals. -/
def SignalledBy (t : ProcessTable) (l : List Nat) (pid : Word) (signum : Int) (p : Nat) : Prop :=
  ValidSignal signum ∧ t.Reaches l (if pid = 0 then t.current.pgid else pid) p

variable {t t' u : ProcessTable} {l : List Nat} {p c : Nat} {pid code : Word} {signum r : Int} {sw : Option Switch} {res : WaitResult}

private theorem not_runnable (h : (t.procs p).state = .waiting) : t.runnable p = false := by
  refine decide_eq_false ?_
  rintro (hready | ⟨rfl, hrun⟩)
  · rw [h] at hready
    cases hready
  · rw [h] at hrun
    cases hrun

theorem scheduleSelect_waiting (h : InRing t l) (hs : t.scheduleSelect = some (t', sw)) (hp : (t.procs p).state = .waiting) :
    (t'.procs p).state = .waiting := by
  obtain ⟨xs, ys, rfl⟩ := List.append_of_mem h.current
  rcases scheduleSelect_spec h with ⟨-, hnone⟩ | ⟨best, hb, hsome⟩
  · cases hnone.symm.trans hs
    exact hp
  · have heq := hsome.symm.trans hs
    split at heq
    · cases heq
      rw [setTime_state]
      exact hp
    · cases heq
      have hne : p ≠ best := by
        rintro rfl
        have hrun := hb.cand.2
        rw [not_runnable hp] at hrun
        cases hrun
      rw [switchTo_state, if_neg hne, if_neg]
      · exact hp
      · rintro ⟨rfl, hrun⟩
        rw [current, hp] at hrun
        cases hrun

private theorem schedule_waiting (h : InRing t l) (hs : t.schedule = some (t', sw)) (hp : (t.procs p).state = .waiting) :
    (t'.procs p).state = .waiting := by
  rw [schedule, if_neg (h.addr _ h.current).1] at hs
  split at hs
  · have hring := (setTime_keeps t (t.current.timeRemaining - 1)).inRing h h.current
    have hp' : ((t.setTime (t.current.timeRemaining - 1)).procs p).state = .waiting := (setTime_state t _ p).trans hp
    dsimp only at hs
    split at hs
    · obtain ⟨b, -, hs⟩ := bind_eq_some_iff.mp hs
      split at hs
      · exact scheduleSelect_waiting hring hs hp'
      · cases hs
        exact hp'
    · exact scheduleSelect_waiting hring hs hp'
  · exact scheduleSelect_waiting h hs hp

private theorem timerCallback_waiting (h : InRing t l) (ht : t.timerCallback = some t') :
    InRing t' l ∧ (∀ p, (t'.procs p).parent = (t.procs p).parent) ∧
      ∀ p, (t.procs p).state = .waiting → (t'.procs p).state = .waiting := by
  have h' : InRing { t with tick := t.tick + 1 } l := ⟨h.ring, h.addr, h.current⟩
  obtain ⟨u, hu, hadv, hcur, hsame⟩ := wakeSleepers_advances h'
  have hring := hadv.keeps.inRing h' (hcur ▸ h.current)
  obtain ⟨v, sw, hv, hk, hmem⟩ := schedule_keeps hring
  rw [timerCallback, hu, bind_some, hv] at ht
  cases ht
  refine ⟨hk.inRing hring hmem, fun p => (hk.parent p).trans (hadv.keeps.parent p), fun p hp => ?_⟩
  exact schedule_waiting hring hv ((hsame p (by rw [show (t.procs p).state = _ from hp]; decide)).trans hp)

private theorem sysKill_others (h : InRing t l) (ht : t.sysKill pid signum = some (t', r)) :
    Signalled t t' ∧ ∀ p, ¬ t.SignalledBy l pid signum p → t'.procs p = t.procs p := by
  obtain ⟨u, r', hu, hs⟩ := sysKill_spec h pid signum
  cases hu.symm.trans ht
  refine ⟨hs, fun p hp => ?_⟩
  by_cases hvalid : ValidSignal signum
  · obtain ⟨v, r'', hv, hmarks, -⟩ := sysKill_marks h pid hvalid
    cases hv.symm.trans ht
    exact hmarks.others p fun hr => hp ⟨hvalid, hr.2⟩
  · have hbad : signum < 0 ∨ nsig ≤ signum := by
      rcases not_and_or.mp hvalid with hneg | hlarge
      · exact .inl (Int.not_le.mp hneg)
      · exact .inr (Int.not_lt.mp hlarge)
    rw [sysKill, if_pos hbad] at ht
    cases ht
    rfl

theorem Keeps.id (h : Keeps t t') (p : Nat) : (t'.procs p).id = (t.procs p).id := by
  have hid := congrArg Process.id (h.procs p)
  exact hid

theorem Keeps.pgid (h : Keeps t t') (p : Nat) : (t'.procs p).pgid = (t.procs p).pgid := by
  have hpgid := congrArg Process.pgid (h.procs p)
  exact hpgid

theorem Keeps.signalledBy (h : Keeps t t') (hc : t'.currentProcess = t.currentProcess) (p : Nat) :
    t'.SignalledBy l pid signum p ↔ t.SignalledBy l pid signum p := by
  have hcur : t'.current.pgid = t.current.pgid := by
    rw [current, current, hc]
    exact h.pgid _
  have hid : (fun p => (t'.procs p).id) = fun p => (t.procs p).id := funext h.id
  have hfind : ∀ e : Word, l.find? (fun p => (t'.procs p).id == e) = l.find? fun p => (t.procs p).id == e :=
    fun e => congrArg (fun f : Nat → Word => l.find? fun p => f p == e) hid
  rw [SignalledBy, SignalledBy, Reaches, Reaches, hcur, hc, h.id, h.pgid, hfind]

private theorem notifyParent_others (h : InRing t l) (ht : t.notifyParent = some t')
    (hp : t.current.parent ≠ 0 → ¬ t.SignalledBy l (t.procs t.current.parent).id sigChld p) : t'.procs p = t.procs p := by
  rw [notifyParent] at ht
  split at ht
  · cases ht
    rfl
  · next h0 =>
    obtain ⟨⟨v, r⟩, hv, rfl⟩ := map_eq_some_iff.mp ht
    exact (sysKill_others h hv).2 p (hp h0)

private theorem exit_others (h : InRing t l) (hu : Tidies (t.setCurrent { t.current with state := .zombie, exitCode := code }) u)
    (ht : u.notifyParent = some t') (hp : p ≠ t.currentProcess)
    (hno : t.current.parent ≠ 0 → ¬ t.SignalledBy l (t.procs t.current.parent).id sigChld p) :
    (t'.procs p).state = (t.procs p).state := by
  have hk : Keeps t (t.setCurrent { t.current with state := .zombie, exitCode := code }) := keeps_setCurrent rfl
  have hkeeps := hk.trans hu.keeps
  have hcur : u.currentProcess = t.currentProcess := hu.currentProcess
  have hparent : u.current.parent = t.current.parent := by
    rw [current, current, hcur]
    exact hkeeps.parent _
  rw [notifyParent_others (hkeeps.inRing h (hcur ▸ h.current)) ht, hu.state, setCurrent_other _ _ hp]
  rw [hparent, hkeeps.id, hkeeps.signalledBy hcur]
  exact hno

private theorem unlink_state (h : t.unlink c = some t') (p : Nat) : (t'.procs p).state = (t.procs p).state := by
  rw [unlink] at h
  split at h
  · cases h
    rfl
  · obtain ⟨b, -, rfl⟩ := map_eq_some_iff.mp h
    exact set_field t b _ Process.state (by rfl) p

theorem setState_waiting (t : ProcessTable) (c : Nat) (hp : (t.procs p).state = .waiting) :
    ((t.setState c .waiting).procs p).state = .waiting := by
  by_cases hpc : p = c
  · rw [hpc, setState_state]
  · rw [setState_other _ _ _ hpc]
    exact hp

private theorem waitProcess_waiting (h : InRing t l) (ht : t.waitProcess = some (t', res)) (hp : (t.procs p).state = .waiting) :
    (t'.procs p).state = .waiting := by
  rw [waitProcess, h.find, bind_some] at ht
  cases hf : l.find? fun p => (t.procs p).parent == t.currentProcess && (t.procs p).state == .zombie with
  | some c =>
    simp only [hf] at ht
    obtain ⟨v, hv, heq⟩ := map_eq_some_iff.mp ht
    cases heq
    exact (unlink_state hv p).trans hp
  | none =>
    simp only [hf] at ht
    rw [h.find, map_some] at ht
    cases hc : l.find? fun p => (t.procs p).parent == t.currentProcess with
    | none =>
      simp only [hc] at ht
      cases ht
      exact hp
    | some c =>
      simp only [hc] at ht
      cases ht
      exact setState_waiting t _ hp

private theorem sysWaitpid_waiting {nohang : Bool} {pid : Int} (h : InRing t l) (ht : t.sysWaitpid pid nohang = some (t', res))
    (hp : (t.procs p).state = .waiting) : (t'.procs p).state = .waiting := by
  rw [sysWaitpid, if_neg h.readyQueue_ne] at ht
  dsimp only at ht
  rw [h.find, bind_some] at ht
  cases hf : l.find? fun p => t.waitMatches pid p && (t.procs p).state == .zombie with
  | some c =>
    simp only [hf] at ht
    obtain ⟨v, hv, heq⟩ := map_eq_some_iff.mp ht
    cases heq
    rw [unlink_state hv p, setCurrent]
    exact (set_field t _ _ Process.state (by rfl) p).trans hp
  | none =>
    simp only [hf] at ht
    rw [h.find, map_some] at ht
    cases hc : l.find? (t.waitMatches pid) with
    | none =>
      simp only [hc] at ht
      cases ht
      exact hp
    | some c =>
      simp only [hc] at ht
      cases nohang with
      | true =>
        cases ht
        exact hp
      | false =>
        cases ht
        exact setState_waiting t _ hp

private theorem checkAlarms_spec (h : InRing t l) : ∃ t', t.checkAlarms = some t' ∧ InRing t' l ∧
    (∀ p, (t'.procs p).parent = (t.procs p).parent) ∧ ∀ p, ¬ t.AlarmDue p → t'.procs p = t.procs p := by
  rw [checkAlarms, if_neg h.readyQueue_ne, h.ring.fold _ h.stop h.length_le]
  refine ⟨_, rfl, ?_⟩
  have hfold := List.foldlRecOn (motive := fun u : ProcessTable => (u.readyQueue = t.readyQueue ∧
      u.currentProcess = t.currentProcess ∧ u.tick = t.tick) ∧ u.next = t.next ∧
      (∀ p, (u.procs p).parent = (t.procs p).parent) ∧ ∀ p, ¬ t.AlarmDue p → u.procs p = t.procs p) l checkAlarm (b := t)
    ⟨⟨rfl, rfl, rfl⟩, rfl, fun _ => rfl, fun _ _ => rfl⟩ fun u hu x _ => ?_
  · obtain ⟨⟨hready, hcur, -⟩, hnext, hparent, hothers⟩ := hfold
    refine ⟨⟨?_, h.addr, hcur ▸ h.current⟩, hparent, hothers⟩
    rw [hnext, hready]
    exact h.ring
  · obtain ⟨hsame, hnext, hparent, hothers⟩ := hu
    rw [checkAlarm]
    split
    · next hdue =>
      refine ⟨hsame, ?_, fun p => ?_, fun p hp => ?_⟩
      · rw [← hnext]
        funext p
        exact set_field u x _ Process.next (by rfl) p
      · rw [← hparent p]
        exact set_field u x _ Process.parent (by rfl) p
      · have hpx : p ≠ x := by
          rintro rfl
          rw [AlarmDue, hothers p hp, hsame.2.2] at hdue
          exact hp hdue
        rw [set_other _ _ _ hpx]
        exact hothers p hp
    · exact ⟨hsame, hnext, hparent, hothers⟩

end ProcessTable
end RetroOs.Kernel

/-! The wait queues over any run: who sleeps on which queue, whom a wake-up makes ready, and what else wakes processes. -/
namespace RetroOs.Kernel
open Lib
open ProcessTable

structure WaitRun extends Scheduler where
  ring : List Nat
  sleepsOn : Nat → Option Nat

/-- The calls on wait queues, and what else stops, wakes, ends or reaps processes. -/
inductive WaitEvent where
  | sleepOn (wq entry : Nat)
  | wakeUp (wq : Nat)
  | wakeUpAll (wq : Nat)
  | kill (pid : Word) (signum : Int)
  | alarms
  | exitProcess (status : Int)
  | sysExit (status : Int)
  | waitProcess
  | sysWaitpid (pid : Int) (nohang : Bool)
  | schedule
  | timer
  | wait
  /-- A call that sets its caller to sleeping on the timer. -/
  | sleep
  /-- Another part of the kernel makes a process ready. -/
  | wake (p : Nat)

namespace WaitRun

def settle (s : WaitRun) (t : Scheduler) (ring : List Nat) : WaitRun where
  toScheduler := t
  ring
  sleepsOn p := if (t.table.procs p).state = .waiting then s.sleepsOn p else none

def withTable (s : WaitRun) (t : ProcessTable) : WaitRun := s.settle { s.toScheduler with table := t } s.ring

def waited (s : WaitRun) (t : ProcessTable) : WaitResult → WaitRun
  | .reaped child _ _ => s.settle { s.toScheduler with table := t } (s.ring.erase child)
  | _ => s.withTable t

def exec (s : WaitRun) : WaitEvent → Option WaitRun
  | .sleepOn wq entry =>
    some (if s.table.currentProcess = 0 ∨ entry = 0 then s
      else { s.settle (s.toScheduler.sleepOn wq entry) s.ring with
        sleepsOn := Function.update s.sleepsOn s.table.currentProcess (some wq) })
  | .wakeUp wq => some (s.settle (s.toScheduler.wakeUp wq) s.ring)
  | .wakeUpAll wq => some (s.settle (s.toScheduler.wakeUpAll wq) s.ring)
  | .kill pid signum => (s.table.sysKill pid signum).map fun (t, _) => s.withTable t
  | .alarms => s.table.checkAlarms.map s.withTable
  | .exitProcess status => (s.table.exitProcess status).map s.withTable
  | .sysExit status => (s.table.sysExit status).map s.withTable
  | .waitProcess => s.table.waitProcess.map fun (t, r) => s.waited t r
  | .sysWaitpid pid nohang => (s.table.sysWaitpid pid nohang).map fun (t, r) => s.waited t r
  | .schedule => s.table.schedule.map fun (t, _) => s.withTable t
  | .timer => s.table.timerCallback.map s.withTable
  | .wait => some (s.withTable (s.table.setState s.table.currentProcess .waiting))
  | .sleep => some (s.withTable (s.table.setState s.table.currentProcess .sleeping))
  | .wake p => some (s.withTable (s.table.setState p .ready))

/-- Each process is on one queue at most, and there once. -/
def OnceQueued (s : WaitRun) : Prop :=
  (∀ wq, (s.queues wq).Nodup) ∧ ∀ wq wq' p, p ∈ s.queues wq → p ∈ s.queues wq' → wq = wq'

/-- A wake-up changes the state only of processes that sleep on the queue, and are there to be woken. -/
def WakesSleepers (s : WaitRun) (wq : Nat) (t : WaitRun) : Prop :=
  ∀ p, (t.table.procs p).state ≠ (s.table.procs p).state →
    (s.table.procs p).state = .waiting ∧ s.sleepsOn p = some wq ∧ p ∈ s.ring

/-- One process is made ready, and no other one is changed. -/
def WakesOne (s t : WaitRun) : Prop :=
  ∃ p, (s.table.procs p).state = .waiting ∧ (t.table.procs p).state = .ready ∧ ∀ q ≠ p, t.table.procs q = s.table.procs q

def Proper (s : WaitRun) : WaitEvent → WaitRun → Prop
  | .wakeUp wq, t => s.WakesSleepers wq t ∧ (s.queues wq ≠ [] → s.WakesOne t)
  | .wakeUpAll wq, t => s.WakesSleepers wq t
  | _, _ => True

def OnQueue (s : WaitRun) (p : Nat) : Prop := ∃ wq, p ∈ s.queues wq

/-- Nothing but a wake-up ends the sleep of a process that is on a queue: no signal, no alarm, no other part of the kernel; and
a process that goes on with its entry still there does not sleep again, or end. -/
def Undisturbed (s : WaitRun) : WaitEvent → Prop
  | .sleepOn _ _ => ¬ s.OnQueue s.table.currentProcess
  | .sleep => ¬ s.OnQueue s.table.currentProcess
  | .kill pid signum => ∀ p, s.OnQueue p → ¬ s.table.SignalledBy s.ring pid signum p
  | .alarms => ∀ p, s.OnQueue p → ¬ s.table.AlarmDue p
  | .exitProcess _ => ¬ s.OnQueue s.table.currentProcess ∧ (s.table.current.parent ≠ 0 →
      ∀ p, s.OnQueue p → ¬ s.table.SignalledBy s.ring (s.table.procs s.table.current.parent).id sigChld p)
  | .sysExit _ => ¬ s.OnQueue s.table.currentProcess ∧ (s.table.current.parent ≠ 0 →
      ∀ p, s.OnQueue p → ¬ s.table.SignalledBy s.ring (s.table.procs s.table.current.parent).id sigChld p)
  | .wake p => ¬ s.OnQueue p
  | _ => True

/-- The queues are empty, and no one sleeps on them yet. -/
def start (t : ProcessTable) (ring : List Nat) : WaitRun := ⟨⟨t, fun _ => []⟩, ring, fun _ => none⟩

def Step (s : WaitRun) (e : WaitEvent) (t : WaitRun) : Prop := s.Undisturbed e ∧ s.exec e = some t

structure Inv (s : WaitRun) : Prop where
  inRing : InRing s.table s.ring
  parent : ∀ p ∈ s.ring, (s.table.procs p).parent ≠ p
  waiting : ∀ wq, ∀ p ∈ s.queues wq, (s.table.procs p).state = .waiting
  sleeps : ∀ wq, ∀ p ∈ s.queues wq, s.sleepsOn p = some wq
  mem : ∀ wq, ∀ p ∈ s.queues wq, p ∈ s.ring
  nodup : ∀ wq, (s.queues wq).Nodup

variable {s t : WaitRun} {e : WaitEvent} {es : List WaitEvent} {u : Scheduler} {v : ProcessTable} {l : List Nat} {p q wq : Nat}

theorem Inv.onceQueued (h : Inv s) : OnceQueued s := by
  refine ⟨h.nodup, fun wq wq' p hp hp' => ?_⟩
  exact Option.some.inj ((h.sleeps wq p hp).symm.trans (h.sleeps wq' p hp'))

theorem Inv.settle (h : Inv s) (hring : InRing u.table l) (hl : l ⊆ s.ring)
    (hparent : ∀ p, (u.table.procs p).parent = (s.table.procs p).parent) (hqueues : ∀ wq, (u.queues wq).Sublist (s.queues wq))
    (hq : ∀ wq, ∀ p ∈ u.queues wq, (u.table.procs p).state = .waiting ∧ p ∈ l) : Inv (s.settle u l) := by
  refine ⟨hring, fun p hp => ?_, fun wq p hp => (hq wq p hp).1, fun wq p hp => ?_, fun wq p hp => (hq wq p hp).2, fun wq => ?_⟩
  · exact (hparent p).trans_ne (h.parent p (hl hp))
  · rw [WaitRun.settle]
    dsimp only
    rw [if_pos (hq wq p hp).1]
    exact h.sleeps wq p ((hqueues wq).subset hp)
  · exact (h.nodup wq).sublist (hqueues wq)

theorem Inv.withTable (h : Inv s) (hring : InRing v s.ring) (hparent : ∀ p, (v.procs p).parent = (s.table.procs p).parent)
    (hwait : ∀ p, s.OnQueue p → (s.table.procs p).state = .waiting → (v.procs p).state = .waiting) : Inv (s.withTable v) :=
  h.settle hring (List.Subset.refl _) hparent (fun _ => List.Sublist.refl _) fun wq p hp =>
    ⟨hwait p ⟨wq, hp⟩ (h.waiting wq p hp), h.mem wq p hp⟩

theorem Inv.keeps (h : Inv s) (hk : Keeps s.table v) (hc : v.currentProcess ∈ s.ring)
    (hwait : ∀ p, s.OnQueue p → (s.table.procs p).state = .waiting → (v.procs p).state = .waiting) : Inv (s.withTable v) :=
  h.withTable (hk.inRing h.inRing hc) hk.parent hwait

theorem Inv.setState (h : Inv s) {state : ProcessState} (hp : state = .waiting ∨ ¬ s.OnQueue p) :
    Inv (s.withTable (s.table.setState p state)) := by
  refine h.keeps (setState_keeps _ _ _) h.inRing.current fun q hq hw => ?_
  rcases hp with rfl | hp
  · exact setState_waiting _ _ hw
  · have hqp : q ≠ p := by
      rintro rfl
      exact hp hq
    rw [setState_other _ _ _ hqp]
    exact hw

theorem Inv.sleepOn (h : Inv s) (hno : ¬ s.OnQueue s.table.currentProcess) {entry : Nat}
    (hentry : ¬ (s.table.currentProcess = 0 ∨ entry = 0)) :
    Inv { s.settle (s.toScheduler.sleepOn wq entry) s.ring with
      sleepsOn := Function.update s.sleepsOn s.table.currentProcess (some wq) } := by
  have hsleep : s.toScheduler.sleepOn wq entry = ⟨s.table.setState s.table.currentProcess .waiting,
      Function.update s.queues wq (s.queues wq ++ [s.table.currentProcess])⟩ := by
    rw [Scheduler.sleepOn, if_neg hentry]
  rw [hsleep]
  have hkeeps := setState_keeps s.table s.table.currentProcess .waiting
  -- On a queue are those who were on it, and now also the current process, on this one.
  have hmem : ∀ wq' p, p ∈ Function.update s.queues wq (s.queues wq ++ [s.table.currentProcess]) wq' →
      p ∈ s.queues wq' ∧ p ≠ s.table.currentProcess ∨ p = s.table.currentProcess ∧ wq' = wq := by
    intro wq' p hp
    have hold : p ∈ s.queues wq' → p ∈ s.queues wq' ∧ p ≠ s.table.currentProcess := fun hp =>
      ⟨hp, fun heq => hno ⟨wq', heq ▸ hp⟩⟩
    by_cases hwq : wq' = wq
    · subst hwq
      rw [Function.update_self] at hp
      rcases List.mem_append.mp hp with hp | hp
      · exact .inl (hold hp)
      · exact .inr ⟨List.mem_singleton.mp hp, rfl⟩
    · rw [Function.update_of_ne hwq] at hp
      exact .inl (hold hp)
  refine ⟨hkeeps.inRing h.inRing h.inRing.current, fun p hp => ?_, fun wq' p hp => ?_, fun wq' p hp => ?_, fun wq' p hp => ?_,
    fun wq' => ?_⟩
  · exact (hkeeps.parent p).trans_ne (h.parent p hp)
  · rcases hmem wq' p hp with ⟨hp, -⟩ | ⟨rfl, -⟩
    · exact setState_waiting _ _ (h.waiting wq' p hp)
    · exact setState_state ..
  · rcases hmem wq' p hp with ⟨hp, hne⟩ | ⟨rfl, rfl⟩
    · exact (Function.update_of_ne hne ..).trans (h.sleeps wq' p hp)
    · exact Function.update_self ..
  · rcases hmem wq' p hp with ⟨hp, -⟩ | ⟨rfl, -⟩
    · exact h.mem wq' p hp
    · exact h.inRing.current
  · change (Function.update s.queues wq (s.queues wq ++ [s.table.currentProcess]) wq').Nodup
    by_cases hwq : wq' = wq
    · subst hwq
      rw [Function.update_self]
      exact List.nodup_append.mpr ⟨h.nodup wq', List.nodup_singleton _, fun a ha b hb heq =>
        hno ⟨wq', (heq.trans (List.mem_singleton.mp hb)) ▸ ha⟩⟩
    · rw [Function.update_of_ne hwq]
      exact h.nodup wq'

private theorem wakeEntry_of_ne (v : ProcessTable) (hp : p ≠ 0) : Scheduler.wakeEntry v p = v.setState p .ready := if_neg hp

private theorem wakeEntry_keeps (v : ProcessTable) (p : Nat) : Keeps v (Scheduler.wakeEntry v p) := by
  rw [Scheduler.wakeEntry]
  split
  · exact .refl
  · exact setState_keeps v p .ready

theorem wakeEntries_spec (v : ProcessTable) (l : List Nat) : Keeps v (l.foldl Scheduler.wakeEntry v) ∧
    (l.foldl Scheduler.wakeEntry v).currentProcess = v.currentProcess ∧
      ∀ p, p ∉ l → (l.foldl Scheduler.wakeEntry v).procs p = v.procs p := by
  refine List.foldlRecOn (motive := fun u : ProcessTable => Keeps v u ∧ u.currentProcess = v.currentProcess ∧
    ∀ p, p ∉ l → u.procs p = v.procs p) l _ ⟨.refl, rfl, fun _ _ => rfl⟩ fun u hu x hx => ?_
  refine ⟨hu.1.trans (wakeEntry_keeps u x), ?_, fun p hp => ?_⟩
  · rw [← hu.2.1, Scheduler.wakeEntry]
    split <;> rfl
  · have hpx : p ≠ x := fun heq => hp (heq ▸ hx)
    rw [← hu.2.2 p hp, Scheduler.wakeEntry]
    split
    · rfl
    · exact setState_other _ _ _ hpx

theorem Inv.wake (h : Inv s) (hu : Keeps s.table u.table) (hcur : u.table.currentProcess = s.table.currentProcess)
    (hqueues : ∀ wq, (u.queues wq).Sublist (s.queues wq))
    (hq : ∀ wq, ∀ p ∈ u.queues wq, u.table.procs p = s.table.procs p) : Inv (s.settle u s.ring) := by
  refine h.settle (hu.inRing h.inRing (hcur ▸ h.inRing.current)) (List.Subset.refl _) hu.parent hqueues fun wq p hp => ?_
  have hmem := (hqueues wq).subset hp
  refine ⟨?_, h.mem wq p hmem⟩
  rw [hq wq p hp]
  exact h.waiting wq p hmem

private theorem wakeUp_nil {s : Scheduler} (h : s.queues wq = []) : s.wakeUp wq = s := by
  rw [Scheduler.wakeUp, h]

private theorem wakeUp_cons {s : Scheduler} (h : s.queues wq = p :: l) :
    s.wakeUp wq = ⟨Scheduler.wakeEntry s.table p, Function.update s.queues wq l⟩ := by
  rw [Scheduler.wakeUp, h]

theorem update_sublist {f : Nat → List Nat} (hl : l.Sublist (f wq)) (wq' : Nat) :
    (Function.update f wq l wq').Sublist (f wq') := by
  by_cases heq : wq' = wq
  · rw [heq, Function.update_self]
    exact hl
  · rw [Function.update_of_ne heq]

theorem Inv.wakeUp (h : Inv s) (wq : Nat) : Inv (s.settle (s.toScheduler.wakeUp wq) s.ring) := by
  cases hwq : s.queues wq with
  | nil =>
    rw [wakeUp_nil hwq]
    exact h.wake .refl rfl (fun _ => List.Sublist.refl _) fun _ _ _ => rfl
  | cons p l =>
    rw [wakeUp_cons hwq]
    have hp : p ∈ s.queues wq := hwq ▸ (.head _)
    have hnd := List.nodup_cons.mp (hwq ▸ h.nodup wq)
    have hsub : l.Sublist (s.queues wq) := hwq ▸ List.sublist_cons_self p l
    refine h.wake (wakeEntry_keeps _ _) (wakeEntries_spec _ [p]).2.1 (update_sublist hsub) fun wq' q hq => ?_
    refine (wakeEntries_spec _ [p]).2.2 q fun hqp => ?_
    obtain rfl := List.mem_singleton.mp hqp
    obtain rfl := h.onceQueued.2 wq' wq q ((update_sublist hsub wq').subset hq) hp
    dsimp only at hq
    rw [Function.update_self] at hq
    exact hnd.1 hq

theorem Inv.wakeUpAll (h : Inv s) (wq : Nat) : Inv (s.settle (s.toScheduler.wakeUpAll wq) s.ring) := by
  obtain ⟨hk, hcur, hothers⟩ := wakeEntries_spec s.table (s.queues wq)
  have hsub : List.Sublist [] (s.queues wq) := List.nil_sublist _
  refine h.wake hk hcur (update_sublist hsub) fun wq' q hq => hothers q fun hmem => ?_
  obtain rfl := h.onceQueued.2 wq' wq q ((update_sublist hsub wq').subset hq) hmem
  rw [Scheduler.wakeUpAll] at hq
  dsimp only at hq
  rw [Function.update_self] at hq
  cases hq

theorem Inv.waited {test : Nat → Bool} {r : WaitResult} (h : Inv s) (hw : Waited s.table s.ring test v r)
    (hwait : ∀ p, (s.table.procs p).state = .waiting → (v.procs p).state = .waiting) : Inv (s.waited v r) := by
  cases hw with
  | kept hk hcur hr =>
    have hkept := h.keeps hk (hcur ▸ h.inRing.current) fun p _ => hwait p
    cases r with
    | reaped c pid status => exact absurd rfl (hr c pid status)
    | returned n => exact hkept
    | blocked => exact hkept
  | @reaped c pid status hf hring hcur hpar =>
    have hzombie := List.find?_some hf
    rw [Bool.and_eq_true, beq_iff_eq] at hzombie
    refine h.settle hring (List.erase_subset) hpar (fun _ => List.Sublist.refl _) fun wq p hp => ?_
    have hpw := h.waiting wq p hp
    have hpc : p ≠ c := by
      rintro rfl
      rw [hzombie.2] at hpw
      cases hpw
    exact ⟨hwait p hpw, (h.inRing.ring.nodup.mem_erase_iff).mpr ⟨hpc, h.mem wq p hp⟩⟩

theorem Inv.step (h : Inv s) (hs : Step s e t) : Inv t := by
  obtain ⟨hquiet, hexec⟩ := hs
  cases e with
  | sleepOn wq entry =>
    cases hexec
    split
    · exact h
    · next hentry => exact h.sleepOn hquiet hentry
  | wakeUp wq =>
    cases hexec
    exact h.wakeUp wq
  | wakeUpAll wq =>
    cases hexec
    exact h.wakeUpAll wq
  | kill pid signum =>
    obtain ⟨⟨v, r⟩, hv, rfl⟩ := Option.map_eq_some_iff.mp hexec
    obtain ⟨hsig, hothers⟩ := sysKill_others h.inRing hv
    refine h.keeps hsig.keeps (hsig.currentProcess ▸ h.inRing.current) fun p hp hw => ?_
    rw [hothers p (hquiet p hp)]
    exact hw
  | alarms =>
    obtain ⟨v, hv, hring, hparent, hothers⟩ := checkAlarms_spec h.inRing
    rw [exec, hv, Option.map_some] at hexec
    cases hexec
    refine h.withTable hring hparent fun p hp hw => ?_
    rw [hothers p (hquiet p hp)]
    exact hw
  | exitProcess status =>
    obtain ⟨hcur, hno⟩ := hquiet
    obtain ⟨v, hv, hx⟩ := exitProcess_spec h.inRing status
    rw [exec, hv, Option.map_some] at hexec
    cases hexec
    refine h.keeps hx.keeps (hx.currentProcess ▸ h.inRing.current) fun p hp hw => ?_
    have hne : p ≠ s.table.currentProcess := fun heq => hcur (heq ▸ hp)
    exact (exit_others h.inRing (closeFiles_spec _) hv hne fun h0 => hno h0 p hp).trans hw
  | sysExit status =>
    obtain ⟨hcur, hno⟩ := hquiet
    obtain ⟨v, hv, hx⟩ := sysExit_spec h.inRing status
    rw [exec, hv, Option.map_some] at hexec
    cases hexec
    refine h.keeps hx.keeps (hx.currentProcess ▸ h.inRing.current) fun p hp hw => ?_
    have hne : p ≠ s.table.currentProcess := fun heq => hcur (heq ▸ hp)
    exact (exit_others h.inRing ⟨.refl, rfl, fun _ => rfl⟩ hv hne fun h0 => hno h0 p hp).trans hw
  | waitProcess =>
    obtain ⟨v, r, hv, hw⟩ := waitProcess_spec h.inRing (h.parent _ h.inRing.current)
    rw [exec, hv, Option.map_some] at hexec
    cases hexec
    exact h.waited hw fun p => waitProcess_waiting h.inRing hv
  | sysWaitpid pid nohang =>
    obtain ⟨v, r, hv, hw⟩ := sysWaitpid_spec h.inRing (h.parent _ h.inRing.current) pid nohang
    rw [exec, hv, Option.map_some] at hexec
    cases hexec
    exact h.waited hw fun p => sysWaitpid_waiting h.inRing hv
  | schedule =>
    obtain ⟨v, sw, hv, hk, hmem⟩ := schedule_keeps h.inRing
    rw [exec, hv, Option.map_some] at hexec
    cases hexec
    exact h.keeps hk hmem fun p _ => schedule_waiting h.inRing hv
  | timer =>
    obtain ⟨v, hv, rfl⟩ := Option.map_eq_some_iff.mp hexec
    obtain ⟨hring, hparent, hwait⟩ := timerCallback_waiting h.inRing hv
    exact h.withTable hring hparent fun p _ => hwait p
  | wait =>
    cases hexec
    exact h.setState (.inl rfl)
  | sleep =>
    cases hexec
    exact h.setState (.inr hquiet)
  | wake p =>
    cases hexec
    exact h.setState (.inr hquiet)

theorem Inv.wakesSleepers (h : Inv s) {queues : Nat → List Nat} (hl : l ⊆ s.queues wq) :
    s.WakesSleepers wq (s.settle ⟨l.foldl Scheduler.wakeEntry s.table, queues⟩ s.ring) := by
  intro p hp
  have hmem : p ∈ l := by
    by_contra hno
    exact hp (congrArg Process.state ((wakeEntries_spec s.table l).2.2 p hno))
  exact ⟨h.waiting wq p (hl hmem), h.sleeps wq p (hl hmem), h.mem wq p (hl hmem)⟩

theorem Inv.proper (h : Inv s) (hexec : s.exec e = some t) : s.Proper e t := by
  cases e with
  | wakeUp wq =>
    cases hexec
    cases hwq : s.queues wq with
    | nil =>
      rw [wakeUp_nil hwq]
      exact ⟨fun p hp => absurd rfl hp, fun hne => absurd hwq hne⟩
    | cons p l =>
      have hp : p ∈ s.queues wq := hwq ▸ List.mem_cons_self
      have h0 : p ≠ 0 := (h.inRing.addr p (h.mem wq p hp)).1
      rw [wakeUp_cons hwq]
      refine ⟨h.wakesSleepers (l := [p]) fun q hq => List.mem_singleton.mp hq ▸ hp, fun _ => ⟨p, h.waiting wq p hp, ?_, ?_⟩⟩
      · rw [wakeEntry_of_ne _ h0]
        exact setState_state ..
      · exact fun q hq => (wakeEntries_spec s.table [p]).2.2 q fun hmem => hq (List.mem_singleton.mp hmem)
  | wakeUpAll wq =>
    cases hexec
    exact h.wakesSleepers (List.Subset.refl _)
  | _ => trivial

theorem Inv.start (hring : InRing v l) (hparent : ∀ p ∈ l, (v.procs p).parent ≠ p) : Inv (start v l) :=
  ⟨hring, hparent, nofun, nofun, nofun, fun _ => List.nodup_nil⟩

theorem Inv.run (h : Inv s) (hr : Trace Step s es t) : Inv t := by
  induction hr with
  | nil => exact h
  | snoc _ hs ih => exact ih.step hs

/-- In every run in which only wake-ups end the sleep of the processes on the queues, each process is on one queue at most, and
a wake-up comes to sleepers on its queue only: to exactly one where there are any. -/
theorem proper_runs (hring : InRing v l) (hparent : ∀ p ∈ l, (v.procs p).parent ≠ p) (hr : Trace Step (start v l) es t) :
    OnceQueued t ∧ ∀ e u, t.exec e = some u → t.Proper e u := by
  have hinv := (Inv.start hring hparent).run hr
  exact ⟨hinv.onceQueued, fun e u hexec => hinv.proper hexec⟩

private theorem bootAndChild_parent : ∀ p ∈ [0xC1001000, 0xC1002000], (bootAndChild.procs p).parent ≠ p := by decide

/-- The first process sleeps, and is woken. -/
theorem proper_runs_bootAndChild : ∃ t, Trace Step (start bootAndChild [0xC1001000, 0xC1002000])
    [.sleepOn 0 0xC1004000, .wakeUp 0] t ∧ OnceQueued t ∧ ∀ e u, t.exec e = some u → t.Proper e u := by
  have hr : Trace Step (start bootAndChild [0xC1001000, 0xC1002000]) [.sleepOn 0 0xC1004000, .wakeUp 0] _ :=
    .snoc (l := [_]) (.snoc (l := []) .nil ⟨fun ⟨_, h⟩ => List.not_mem_nil h, rfl⟩) ⟨trivial, rfl⟩
  exact ⟨_, hr, proper_runs bootAndChild_inRing bootAndChild_parent hr⟩

/-- The child sends a signal to the group 0, which wakes the first process; its entry is still there when it sleeps again. -/
def wokenBySignal : List WaitEvent :=
  [.sleepOn 0 0xC1004000, .schedule, .kill 0 15, .wait, .schedule, .sleepOn 0 0xC1005000]

theorem queued_twice : ¬ ∀ es t, Trace (fun s e t => s.exec e = some t) (start bootAndChild [0xC1001000, 0xC1002000]) es t →
    OnceQueued t ∧ ∀ e u, t.exec e = some u → t.Proper e u := by
  intro h
  have hrun : (wokenBySignal.foldlM exec (start bootAndChild [0xC1001000, 0xC1002000])).map (fun t => t.queues 0) =
      some [0xC1001000, 0xC1001000] := by decide +kernel
  obtain ⟨t, ht, hq⟩ := Option.map_eq_some_iff.mp hrun
  have hnd := (h _ t (trace_of_foldlM ht)).1.1 0
  rw [hq] at hnd
  exact absurd hnd (by decide)

end WaitRun
end RetroOs.Kernel
