import RetroOs.Kernel.WaitQueues

/-! Alarms and timers: deadlines in a 32-bit tick counter, and beside each of them what was asked for. -/
namespace RetroOs.Kernel
open Lib

def ticksPerSec : ℕ := 100
def maxTimers : ℕ := 16
def timerAbstime : Word := 1
def clockRealtime : Int := 0
def clockMonotonic : Int := 1

structure TimeSpec where
  sec : Word
  nsec : Word

namespace TimeSpec

def IsZero (ts : TimeSpec) : Prop := ts.sec = 0 ∧ ts.nsec = 0

instance (ts : TimeSpec) : Decidable ts.IsZero := inferInstanceAs (Decidable (_ ∧ _))

def toTicks (ts : TimeSpec) : Word := ts.sec * 100 + (ts.nsec + 9999999).sdiv 10000000

def ticks (ts : TimeSpec) : ℕ := ts.sec.toNat * ticksPerSec + (ts.nsec.toNat + 9999999) / 10000000

/-- Nanoseconds are less than a second. -/
def Proper (ts : TimeSpec) : Prop := ts.nsec.toNat < 1000000000

instance (ts : TimeSpec) : Decidable ts.Proper := inferInstanceAs (Decidable (_ < _))

end TimeSpec

structure ITimerSpec where
  interval : TimeSpec
  value : TimeSpec

structure KernelTimer where
  inUse : Bool
  clockId : Int
  pid : Word
  signo : Int
  value : ITimerSpec
  nextFire : Word

/-- The processes with their alarms, the timers, and the calls of `sys_kill` that timers have made. -/
structure Timers where
  table : ProcessTable
  timers : Fin maxTimers → KernelTimer
  kills : List (Word × Int)

def ProcessTable.sysAlarm (t : ProcessTable) (seconds : Word) : Word × ProcessTable :=
  if t.currentProcess = 0 then (0, t)
  else
    let old := t.current.alarmTime
    let oldRemaining := if 0 < old ∧ t.tick < old then (old - t.tick) / 100 else 0
    (oldRemaining, t.setCurrent { t.current with alarmTime := if seconds = 0 then 0 else t.tick + seconds * 100 })

namespace KernelTimer

/-- The test of `check_timers`. -/
def Fires (k : KernelTimer) (tick : Word) : Prop := k.inUse = true ∧ k.nextFire ≠ 0 ∧ k.nextFire ≤ tick

instance (k : KernelTimer) (tick : Word) : Decidable (k.Fires tick) := inferInstanceAs (Decidable (_ ∧ _))

def rearm (k : KernelTimer) (tick : Word) : KernelTimer :=
  { k with nextFire := if k.value.interval.IsZero then 0 else tick + k.value.interval.toTicks }

end KernelTimer

namespace Timers

def setTimer (s : Timers) (i : Fin maxTimers) (k : KernelTimer) : Timers := { s with timers := Function.update s.timers i k }

/-- The timer that a call names, where it is in use. -/
def slot (s : Timers) (timerid : Int) : Option (Fin maxTimers) :=
  (List.finRange maxTimers).find? fun i => decide (timerid = i.val) && (s.timers i).inUse

def timerCreate (s : Timers) (clockid : Int) : (Int × Option (Fin maxTimers)) × Timers :=
  if clockid ≠ clockRealtime ∧ clockid ≠ clockMonotonic then ((-22, none), s)
  else
    match (List.finRange maxTimers).find? fun i => !(s.timers i).inUse with
    | some i =>
      let k : KernelTimer :=
        { inUse := true
          clockId := clockid
          pid := if s.table.currentProcess = 0 then 0 else s.table.current.id
          signo := sigAlrm
          value := ⟨⟨0, 0⟩, ⟨0, 0⟩⟩
          nextFire := 0 }
      ((0, some i), s.setTimer i k)
    | none => ((-11, none), s)

def timerDelete (s : Timers) (timerid : Int) : Int × Timers :=
  match s.slot timerid with
  | some i => (0, s.setTimer i { s.timers i with inUse := false })
  | none => (-22, s)

def timerSettime (s : Timers) (timerid : Int) (flags : Word) (newValue : Option ITimerSpec) : (Int × Option ITimerSpec) × Timers :=
  match s.slot timerid, newValue with
  | none, _ => ((-22, none), s)
  | some _, none => ((-14, none), s)
  | some i, some v =>
    let nextFire :=
      if v.value.IsZero then 0
      else if flags &&& timerAbstime ≠ 0 then v.value.toTicks
      else s.table.tick + v.value.toTicks
    ((0, some (s.timers i).value), s.setTimer i { s.timers i with value := v, nextFire })

def checkTimer (s : Timers) (i : Fin maxTimers) : Option Timers :=
  let k := s.timers i
  if k.Fires s.table.tick then
    (s.table.sysKill k.pid k.signo).map fun x =>
      { s.setTimer i (k.rearm s.table.tick) with table := x.1, kills := s.kills ++ [(k.pid, k.signo)] }
  else some s

def checkTimers (s : Timers) : Option Timers := (List.finRange maxTimers).foldlM checkTimer s

end Timers

/-- A signal that is asked for: after so many ticks, of which some have elapsed, and where it is periodic again and again. -/
structure Request where
  elapsed : ℕ
  ticks : ℕ
  every : ℕ

namespace Request

def Due (r : Request) : Prop := r.ticks ≤ r.elapsed

instance (r : Request) : Decidable r.Due := inferInstanceAs (Decidable (_ ≤ _))

def tick (r : Request) : Request := { r with elapsed := r.elapsed + 1 }

def checked (r : Request) : Option Request :=
  if r.Due then if r.every = 0 then none else some ⟨0, r.every, r.every⟩ else some r

end Request

/-- A signal is asked for, and its time has come. -/
def IsDue (r : Option Request) : Prop := ∃ x ∈ r, x.Due

instance (r : Option Request) : Decidable (IsDue r) := inferInstanceAs (Decidable (∃ x ∈ r, x.Due))

structure TimerRun extends Timers where
  alarmAsked : ℕ → Option Request
  timerAsked : Fin maxTimers → Option Request

inductive TimerEvent where
  | interrupt
  | checkAlarms
  | checkTimers
  | sysAlarm (seconds : Word)
  | timerCreate (clockid : Int)
  | timerDelete (timerid : Int)
  | timerSettime (timerid : Int) (flags : Word) (newValue : Option ITimerSpec)

namespace TimerRun

def asked (s : TimerRun) (flags : Word) (v : ITimerSpec) : ℕ :=
  if flags &&& timerAbstime ≠ 0 then v.value.ticks - s.table.tick.toNat else v.value.ticks

def exec (s : TimerRun) : TimerEvent → TimerRun
  | .interrupt =>
    match s.table.timerCallback with
    | some table =>
      { s with
        table
        alarmAsked := fun p => (s.alarmAsked p).map Request.tick
        timerAsked := fun i => (s.timerAsked i).map Request.tick }
    | none => s
  | .checkAlarms =>
    match s.table.checkAlarms with
    | some table => { s with table, alarmAsked := fun p => (s.alarmAsked p).bind Request.checked }
    | none => s
  | .checkTimers =>
    match s.toTimers.checkTimers with
    | some timers => { s with toTimers := timers, timerAsked := fun i => (s.timerAsked i).bind Request.checked }
    | none => s
  | .sysAlarm seconds =>
    { s with
      table := (s.table.sysAlarm seconds).2
      alarmAsked := Function.update s.alarmAsked s.table.currentProcess
        (if seconds = 0 then none else some ⟨0, seconds.toNat * ticksPerSec, 0⟩) }
  | .timerCreate clockid =>
    let x := s.toTimers.timerCreate clockid
    { s with
      toTimers := x.2
      timerAsked := fun i => if x.1.2 = some i then none else s.timerAsked i }
  | .timerDelete timerid =>
    { s with
      toTimers := (s.toTimers.timerDelete timerid).2
      timerAsked := fun i => if s.slot timerid = some i then none else s.timerAsked i }
  | .timerSettime timerid flags newValue =>
    { s with
      toTimers := (s.toTimers.timerSettime timerid flags newValue).2
      timerAsked := fun i =>
        match newValue with
        | some v =>
          if s.slot timerid = some i then
            if v.value.IsZero then none else some ⟨0, s.asked flags v, v.interval.ticks⟩
          else s.timerAsked i
        | none => s.timerAsked i }

def RaisesDue (l : List ℕ) (s : TimerRun) : TimerEvent → Prop
  | .checkAlarms => ∃ t, s.table.checkAlarms = some t ∧ ∀ p ∈ l, (t.procs p).pendingSignals =
      if IsDue (s.alarmAsked p) then (s.table.procs p).pendingSignals ||| BitVec.twoPow 64 sigAlrm else (s.table.procs p).pendingSignals
  | .checkTimers => ∃ t, s.toTimers.checkTimers = some t ∧ t.kills = s.kills ++
      ((List.finRange maxTimers).filter fun i => IsDue (s.timerAsked i)).map fun i => ((s.timers i).pid, (s.timers i).signo)
  | _ => True

/-- Nothing wraps: a deadline is a time that the counter can show, and so is the next time of the counter while something is
armed. -/
def Unwrapped (l : List ℕ) (s : TimerRun) : TimerEvent → Prop
  | .interrupt => s.table.tick.toNat + 1 < 2 ^ 32 ∨
      (∀ p ∈ l, (s.table.procs p).alarmTime = 0) ∧ ∀ i, (s.timers i).inUse = true → (s.timers i).nextFire = 0
  | .checkTimers => ∀ i, (s.timers i).Fires s.table.tick → ¬ (s.timers i).value.interval.IsZero →
      (s.timers i).value.interval.Proper ∧ s.table.tick.toNat + (s.timers i).value.interval.ticks < 2 ^ 32
  | .sysAlarm seconds => s.table.tick.toNat + seconds.toNat * ticksPerSec < 2 ^ 32
  | .timerSettime timerid flags newValue => s.slot timerid ≠ none → ∀ v ∈ newValue, ¬ v.value.IsZero → v.value.Proper ∧
      (if flags &&& timerAbstime ≠ 0 then 0 else s.table.tick.toNat) + v.value.ticks < 2 ^ 32
  | _ => True

instance (l : List ℕ) (s : TimerRun) : (e : TimerEvent) → Decidable (Unwrapped l s e)
  | .interrupt => inferInstanceAs (Decidable (_ ∨ _))
  | .checkTimers => inferInstanceAs (Decidable (∀ _, _))
  | .sysAlarm _ => inferInstanceAs (Decidable (_ < _))
  | .timerSettime _ _ newValue => inferInstanceAs (Decidable (_ → ∀ v ∈ newValue, _))
  | .checkAlarms => instDecidableTrue
  | .timerCreate _ => instDecidableTrue
  | .timerDelete _ => instDecidableTrue

end TimerRun
end RetroOs.Kernel

/-! Any run of interrupts, checks and calls that set alarms and timers. -/
namespace RetroOs.Kernel
open Lib

theorem TimeSpec.toTicks_toNat {ts : TimeSpec} (hp : ts.Proper) (h : ts.ticks < 2 ^ 32) : ts.toTicks.toNat = ts.ticks := by
  rw [TimeSpec.Proper] at hp
  rw [TimeSpec.ticks, ticksPerSec] at h
  have hsum : (ts.nsec + 9999999).toNat = ts.nsec.toNat + 9999999 := by
    rw [BitVec.toNat_add, show (9999999 : Word).toNat = 9999999 from rfl]
    omega
  have hsmall : (ts.nsec + 9999999).msb = false := by
    rw [BitVec.msb_eq_false_iff_two_mul_lt, hsum]
    omega
  have hdiv : ((ts.nsec + 9999999).sdiv 10000000).toNat = (ts.nsec.toNat + 9999999) / 10000000 := by
    rw [BitVec.sdiv, hsmall]
    exact (BitVec.toNat_udiv ..).trans (by rw [hsum]; rfl)
  rw [TimeSpec.toTicks, BitVec.toNat_add, hdiv, BitVec.toNat_mul, show (100 : Word).toNat = 100 from rfl, TimeSpec.ticks, ticksPerSec]
  omega

theorem TimeSpec.ticks_eq_zero_iff (ts : TimeSpec) : ts.ticks = 0 ↔ ts.IsZero := by
  rw [TimeSpec.ticks, ticksPerSec, TimeSpec.IsZero, ← BitVec.toNat_inj, ← BitVec.toNat_inj]
  simp only [BitVec.ofNat_eq_ofNat, BitVec.toNat_ofNat, Nat.zero_mod]
  omega

namespace ProcessTable
variable {t t' u : ProcessTable} {l : List ℕ} {p : ℕ} {i : Fin maxTimers} {n : ℕ} {sw : Option Switch} {timerid : Int}

structure KeepsAlarms (l : List ℕ) (t t' : ProcessTable) : Prop where
  ring : InRing t' l
  tick : t'.tick = t.tick
  alarmTime : ∀ p, (t'.procs p).alarmTime = (t.procs p).alarmTime

theorem KeepsAlarms.trans (h : KeepsAlarms l t t') (h' : KeepsAlarms l t' u) : KeepsAlarms l t u :=
  ⟨h'.ring, h'.tick.trans h.tick, fun p => (h'.alarmTime p).trans (h.alarmTime p)⟩

theorem Keeps.alarmTime (h : Keeps t t') (p : ℕ) : (t'.procs p).alarmTime = (t.procs p).alarmTime := by
  have halarm := congrArg Process.alarmTime (h.procs p)
  exact halarm

private theorem signalAll_tick (h : InRing t l) {test : Process → ℕ → Bool} {r : Int} (hs : t.signalAll n test = some (t', r)) :
    t'.tick = t.tick := by
  rw [signalAll, if_neg h.readyQueue_ne, h.ring.fold _ h.stop h.length_le, Option.map_some] at hs
  cases hs
  refine List.foldlRecOn (motive := fun u : ProcessTable × Bool => u.1.tick = t.tick) l _ rfl fun u hu x _ => ?_
  split
  · exact hu
  · exact hu

private theorem signalOne_tick (h : InRing t l) {pid : Word} {r : Int} (hs : t.signalOne n pid = some (t', r)) : t'.tick = t.tick := by
  rw [signalOne, if_neg h.readyQueue_ne, h.ring.find h.stop h.length_le, Option.map_some] at hs
  cases hfind : l.find? fun p => (t.procs p).id == pid <;> rw [hfind] at hs <;> cases hs <;> rfl

private theorem sysKill_keepsAlarms (h : InRing t l) (pid : Word) (signum : Int) :
    ∃ x, t.sysKill pid signum = some x ∧ KeepsAlarms l t x.1 := by
  obtain ⟨t', r, hkill, hs⟩ := sysKill_spec h pid signum
  refine ⟨_, hkill, hs.keeps.inRing h (hs.currentProcess ▸ h.current), ?_, hs.keeps.alarmTime⟩
  rw [sysKill] at hkill
  split at hkill
  · cases hkill
    rfl
  · dsimp only at hkill
    generalize (if pid = 0 then t.current.pgid else pid) = pid' at hkill
    split at hkill
    · exact signalAll_tick h hkill
    · split at hkill
      · exact signalAll_tick h hkill
      · exact signalOne_tick h hkill

theorem scheduleSelect_tick (hs : t.scheduleSelect = some (t', sw)) : t'.tick = t.tick := by
  obtain ⟨best, -, hbest⟩ := Option.map_eq_some_iff.mp hs
  split at hbest
  · cases hbest
    rfl
  · split at hbest
    · cases hbest
      rfl
    · cases hbest
      have hpre : t.preempt.tick = t.tick := by
        rw [preempt]
        split <;> rfl
      exact hpre

private theorem schedule_tick (h : InRing t l) (hs : t.schedule = some (t', sw)) : t'.tick = t.tick := by
  rw [schedule, if_neg (h.addr _ h.current).1] at hs
  split at hs
  · dsimp only at hs
    split at hs
    · obtain ⟨found, -, hs⟩ := Option.bind_eq_some_iff.mp hs
      split at hs
      · have htick := scheduleSelect_tick hs
        exact htick
      · cases hs
        rfl
    · have htick := scheduleSelect_tick hs
      exact htick
  · exact scheduleSelect_tick hs

private theorem timerCallback_counts (h : InRing t l) : ∃ t', t.timerCallback = some t' ∧ InRing t' l ∧ t'.tick = t.tick + 1 ∧
    ∀ p, (t'.procs p).alarmTime = (t.procs p).alarmTime := by
  have h' : InRing { t with tick := t.tick + 1 } l := ⟨h.ring, h.addr, h.current⟩
  obtain ⟨u, hu, hadv, hcur, -⟩ := wakeSleepers_advances h'
  have hring := hadv.keeps.inRing h' (hcur ▸ h.current)
  have hutick : u.tick = t.tick + 1 := by
    rw [wakeSleepers, if_neg h'.readyQueue_ne, h'.ring.fold _ h'.stop h'.length_le] at hu
    cases hu
    refine List.foldlRecOn (motive := fun u : ProcessTable => u.tick = t.tick + 1) l _ rfl fun u hu x _ => ?_
    split
    · exact hu
    · exact hu
  obtain ⟨v, sw, hv, hk, hmem⟩ := schedule_keeps hring
  refine ⟨v, ?_, hk.inRing hring hmem, (schedule_tick hring hv).trans hutick, fun p => ?_⟩
  · rw [timerCallback, hu, Option.bind_some, hv]
    rfl
  · exact (hk.alarmTime p).trans (hadv.keeps.alarmTime p)

private theorem checkAlarm_self (t : ProcessTable) (p : ℕ) :
    ((t.checkAlarm p).procs p).alarmTime = (if t.AlarmDue p then 0 else (t.procs p).alarmTime) ∧
      ((t.checkAlarm p).procs p).pendingSignals =
        if t.AlarmDue p then (t.procs p).pendingSignals ||| BitVec.twoPow 64 sigAlrm else (t.procs p).pendingSignals := by
  rw [checkAlarm]
  by_cases hdue : t.AlarmDue p
  · rw [if_pos hdue, if_pos hdue, if_pos hdue, set_self]
    exact ⟨rfl, rfl⟩
  · rw [if_neg hdue, if_neg hdue, if_neg hdue]
    exact ⟨rfl, rfl⟩

private theorem checkAlarm_other {x : ℕ} (t : ProcessTable) (h : x ≠ p) : (t.checkAlarm p).procs x = t.procs x := by
  rw [checkAlarm]
  split
  · exact set_other _ _ _ h
  · rfl

private theorem checkAlarm_congr (hrec : t'.procs p = t.procs p) (htick : t'.tick = t.tick) :
    (t'.checkAlarm p).procs p = (t.checkAlarm p).procs p := by
  have hdue : t'.AlarmDue p ↔ t.AlarmDue p := by rw [AlarmDue, AlarmDue, hrec, htick]
  rw [checkAlarm, checkAlarm]
  by_cases h : t.AlarmDue p
  · rw [if_pos h, if_pos (hdue.mpr h), set_self, set_self, hrec]
  · rw [if_neg h, if_neg fun h' => h (hdue.mp h'), hrec]

private theorem checkAlarm_frame (t : ProcessTable) (p : ℕ) : (t.checkAlarm p).tick = t.tick ∧
    (t.checkAlarm p).currentProcess = t.currentProcess ∧ (t.checkAlarm p).readyQueue = t.readyQueue ∧
      (t.checkAlarm p).next = t.next := by
  rw [checkAlarm]
  split
  · exact ⟨rfl, rfl, rfl, funext (set_field t p _ Process.next (by rfl))⟩
  · exact ⟨rfl, rfl, rfl, rfl⟩

private theorem checkAlarms_foldl (hd : l.Nodup) :
    let t' := l.foldl checkAlarm t
    (t'.tick = t.tick ∧ t'.currentProcess = t.currentProcess ∧ t'.readyQueue = t.readyQueue ∧ t'.next = t.next) ∧
      ∀ p, t'.procs p = if p ∈ l then (t.checkAlarm p).procs p else t.procs p := by
  induction l generalizing t with
  | nil => exact ⟨⟨rfl, rfl, rfl, rfl⟩, fun _ => rfl⟩
  | cons x l ih =>
    obtain ⟨hx, hd⟩ := List.nodup_cons.mp hd
    obtain ⟨htick, hcur, hready, hnext⟩ := checkAlarm_frame t x
    obtain ⟨⟨htick', hcur', hready', hnext'⟩, hprocs⟩ := ih (t := t.checkAlarm x) hd
    refine ⟨⟨htick'.trans htick, hcur'.trans hcur, hready'.trans hready, hnext'.trans hnext⟩, fun p => ?_⟩
    refine (hprocs p).trans ?_
    by_cases hpx : p = x
    · subst hpx
      rw [if_neg hx, if_pos List.mem_cons_self]
    · have hrec := checkAlarm_other t hpx
      rw [checkAlarm_congr hrec htick, hrec]
      simp only [List.mem_cons, hpx, false_or]

private theorem checkAlarms_raises (h : InRing t l) : ∃ t', t.checkAlarms = some t' ∧ InRing t' l ∧ t'.tick = t.tick ∧
    ∀ p ∈ l, (t'.procs p).alarmTime = (if t.AlarmDue p then 0 else (t.procs p).alarmTime) ∧
      (t'.procs p).pendingSignals =
        if t.AlarmDue p then (t.procs p).pendingSignals ||| BitVec.twoPow 64 sigAlrm else (t.procs p).pendingSignals := by
  obtain ⟨⟨htick, hcur, hready, hnext⟩, hprocs⟩ := checkAlarms_foldl (t := t) h.ring.nodup
  rw [checkAlarms, if_neg h.readyQueue_ne, h.ring.fold _ h.stop h.length_le]
  refine ⟨_, rfl, ⟨?_, h.addr, hcur ▸ h.current⟩, htick, fun p hp => ?_⟩
  · rw [hnext, hready]
    exact h.ring
  · rw [hprocs p, if_pos hp]
    exact checkAlarm_self t p

end ProcessTable

namespace Timers
variable {s : Timers} {l : List ℕ} {is : List (Fin maxTimers)}

private theorem checkTimer_spec (h : s.table.InRing l) (i : Fin maxTimers) :
    ∃ s', s.checkTimer i = some s' ∧ ProcessTable.KeepsAlarms l s.table s'.table ∧
      s'.timers = Function.update s.timers i
        (if (s.timers i).Fires s.table.tick then (s.timers i).rearm s.table.tick else s.timers i) ∧
      s'.kills = s.kills ++ if (s.timers i).Fires s.table.tick then [((s.timers i).pid, (s.timers i).signo)] else [] := by
  rw [checkTimer]
  by_cases hfires : (s.timers i).Fires s.table.tick
  · obtain ⟨x, hkill, hkeeps⟩ := ProcessTable.sysKill_keepsAlarms h (s.timers i).pid (s.timers i).signo
    rw [if_pos hfires, if_pos hfires, if_pos hfires, hkill]
    exact ⟨_, rfl, hkeeps, rfl, rfl⟩
  · rw [if_neg hfires, if_neg hfires, if_neg hfires, Function.update_eq_self, List.append_nil]
    exact ⟨s, rfl, ⟨h, rfl, fun _ => rfl⟩, rfl, rfl⟩

private theorem checkTimers_foldlM (h : s.table.InRing l) (hd : is.Nodup) :
    ∃ s', is.foldlM checkTimer s = some s' ∧ ProcessTable.KeepsAlarms l s.table s'.table ∧
      (∀ j, s'.timers j =
        if j ∈ is ∧ (s.timers j).Fires s.table.tick then (s.timers j).rearm s.table.tick else s.timers j) ∧
      s'.kills = s.kills ++
        (is.filter fun i => (s.timers i).Fires s.table.tick).map fun i => ((s.timers i).pid, (s.timers i).signo) := by
  induction is generalizing s with
  | nil => exact ⟨s, rfl, ⟨h, rfl, fun _ => rfl⟩, fun _ => (if_neg fun hj => List.not_mem_nil hj.1).symm, (List.append_nil _).symm⟩
  | cons i is ih =>
    obtain ⟨hi, hd⟩ := List.nodup_cons.mp hd
    obtain ⟨u, hu, hkeeps, htimers, hkills⟩ := checkTimer_spec h i
    obtain ⟨s', hs', hkeeps', htimers', hkills'⟩ := ih (s := u) hkeeps.ring hd
    have hother : ∀ j, j ≠ i → u.timers j = s.timers j := fun j hj => by rw [htimers, Function.update_of_ne hj]
    refine ⟨s', ?_, hkeeps.trans hkeeps', fun j => ?_, ?_⟩
    · rw [List.foldlM_cons, hu]
      exact hs'
    · rw [htimers' j, hkeeps.tick]
      by_cases hj : j = i
      · subst hj
        rw [if_neg fun hmem => hi hmem.1, htimers, Function.update_self]
        simp only [List.mem_cons_self, true_and]
      · rw [hother j hj]
        simp only [List.mem_cons, hj, false_or]
    · have hsame : ∀ j ∈ is, u.timers j = s.timers j := fun j hj => hother j fun heq => hi (heq ▸ hj)
      have hfilter : (is.filter fun j => (u.timers j).Fires u.table.tick) = is.filter fun j => (s.timers j).Fires s.table.tick :=
        List.filter_congr fun j hj => by rw [hsame j hj, hkeeps.tick]
      have hmap : ∀ j ∈ is.filter fun j => (s.timers j).Fires s.table.tick,
          ((u.timers j).pid, (u.timers j).signo) = ((s.timers j).pid, (s.timers j).signo) :=
        fun j hj => by rw [hsame j (List.mem_filter.mp hj).1]
      rw [hkills', hkills, hfilter, List.map_congr_left hmap, List.append_assoc]
      congr 1
      rw [List.filter_cons]
      by_cases hfires : (s.timers i).Fires s.table.tick
      · rw [if_pos hfires, if_pos (decide_eq_true hfires)]
        rfl
      · rw [if_neg hfires, if_neg (by rw [decide_eq_true_eq]; exact hfires)]
        rfl

private theorem slot_some (h : s.slot timerid = some i) : (s.timers i).inUse = true := by
  have hfound := List.find?_some h
  exact (Bool.and_eq_true_iff.mp hfound).2

end Timers

def Meets (tick deadline : Word) (r : Request) : Prop :=
  deadline ≠ 0 ∧ (deadline.toNat + r.elapsed = tick.toNat + r.ticks ∨ r.ticks = 0 ∧ deadline ≤ tick)

def Follows (tick deadline : Word) (every : ℕ) : Option Request → Prop
  | none => deadline = 0
  | some r => Meets tick deadline r ∧ r.every = every

section
variable {tick deadline x : Word} {every : ℕ} {r : Option Request} {q : Request}

theorem Meets.le_iff (h : Meets tick deadline q) : deadline ≤ tick ↔ q.Due := by
  rw [BitVec.le_def, Request.Due]
  rcases h.2 with heq | ⟨hzero, hle⟩
  · omega
  · rw [BitVec.le_def] at hle
    omega

theorem Meets.counted (h : Meets tick deadline q) (hn : tick.toNat + 1 < 2 ^ 32) : Meets (tick + 1) deadline q.tick := by
  have hnext : (tick + 1).toNat = tick.toNat + 1 := by
    rw [BitVec.toNat_add]
    exact Nat.mod_eq_of_lt hn
  refine ⟨h.1, ?_⟩
  rw [hnext, BitVec.le_def, hnext, Request.tick]
  rcases h.2 with heq | ⟨hzero, hle⟩
  · exact .inl (by dsimp only; omega)
  · rw [BitVec.le_def] at hle
    exact .inr ⟨hzero, by omega⟩

theorem Meets.start (hx : x.toNat = q.ticks) (hpos : 0 < q.ticks) (he : q.elapsed = 0) (hn : tick.toNat + q.ticks < 2 ^ 32) :
    Meets tick (tick + x) q := by
  have hsum : (tick + x).toNat = tick.toNat + q.ticks := by
    rw [BitVec.toNat_add, hx]
    exact Nat.mod_eq_of_lt hn
  refine ⟨fun hzero => ?_, .inl (by omega)⟩
  rw [hzero] at hsum
  have hz : (0 : Word).toNat = 0 := rfl
  omega

theorem Follows.due_iff (h : Follows tick deadline every r) : IsDue r ↔ deadline ≠ 0 ∧ deadline ≤ tick := by
  cases r with
  | none =>
    refine iff_of_false ?_ fun hd => hd.1 h
    rintro ⟨q, hq, -⟩
    cases hq
  | some q =>
    rw [h.1.le_iff]
    constructor
    · rintro ⟨q', hq', hdue⟩
      cases hq'
      exact ⟨h.1.1, hdue⟩
    · rintro ⟨-, hdue⟩
      exact ⟨q, rfl, hdue⟩

theorem Follows.counted (h : Follows tick deadline every r) (hn : tick.toNat + 1 < 2 ^ 32 ∨ deadline = 0) :
    Follows (tick + 1) deadline every (r.map Request.tick) := by
  cases r with
  | none => exact h
  | some q => exact ⟨h.1.counted (hn.resolve_right h.1.1), h.2⟩

theorem Follows.checked (h : Follows tick deadline every r)
    (hx : deadline ≠ 0 ∧ deadline ≤ tick → every ≠ 0 → x.toNat = every ∧ tick.toNat + every < 2 ^ 32) :
    Follows tick (if deadline ≠ 0 ∧ deadline ≤ tick then if every = 0 then 0 else tick + x else deadline) every
      (r.bind Request.checked) := by
  cases r with
  | none =>
    rw [if_neg fun hd => hd.1 h]
    exact h
  | some q =>
    obtain ⟨hmeets, hevery⟩ := h
    rw [Option.bind_some, Request.checked]
    by_cases hdue : q.Due
    · have hle := hmeets.le_iff.mpr hdue
      rw [if_pos ⟨hmeets.1, hle⟩, if_pos hdue, hevery]
      by_cases hzero : every = 0
      · rw [if_pos hzero, if_pos hzero]
        rfl
      · rw [if_neg hzero, if_neg hzero]
        obtain ⟨hxe, hsum⟩ := hx ⟨hmeets.1, hle⟩ hzero
        exact ⟨.start hxe (Nat.pos_of_ne_zero hzero) rfl hsum, rfl⟩
    · rw [if_neg fun hd => hdue (hmeets.le_iff.mp hd.2), if_neg hdue]
      exact ⟨hmeets, hevery⟩

end

def KernelTimer.deadline (k : KernelTimer) : Word := if k.inUse then k.nextFire else 0

theorem KernelTimer.fires_iff (k : KernelTimer) (tick : Word) : k.Fires tick ↔ k.deadline ≠ 0 ∧ k.deadline ≤ tick := by
  rw [Fires, deadline]
  cases k.inUse with
  | true => exact and_iff_right rfl
  | false => exact iff_of_false nofun fun h => h.1 rfl

namespace TimerRun
variable {s : TimerRun} {e : TimerEvent} {l : List ℕ}

structure Inv (l : List ℕ) (s : TimerRun) : Prop where
  ring : s.table.InRing l
  alarms : ∀ p ∈ l, Follows s.table.tick (s.table.procs p).alarmTime 0 (s.alarmAsked p)
  timers : ∀ i, Follows s.table.tick (s.timers i).deadline (s.timers i).value.interval.ticks (s.timerAsked i)

private theorem alarmDue_iff (t : ProcessTable) (p : ℕ) :
    t.AlarmDue p ↔ (t.procs p).alarmTime ≠ 0 ∧ (t.procs p).alarmTime ≤ t.tick := by
  rw [ProcessTable.AlarmDue]
  refine and_congr_left fun _ => ?_
  rw [BitVec.lt_def, ← BitVec.toNat_inj.ne]
  have hz : (0 : Word).toNat = 0 := rfl
  omega

theorem Inv.raises (h : s.Inv l) : RaisesDue l s e := by
  cases e with
  | checkAlarms =>
    obtain ⟨t, ht, -, -, hprocs⟩ := ProcessTable.checkAlarms_raises h.ring
    refine ⟨t, ht, fun p hp => ((hprocs p hp).2).trans ?_⟩
    have hdue : s.table.AlarmDue p ↔ IsDue (s.alarmAsked p) := by rw [alarmDue_iff, (h.alarms p hp).due_iff]
    exact if_congr hdue rfl rfl
  | checkTimers =>
    obtain ⟨t, ht, -, -, hkills⟩ := Timers.checkTimers_foldlM h.ring (List.nodup_finRange maxTimers)
    refine ⟨t, ht, hkills.trans ?_⟩
    have hsame : (fun i => decide ((s.timers i).Fires s.table.tick)) = fun i => decide (IsDue (s.timerAsked i)) := by
      funext i
      exact decide_eq_decide.mpr (by rw [KernelTimer.fires_iff, (h.timers i).due_iff])
    rw [hsame]
  | _ => trivial

theorem Inv.interrupt (h : s.Inv l) (hc : Unwrapped l s .interrupt) : (s.exec .interrupt).Inv l := by
  obtain ⟨t, ht, hring, htick, halarm⟩ := ProcessTable.timerCallback_counts h.ring
  rw [exec, ht]
  refine ⟨hring, fun p hp => ?_, fun i => ?_⟩
  · dsimp only
    rw [htick, halarm p]
    exact (h.alarms p hp).counted (hc.imp_right fun hnone => hnone.1 p hp)
  · dsimp only
    rw [htick]
    refine (h.timers i).counted (hc.imp_right fun hnone => ?_)
    rw [KernelTimer.deadline]
    split
    · next huse => exact hnone.2 i huse
    · rfl

theorem Inv.checkAlarms (h : s.Inv l) : (s.exec .checkAlarms).Inv l := by
  obtain ⟨t, ht, hring, htick, hprocs⟩ := ProcessTable.checkAlarms_raises h.ring
  rw [exec, ht]
  refine ⟨hring, fun p hp => ?_, fun i => ?_⟩
  · have hnext := (h.alarms p hp).checked (x := 0) fun _ hzero => absurd rfl hzero
    rw [htick, (hprocs p hp).1, if_congr (alarmDue_iff s.table p) rfl rfl]
    exact hnext
  · dsimp only
    rw [htick]
    exact h.timers i

theorem Inv.checkTimers (h : s.Inv l) (hc : Unwrapped l s .checkTimers) : (s.exec .checkTimers).Inv l := by
  obtain ⟨t, ht, hkeeps, htimers, -⟩ := Timers.checkTimers_foldlM h.ring (List.nodup_finRange maxTimers)
  rw [exec, show s.toTimers.checkTimers = some t from ht]
  refine ⟨hkeeps.ring, fun p hp => ?_, fun i => ?_⟩
  · dsimp only
    rw [hkeeps.tick, hkeeps.alarmTime]
    exact h.alarms p hp
  · have hvalue : (t.timers i).value = (s.timers i).value := by
      rw [htimers i]
      split <;> rfl
    have hdeadline : (t.timers i).deadline =
        if (s.timers i).deadline ≠ 0 ∧ (s.timers i).deadline ≤ s.table.tick then
          if (s.timers i).value.interval.ticks = 0 then 0 else s.table.tick + (s.timers i).value.interval.toTicks
        else (s.timers i).deadline := by
      rw [htimers i]
      by_cases hfires : (s.timers i).Fires s.table.tick
      · rw [if_pos ⟨List.mem_finRange i, hfires⟩, if_pos ((KernelTimer.fires_iff ..).mp hfires), KernelTimer.deadline,
          KernelTimer.rearm, if_pos hfires.1]
        exact if_congr (TimeSpec.ticks_eq_zero_iff _).symm rfl rfl
      · rw [if_neg fun hmem => hfires hmem.2, if_neg fun hdue => hfires ((KernelTimer.fires_iff ..).mpr hdue)]
    rw [hkeeps.tick, hvalue, hdeadline]
    refine (h.timers i).checked fun hdue hevery => ?_
    obtain ⟨hproper, hsum⟩ := hc i ((KernelTimer.fires_iff ..).mpr hdue) fun hzero => hevery ((TimeSpec.ticks_eq_zero_iff _).mpr hzero)
    exact ⟨TimeSpec.toTicks_toNat hproper (by omega), hsum⟩

theorem Inv.sysAlarm (h : s.Inv l) {seconds : Word} (hc : Unwrapped l s (.sysAlarm seconds)) :
    (s.exec (.sysAlarm seconds)).Inv l := by
  have hset : (s.table.sysAlarm seconds).2 = s.table.setCurrent { s.table.current with
      alarmTime := if seconds = 0 then 0 else s.table.tick + seconds * 100 } := by
    rw [ProcessTable.sysAlarm, if_neg (h.ring.addr _ h.ring.current).1]
  have hnext : (s.table.sysAlarm seconds).2.next = s.table.next := by
    rw [hset]
    exact funext (ProcessTable.set_field s.table _ _ Process.next (by rfl))
  have hready : (s.table.sysAlarm seconds).2.readyQueue = s.table.readyQueue := by rw [hset]; rfl
  have hcur : (s.table.sysAlarm seconds).2.currentProcess = s.table.currentProcess := by rw [hset]; rfl
  have htick : (s.table.sysAlarm seconds).2.tick = s.table.tick := by rw [hset]; rfl
  refine ⟨⟨?_, h.ring.addr, ?_⟩, fun p hp => ?_, fun i => ?_⟩
  · rw [exec]
    dsimp only
    rw [hnext, hready]
    exact h.ring.ring
  · rw [exec]
    dsimp only
    rw [hcur]
    exact h.ring.current
  · rw [exec]
    dsimp only
    rw [htick]
    by_cases hpc : p = s.table.currentProcess
    · subst hpc
      rw [Function.update_self, hset, ProcessTable.setCurrent, ProcessTable.set_self]
      dsimp only
      by_cases hzero : seconds = 0
      · rw [if_pos hzero, if_pos hzero]
        rfl
      · rw [if_neg hzero, if_neg hzero]
        have hpos : 0 < seconds.toNat := Nat.pos_of_ne_zero fun h0 => hzero (BitVec.eq_of_toNat_eq h0)
        rw [Unwrapped, ticksPerSec] at hc
        have hticks : (seconds * 100).toNat = seconds.toNat * 100 := by
          rw [BitVec.toNat_mul, show (100 : Word).toNat = 100 from rfl]
          omega
        refine ⟨.start hticks ?_ rfl hc, rfl⟩
        dsimp only [ticksPerSec]
        omega
    · rw [Function.update_of_ne hpc, hset, ProcessTable.setCurrent_other _ _ hpc]
      exact h.alarms p hp
  · rw [exec]
    dsimp only
    rw [htick]
    exact h.timers i

theorem Inv.setTimer (h : s.Inv l) {k : KernelTimer} {r : Option Request} {f : Fin maxTimers → Option Request}
    (hf : ∀ j, f j = if j = i then r else s.timerAsked j) (hk : Follows s.table.tick k.deadline k.value.interval.ticks r) :
    Inv l { s with toTimers := s.toTimers.setTimer i k, timerAsked := f } := by
  refine ⟨h.ring, h.alarms, fun j => ?_⟩
  dsimp only [Timers.setTimer]
  rw [hf j]
  by_cases hj : j = i
  · subst hj
    rw [Function.update_self, if_pos rfl]
    exact hk
  · rw [Function.update_of_ne hj, if_neg hj]
    exact h.timers j

theorem Inv.timerCreate (h : s.Inv l) (clockid : Int) : (s.exec (.timerCreate clockid)).Inv l := by
  rw [exec, Timers.timerCreate]
  split
  · exact ⟨h.ring, h.alarms, h.timers⟩
  · split
    · next i _ =>
      refine h.setTimer (r := none) (fun j => ?_) rfl
      exact if_congr (Option.some_inj.trans eq_comm) rfl rfl
    · exact ⟨h.ring, h.alarms, h.timers⟩

theorem Inv.timerDelete (h : s.Inv l) (timerid : Int) : (s.exec (.timerDelete timerid)).Inv l := by
  rw [exec, Timers.timerDelete]
  cases hslot : s.slot timerid with
  | none => exact ⟨h.ring, h.alarms, h.timers⟩
  | some i =>
    refine h.setTimer (r := none) (fun j => ?_) rfl
    exact if_congr (Option.some_inj.trans eq_comm) rfl rfl

theorem Inv.timerSettime (h : s.Inv l) {flags : Word} {newValue : Option ITimerSpec}
    (hc : Unwrapped l s (.timerSettime timerid flags newValue)) : (s.exec (.timerSettime timerid flags newValue)).Inv l := by
  rw [exec, Timers.timerSettime.eq_def]
  cases hslot : s.slot timerid with
  | none =>
    cases newValue <;> exact ⟨h.ring, h.alarms, h.timers⟩
  | some i =>
    cases newValue with
    | none => exact ⟨h.ring, h.alarms, h.timers⟩
    | some v =>
      refine h.setTimer (fun j => if_congr (Option.some_inj.trans eq_comm) rfl rfl) ?_
      rw [KernelTimer.deadline, if_pos (Timers.slot_some hslot)]
      dsimp only
      by_cases hzero : v.value.IsZero
      · rw [if_pos hzero, if_pos hzero]
        rfl
      · rw [if_neg hzero, if_neg hzero]
        obtain ⟨hproper, hsum⟩ := hc (by rw [hslot]; exact nofun) v rfl hzero
        have hpos : 0 < v.value.ticks := Nat.pos_of_ne_zero fun h0 => hzero ((TimeSpec.ticks_eq_zero_iff _).mp h0)
        have hticks := TimeSpec.toTicks_toNat hproper (by omega)
        refine ⟨?_, rfl⟩
        rw [asked]
        by_cases habs : flags &&& timerAbstime ≠ 0
        · rw [if_pos habs, if_pos habs]
          refine ⟨fun h0 => ?_, ?_⟩
          · rw [h0] at hticks
            have hz : (0 : Word).toNat = 0 := rfl
            omega
          · rw [BitVec.le_def]
            dsimp only
            omega
        · rw [if_neg habs, if_neg habs]
          rw [if_neg habs] at hsum
          exact .start hticks hpos rfl hsum

theorem Inv.exec (h : s.Inv l) (hc : Unwrapped l s e) : (s.exec e).Inv l := by
  cases e with
  | interrupt => exact h.interrupt hc
  | checkAlarms => exact h.checkAlarms
  | checkTimers => exact h.checkTimers hc
  | sysAlarm => exact h.sysAlarm hc
  | timerCreate => exact h.timerCreate _
  | timerDelete => exact h.timerDelete _
  | timerSettime => exact h.timerSettime hc

/-- Nothing is armed; the counter has any value. -/
structure Idle (l : List ℕ) (s : TimerRun) : Prop where
  ring : s.table.InRing l
  alarms : ∀ p ∈ l, (s.table.procs p).alarmTime = 0 ∧ s.alarmAsked p = none
  timers : ∀ i, (s.timers i).inUse = false ∧ s.timerAsked i = none

theorem Idle.inv (h : s.Idle l) : s.Inv l := by
  refine ⟨h.ring, fun p hp => ?_, fun i => ?_⟩
  · rw [(h.alarms p hp).2]
    exact (h.alarms p hp).1
  · rw [(h.timers i).2, KernelTimer.deadline, (h.timers i).1]
    rfl

end TimerRun

/-- From any value of the counter on, where neither a deadline nor the counter wraps, each check raises those signals that
are due. -/
theorem timer_runs {s : TimerRun} {l : List ℕ} (h : s.Idle l) (es : List TimerEvent)
    (hc : Along TimerRun.exec (TimerRun.Unwrapped l) s es) : Along TimerRun.exec (TimerRun.RaisesDue l) s es := by
  have hkeep : ∀ s e, TimerRun.Inv l s → TimerRun.Unwrapped l s e → TimerRun.Inv l (s.exec e) := fun _ _ hs hc => hs.exec hc
  exact Along.of_invariant hkeep (fun s e hs _ => hs.raises) h.inv hc

/-- The first process alone, without alarms and timers, at a value of the counter. -/
def quiet (tick : Word) : TimerRun where
  table :=
    { procs := fun _ => { Process.zero with id := 1, next := 0xC1001000 }
      files := fun _ => ⟨0, 0, 0, 0⟩
      currentProcess := 0xC1001000
      readyQueue := 0xC1001000
      nextPid := 2
      tick }
  timers := fun _ => ⟨false, 0, 0, 0, ⟨⟨0, 0⟩, ⟨0, 0⟩⟩, 0⟩
  kills := []
  alarmAsked := fun _ => none
  timerAsked := fun _ => none

private theorem quiet_idle (tick : Word) : (quiet tick).Idle [0xC1001000] :=
  ⟨⟨⟨nofun, List.nodup_singleton _, rfl, id, rfl⟩, by decide, List.mem_singleton_self _⟩, fun _ _ => ⟨rfl, rfl⟩,
    fun _ => ⟨rfl, rfl⟩⟩

theorem alarm_after_one_second : Along TimerRun.exec (TimerRun.RaisesDue [0xC1001000]) (quiet 4294967000)
    [.sysAlarm 1, .interrupt, .checkAlarms, .timerCreate clockMonotonic, .timerSettime 0 0 (some ⟨⟨0, 20000000⟩, ⟨0, 1⟩⟩),
      .interrupt, .checkTimers, .interrupt, .checkTimers] :=
  timer_runs (quiet_idle _) _ (by decide +kernel)

theorem alarm_at_once : ¬ ∀ (tick : Word) (es : List TimerEvent),
    Along TimerRun.exec (TimerRun.RaisesDue [0xC1001000]) (quiet tick) es := by
  intro h
  obtain ⟨-, ⟨t, ht, hprocs⟩, -⟩ := h 4294967290 [.sysAlarm 1, .checkAlarms]
  have hraised : (((quiet 4294967290).exec (.sysAlarm 1)).table.checkAlarms.map fun t => (t.procs 0xC1001000).pendingSignals) =
      some (BitVec.twoPow 64 sigAlrm) := by decide +kernel
  have hnone := hprocs 0xC1001000 (List.mem_singleton_self _)
  rw [ht] at hraised
  have hpending : (t.procs 0xC1001000).pendingSignals = BitVec.twoPow 64 sigAlrm := Option.some.inj hraised
  rw [hpending] at hnone
  exact absurd hnone (by decide +kernel)

end RetroOs.Kernel
