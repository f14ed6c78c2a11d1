import RetroOs.Kernel.Scheduling

/-! The timer interrupt, and `schedule` as it runs where interrupts are enabled: step by step, up to the switch. -/
namespace RetroOs.Kernel
open Lib List Option

/-- It may run. -/
def ProcessState.Awake (s : ProcessState) : Prop := s = .ready ∨ s = .running

instance (s : ProcessState) : Decidable s.Awake := inferInstanceAs (Decidable (_ ∨ _))

/-- Where a process is in a call of `schedule`: the two loops at a process, the second with the best one so far. -/
inductive SchedAt where
  | enter
  | higher (p : ℕ)
  | choose (best p : ℕ)
  | commit (best : ℕ)
  deriving DecidableEq

/-- The processes that it has found are in the ring. -/
def SchedAt.Ok (l : List ℕ) : SchedAt → Prop
  | .choose best p => (best = 0 ∨ best ∈ l) ∧ p ∈ l
  | .commit best => best = 0 ∨ best ∈ l
  | _ => True

namespace ProcessTable

/-- The loop of `timer_callback` over the ring. -/
def wakeSleepers (t : ProcessTable) : Option ProcessTable :=
  if t.readyQueue = 0 then some t
  else
    ringFold t.next (fun p => p == 0 || p == t.readyQueue)
      (fun t p => if (t.procs p).state = .sleeping ∧ (t.procs p).sleepUntil ≤ t.tick then t.setState p .ready else t)
      ringFuel t.readyQueue t

def timerCallback (t : ProcessTable) : Option ProcessTable :=
  { t with tick := t.tick + 1 }.wakeSleepers.bind fun t => t.schedule.map Prod.fst

def schedStep (t : ProcessTable) : SchedAt → ProcessTable × Option SchedAt
  | .enter =>
    if t.currentProcess = 0 then (t, none)
    else if t.current.state = .running then
      let t := t.setTime (t.current.timeRemaining - 1)
      (t, some (if 0 < t.current.timeRemaining then .higher t.current.next else .choose 0 t.current.next))
    else (t, some (.choose 0 t.current.next))
  | .higher p =>
    if p = t.currentProcess then (t, none)
    else if (t.procs p).state = .ready ∧ (t.procs p).priority < t.current.priority then (t, some (.choose 0 t.current.next))
    else (t, some (.higher (t.next p)))
  | .choose best p =>
    let best := leastStep 0 t.runnable t.priority best p
    (t, some (if t.next p = t.next t.currentProcess then .commit best else .choose best (t.next p)))
  | .commit best =>
    if best = 0 then (t, none)
    else if best = t.currentProcess ∧ t.current.state = .running then (t.setTime t.current.timeSlice, none)
    else (t.switchTo best, none)

/-- Processes are woken and chosen, and none is stopped. -/
structure Advances (t t' : ProcessTable) : Prop where
  keeps : Keeps t t'
  state : ∀ p, (t'.procs p).state = (t.procs p).state ∨ (t'.procs p).state.Awake

variable {t t' u : ProcessTable} {l : List ℕ} {p best : ℕ}

theorem Advances.refl : Advances t t := ⟨.refl, fun _ => .inl rfl⟩

theorem Advances.trans (h : Advances t t') (h' : Advances t' u) : Advances t u := by
  refine ⟨h.keeps.trans h'.keeps, fun p => ?_⟩
  rcases h'.state p with hsame | hawake
  · rw [hsame]
    exact h.state p
  · exact .inr hawake

theorem Advances.awake (h : Advances t t') (hp : (t.procs p).state.Awake) : (t'.procs p).state.Awake := by
  rcases h.state p with hsame | hawake
  · rwa [hsame]
  · exact hawake

theorem Advances.slept (h : Advances t t') (hp : (t'.procs p).state = .waiting) : (t.procs p).state = .waiting := by
  rcases h.state p with hsame | hawake
  · exact hsame.symm.trans hp
  · rw [hp] at hawake
    rcases hawake with h | h <;> cases h

theorem setTime_advances (t : ProcessTable) (r : Int) : Advances t (t.setTime r) :=
  ⟨setTime_keeps t r, fun p => .inl (setTime_state t r p)⟩

private theorem switchTo_advances (t : ProcessTable) (best : ℕ) : Advances t (t.switchTo best) := by
  refine ⟨switchTo_keeps t best, fun p => ?_⟩
  rw [switchTo_state]
  split
  · exact .inr (.inr rfl)
  · split
    · exact .inr (.inl rfl)
    · exact .inl rfl

theorem wake_advances (t : ProcessTable) (p : ℕ) : Advances t (t.setState p .ready) := by
  refine ⟨setState_keeps t p _, fun q => ?_⟩
  by_cases hq : q = p
  · subst hq
    rw [setState_state]
    exact .inr (.inl rfl)
  · rw [setState_other _ _ _ hq]
    exact .inl rfl

private theorem switchTo_running (t : ProcessTable) (best : ℕ) : (t.switchTo best).current.state = .running := by
  have hstate := switchTo_state t best best
  rw [if_pos rfl] at hstate
  exact hstate

theorem InRing.next_mem (h : InRing t l) (hp : p ∈ l) : t.next p ∈ l := by
  obtain ⟨xs, ys, rfl⟩ := append_of_mem hp
  have hmem := h.ring.after.head_mem
  simp only [mem_append, mem_cons, not_mem_nil, or_false] at hmem ⊢
  tauto

theorem wakeSleepers_advances (h : InRing t l) : ∃ t', t.wakeSleepers = some t' ∧ Advances t t' ∧ t'.currentProcess = t.currentProcess ∧
    ∀ p, (t.procs p).state ≠ .sleeping → (t'.procs p).state = (t.procs p).state := by
  rw [wakeSleepers, if_neg h.readyQueue_ne, h.ring.fold _ h.stop h.length_le]
  refine ⟨_, rfl, ?_⟩
  refine foldlRecOn (motive := fun u => Advances t u ∧ u.currentProcess = t.currentProcess ∧
    ∀ p, (t.procs p).state ≠ .sleeping → (u.procs p).state = (t.procs p).state) l _ ⟨.refl, rfl, fun _ _ => rfl⟩ fun u hu x _ => ?_
  split
  · next hx =>
    refine ⟨hu.1.trans (wake_advances u x), hu.2.1, fun p hp => ?_⟩
    have hne : p ≠ x := by
      rintro rfl
      exact hp ((hu.2.2 p hp).symm.trans hx.1)
    rw [setState_other _ _ _ hne]
    exact hu.2.2 p hp
  · exact hu

private theorem scheduleSelect_advances (h : InRing t l) : ∃ t' sw, t.scheduleSelect = some (t', sw) ∧ Advances t t' ∧ t'.currentProcess ∈ l ∧
    (t'.current.state = .running ∨ t' = t) := by
  obtain ⟨xs, ys, rfl⟩ := append_of_mem h.current
  rcases scheduleSelect_spec h with ⟨-, hs⟩ | ⟨best, hb, hs⟩
  · exact ⟨t, none, hs, .refl, h.current, .inr rfl⟩
  · split at hs
    · next hsame => exact ⟨_, _, hs, setTime_advances t _, h.current, .inl ((setTime_state t _ _).trans hsame.2)⟩
    · exact ⟨_, _, hs, switchTo_advances t best, (h.order.2 best).mp hb.cand.1, .inl (switchTo_running t best)⟩

private theorem schedule_advances (h : InRing t l) : ∃ t' sw, t.schedule = some (t', sw) ∧ Advances t t' ∧ t'.currentProcess ∈ l ∧
    (t'.current.state = .running ∨ t' = t) := by
  rw [schedule, if_neg (h.addr _ h.current).1]
  split
  · next hrun =>
    have hadv := setTime_advances t (t.current.timeRemaining - 1)
    have hring := hadv.keeps.inRing h h.current
    have hthen : (t.setTime (t.current.timeRemaining - 1)).current.state = .running := (setTime_state t _ _).trans hrun
    obtain ⟨t', sw, hs, hadv', hcur, hcases⟩ := scheduleSelect_advances hring
    have hrun' : t'.current.state = .running := by
      rcases hcases with hrun' | rfl
      · exact hrun'
      · exact hthen
    dsimp only
    split
    · obtain ⟨xs, ys, hl⟩ := append_of_mem hring.current
      obtain ⟨b, hb, -⟩ := foundHigher_spec (hl ▸ hring)
      rw [hb, bind_some]
      split
      · exact ⟨t', sw, hs, hadv.trans hadv', hcur, .inl hrun'⟩
      · exact ⟨_, none, rfl, hadv, h.current, .inl hthen⟩
    · exact ⟨t', sw, hs, hadv.trans hadv', hcur, .inl hrun'⟩
  · exact scheduleSelect_advances h

/-- What the timer interrupt, and each step of a call of `schedule`, does: a process runs after it, or the current one goes on. -/
def GoesOn (l : List ℕ) (t t' : ProcessTable) : Prop :=
  Advances t t' ∧ t'.currentProcess ∈ l ∧ (t'.current.state = .running ∨
    t'.currentProcess = t.currentProcess ∧ (t.current.state ≠ .sleeping → t'.current.state = t.current.state))

theorem timerCallback_goesOn (h : InRing t l) : ∃ t', t.timerCallback = some t' ∧ GoesOn l t t' := by
  have h' : InRing { t with tick := t.tick + 1 } l := ⟨h.ring, h.addr, h.current⟩
  obtain ⟨u, hu, hadv, hcur, hsame⟩ := wakeSleepers_advances h'
  have hring := hadv.keeps.inRing h' (hcur ▸ h.current)
  obtain ⟨t', sw, ht, hadv', hmem, hcases⟩ := schedule_advances hring
  have hticked : Advances t { t with tick := t.tick + 1 } := ⟨⟨fun _ => rfl, rfl⟩, fun _ => .inl rfl⟩
  refine ⟨t', ?_, hticked.trans (hadv.trans hadv'), hmem, ?_⟩
  · rw [timerCallback, hu, bind_some, ht]
    rfl
  · rcases hcases with hrun | rfl
    · exact .inl hrun
    · refine .inr ⟨hcur, fun hs => ?_⟩
      rw [current, hcur]
      exact hsame _ hs

theorem schedStep_goesOn {x : SchedAt} (h : InRing t l) (hx : x.Ok l) :
    GoesOn l t (t.schedStep x).1 ∧ ∀ y ∈ (t.schedStep x).2, y.Ok l := by
  have hnext := h.next_mem h.current
  have hsame : GoesOn l t t := ⟨.refl, h.current, .inr ⟨rfl, fun _ => rfl⟩⟩
  have htime : ∀ r, GoesOn l t (t.setTime r) := fun r =>
    ⟨setTime_advances t r, h.current, .inr ⟨rfl, fun _ => setTime_state t r _⟩⟩
  cases x with
  | enter =>
    rw [schedStep, if_neg (h.addr _ h.current).1]
    split
    · refine ⟨htime _, fun y hy => ?_⟩
      cases hy
      split
      · trivial
      · refine ⟨.inl rfl, ?_⟩
        have hsetTime := congrFun (setTime_keeps t (t.current.timeRemaining - 1)).next t.currentProcess
        change (t.setTime _).next t.currentProcess ∈ l
        rw [hsetTime]
        exact hnext
    · refine ⟨hsame, fun y hy => ?_⟩
      cases hy
      exact ⟨.inl rfl, hnext⟩
  | higher p =>
    rw [schedStep]
    split
    · exact ⟨hsame, fun y hy => by cases hy⟩
    · split
      · refine ⟨hsame, fun y hy => ?_⟩
        cases hy
        exact ⟨.inl rfl, hnext⟩
      · refine ⟨hsame, fun y hy => ?_⟩
        cases hy
        trivial
  | choose best p =>
    refine ⟨hsame, fun y hy => ?_⟩
    have hbest : leastStep 0 t.runnable t.priority best p = 0 ∨ leastStep 0 t.runnable t.priority best p ∈ l := by
      rw [leastStep]
      split
      · exact .inr hx.2
      · exact hx.1
    cases hy
    split
    · exact hbest
    · exact ⟨hbest, h.next_mem hx.2⟩
  | commit best =>
    rw [schedStep]
    split
    · exact ⟨hsame, fun y hy => by cases hy⟩
    · next hne =>
      split
      · exact ⟨htime _, fun y hy => by cases hy⟩
      · exact ⟨⟨switchTo_advances t best, hx.resolve_left hne, .inl (switchTo_running t best)⟩, fun y hy => by cases hy⟩

/-- One step of a call of `schedule` that no interrupt comes between. -/
def SchedSteps (r r' : ProcessTable × Option SchedAt) : Prop := ∃ x, r.2 = some x ∧ r' = r.1.schedStep x

open Relation in
private theorem higher_steps {q n : ℕ} (hseek : ringSeek t.next (fun p => p == t.currentProcess ||
      decide ((t.procs p).state = .ready ∧ (t.procs p).priority < t.current.priority)) n p = some q) :
    ReflTransGen SchedSteps (t, some (.higher p))
      (if q = t.currentProcess then (t, none) else (t, some (.choose 0 t.current.next))) := by
  induction n generalizing p with
  | zero => cases hseek
  | succ n ih =>
    rw [ringSeek] at hseek
    split at hseek
    · next htest =>
      obtain rfl := Option.some.inj hseek
      refine .single ⟨.higher p, rfl, ?_⟩
      rw [schedStep]
      split
      · rfl
      · next hne =>
        rw [Bool.or_eq_true, beq_iff_eq, decide_eq_true_eq] at htest
        rw [if_pos (htest.resolve_left hne)]
    · next htest =>
      rw [Bool.or_eq_true, beq_iff_eq, decide_eq_true_eq, not_or] at htest
      refine .head ⟨.higher p, rfl, ?_⟩ (ih hseek)
      rw [schedStep, if_neg htest.1, if_neg htest.2]

open Relation in
private theorem choose_steps {b best n : ℕ}
    (hfold : ringFold t.next (· == t.next t.currentProcess) (leastStep 0 t.runnable t.priority) n p b = some best) :
    ReflTransGen SchedSteps (t, some (.choose b p)) (t, some (.commit best)) := by
  induction n generalizing p b with
  | zero => cases hfold
  | succ n ih =>
    rw [ringFold] at hfold
    split at hfold
    · next hstop =>
      cases hfold
      refine .single ⟨.choose b p, rfl, ?_⟩
      rw [schedStep, if_pos (beq_iff_eq.mp hstop)]
    · next hstop =>
      refine .head ⟨.choose b p, rfl, ?_⟩ (ih hfold)
      rw [schedStep, if_neg (mt beq_iff_eq.mpr hstop)]

open Relation in
theorem select_steps {sw : Option Switch} (hs : t.scheduleSelect = some (t', sw)) :
    ReflTransGen SchedSteps (t, some (.choose 0 t.current.next)) (t', none) := by
  obtain ⟨best, hbest, hr⟩ := map_eq_some_iff.mp hs
  refine .tail (choose_steps hbest) ⟨.commit best, rfl, ?_⟩
  rw [schedStep]
  split at hr
  · next h0 =>
    rw [if_pos h0, (Prod.mk.inj hr).1]
  · next h0 =>
    rw [if_neg h0]
    split at hr
    · next hsame => rw [if_pos hsame, (Prod.mk.inj hr).1]
    · next hsame => rw [if_neg hsame, (Prod.mk.inj hr).1]

open Relation in
/-- A call of `schedule` that no interrupt comes between is made of such steps. -/
theorem schedule_steps {sw : Option Switch} (hs : t.schedule = some (t', sw)) :
    ReflTransGen SchedSteps (t, some .enter) (t', none) := by
  rw [schedule] at hs
  split at hs
  · next h0 =>
    refine .single ⟨.enter, rfl, ?_⟩
    rw [schedStep, if_pos h0, (Prod.mk.inj (Option.some.inj hs)).1]
  · next h0 =>
    split at hs
    · next hrun =>
      dsimp only at hs
      have henter : t.schedStep .enter = (t.setTime (t.current.timeRemaining - 1),
          some (if 0 < (t.setTime (t.current.timeRemaining - 1)).current.timeRemaining then
            .higher (t.setTime (t.current.timeRemaining - 1)).current.next
          else .choose 0 (t.setTime (t.current.timeRemaining - 1)).current.next)) := by
        rw [schedStep, if_neg h0, if_pos hrun]
      refine .head ⟨.enter, rfl, henter.symm⟩ ?_
      split at hs
      · next htime =>
        rw [if_pos htime]
        obtain ⟨found, hfound, hthen⟩ := bind_eq_some_iff.mp hs
        obtain ⟨q, hq, rfl⟩ := map_eq_some_iff.mp hfound
        refine (higher_steps hq).trans ?_
        by_cases hc : q = (t.setTime (t.current.timeRemaining - 1)).currentProcess
        · rw [if_pos hc]
          rw [if_neg (by simp [hc])] at hthen
          rw [(Prod.mk.inj (Option.some.inj hthen)).1]
        · rw [if_neg hc]
          rw [if_pos (by simpa using hc)] at hthen
          exact select_steps hthen
      · next htime =>
        rw [if_neg htime]
        exact select_steps hs
    · next hrun =>
      refine .head ⟨.enter, rfl, ?_⟩ (select_steps hs)
      rw [schedStep, if_neg h0, if_neg hrun]

/-- Two processes, the running one at the last tick of its slice. -/
def lastTick : ProcessTable := (bootTable.forkProcess 5 0xC1002000 0xC1003000).1.setTime 1

open Relation in
theorem schedule_steps_lastTick : ∃ r ∈ lastTick.schedule, lastTick.currentProcess = 0xC1001000 ∧
    r.1.currentProcess = 0xC1002000 ∧ (r.1.procs 0xC1001000).state = .ready ∧ r.1.current.state = .running ∧
    ReflTransGen SchedSteps (lastTick, some .enter) (r.1, none) := by
  have hev : ∃ r ∈ lastTick.schedule, r.1.currentProcess = 0xC1002000 ∧ (r.1.procs 0xC1001000).state = .ready ∧
      r.1.current.state = .running := by decide
  obtain ⟨r, hr, hswitch, hfirst, hrun⟩ := hev
  exact ⟨r, hr, rfl, hswitch, hfirst, hrun, schedule_steps hr⟩

end ProcessTable
end RetroOs.Kernel
