import RetroOs.Kernel.NamedObjects
import RetroOs.Kernel.Preemption
import RetroOs.Lib.Served

/-! The calls on semaphores. What they do with interrupts off is one step; where interrupts are on, `sem_wait` stores
its state and calls `schedule` step by step. -/
namespace RetroOs.Kernel
open Lib

def semValueMax : Int := 0x7FFFFFFF

def semInit (value : Word) : Option Sem := if 0x7FFFFFFF < value then none else some { value := value.toNat, waiters := 0 }

/-- The part of `sem_wait` and of `sem_trywait` that takes the semaphore. -/
def Sem.take (s : Sem) : Option Sem := if 0 < s.value then some { s with value := s.value - 1 } else none

inductive SemAt where
  | test
  /-- Before it stores that it waits. -/
  | block
  | yield (p : SchedAt)
  /-- Before it counts itself out. -/
  | retire
  deriving DecidableEq

def SemAt.Ok (l : List ℕ) : SemAt → Prop
  | .yield p => p.Ok l
  | _ => True

namespace ProcessTable

def semStep (t : ProcessTable) (s : Sem) : SemAt → ProcessTable × Sem × Option SemAt
  | .test =>
    match s.take with
    | some s => (t, s, none)
    | none => (t, { s with waiters := s.waiters + 1 }, some .block)
  | .block => (t.setState t.currentProcess .waiting, s, some (.yield .enter))
  | .yield p =>
    let r := t.schedStep p
    (r.1, s, some (r.2.elim .retire .yield))
  | .retire => (t, { s with waiters := s.waiters - 1 }, some .test)

def firstWaiting (t : ProcessTable) : Option ℕ :=
  if t.readyQueue = 0 then none
  else
    (ringFind t.next (fun p => p == 0 || p == t.readyQueue) (fun p => (t.procs p).state == .waiting) ringFuel t.readyQueue).join

/-- Its result is 0 or −1. -/
def semPost (t : ProcessTable) (s : Sem) : ProcessTable × Sem × Int :=
  if s.value = semValueMax then (t, s, -1)
  else
    let s := { s with value := s.value + 1 }
    if 0 < s.waiters then (t.firstWaiting.elim t fun p => t.setState p .ready, s, 0) else (t, s, 0)

end ProcessTable
end RetroOs.Kernel

/-! Runs of processes that wait for and post semaphores, with the timer interrupt anywhere in between: the value counts
posts and waits, and which wake-ups are not lost. -/
namespace RetroOs.Kernel
open Lib

structure SemRun (ι : Type) where
  table : ProcessTable
  sems : ι → Sem
  places : ℕ → Option (ι × SemAt)
  posts : ι → ℕ
  waits : ι → ℕ

/-- Calls are made by the current process when it is in no call of `sem_wait`, which goes on by steps. -/
inductive SemEvent (ι : Type) where
  | wait (i : ι)
  | trywait (i : ι)
  | post (i : ι)
  | step
  | timer

namespace SemRun
open ProcessTable
variable {ι : Type} [DecidableEq ι]

def place (s : SemRun ι) : Option (ι × SemAt) := s.places s.table.currentProcess

def setPlace (s : SemRun ι) (x : Option (ι × SemAt)) : SemRun ι := { s with places := Function.update s.places s.table.currentProcess x }

def setSem (s : SemRun ι) (i : ι) (x : Sem) : SemRun ι := { s with sems := Function.update s.sems i x }

def waited (s : SemRun ι) (i : ι) : SemRun ι := { s with waits := Function.update s.waits i (s.waits i + 1) }

def trywait (s : SemRun ι) (i : ι) : SemRun ι := (s.sems i).take.elim s fun x => (s.setSem i x).waited i

def post (s : SemRun ι) (i : ι) : SemRun ι :=
  let r := s.table.semPost (s.sems i)
  let s' := { s.setSem i r.2.1 with table := r.1 }
  if r.2.2 = 0 then { s' with posts := Function.update s.posts i (s.posts i + 1) } else s'

def step (s : SemRun ι) : SemRun ι :=
  match s.place with
  | none => s
  | some (i, p) =>
    let r := s.table.semStep (s.sems i) p
    let s' := { (s.setSem i r.2.1).setPlace (r.2.2.map (i, ·)) with table := r.1 }
    if r.2.2 = none then s'.waited i else s'

def exec (s : SemRun ι) : SemEvent ι → SemRun ι
  | .wait i => if s.place = none then s.setPlace (some (i, .test)) else s
  | .trywait i => if s.place = none then s.trywait i else s
  | .post i => if s.place = none then s.post i else s
  | .step => s.step
  | .timer => s.table.timerCallback.elim s fun t => { s with table := t }

def start (t : ProcessTable) (sems : ι → Sem) : SemRun ι where
  table := t
  sems := sems
  places _ := none
  posts _ := 0
  waits _ := 0

/-- It is in a call of `sem_wait` on the semaphore. -/
def Inside (s : SemRun ι) (i : ι) (p : ℕ) : Prop := (s.places p).map Prod.fst = some i

instance (s : SemRun ι) (i : ι) (p : ℕ) : Decidable (s.Inside i p) := inferInstanceAs (Decidable (_ = _))

/-- A process goes to sleep on a semaphore only while its value is 0, and a post on a semaphore on which a process sleeps
wakes one of those. -/
def Meets (l : List ℕ) (s : SemRun ι) : SemEvent ι → Prop
  | .step => ∀ x ∈ s.place, x.2 = .block → (s.sems x.1).value = 0
  | .post i =>
    s.place = none → (∃ p ∈ l, s.Inside i p ∧ (s.table.procs p).state = .waiting) →
      0 < (s.sems i).waiters ∧ ∃ p ∈ s.table.firstWaiting, s.Inside i p
  | _ => True

instance (l : List ℕ) (s : SemRun ι) : ∀ e, Decidable (s.Meets l e)
  | .step => inferInstanceAs (Decidable (∀ x ∈ s.place, x.2 = .block → (s.sems x.1).value = 0))
  | .post i => inferInstanceAs (Decidable (s.place = none → (∃ p ∈ l, s.Inside i p ∧ (s.table.procs p).state = .waiting) →
      0 < (s.sems i).waiters ∧ ∃ p ∈ s.table.firstWaiting, s.Inside i p))
  | .wait _ | .trywait _ | .timer => instDecidableTrue

def Valued (init : ι → Word) (s : SemRun ι) : Prop :=
  ∀ i, (s.sems i).value = (init i).toNat + s.posts i - s.waits i ∧ 0 ≤ (s.sems i).value ∧ (s.sems i).value ≤ semValueMax

/-- While a semaphore may be taken, one of the processes of the ring that wait for it may run. -/
def Woken (l : List ℕ) (s : SemRun ι) : Prop :=
  ∀ i, 0 < (s.sems i).value → (∃ p ∈ l, s.Inside i p) → ∃ p ∈ l, s.Inside i p ∧ (s.table.procs p).state.Awake

/-- The processes in calls on a semaphore that may run, and those that sleep. -/
def awake (l : List ℕ) (s : SemRun ι) (i : ι) : Finset ℕ := l.toFinset.filter fun p => s.Inside i p ∧ (s.table.procs p).state.Awake

def asleep (l : List ℕ) (s : SemRun ι) (i : ι) : Finset ℕ := l.toFinset.filter fun p => s.Inside i p ∧ (s.table.procs p).state = .waiting

/-- No more units are left than processes awake to take them, or no process sleeps. A process that goes on after it went to
sleep has found no unit. -/
structure Inv (l : List ℕ) (s : SemRun ι) : Prop where
  ring : InRing s.table l
  members : ∀ p i x, s.places p = some (i, x) → p ∈ l ∧ x.Ok l ∧ ((s.table.procs p).state.Awake ∨ (s.table.procs p).state = .waiting)
  current : s.table.current.state = .running ∨
    s.table.current.state = .waiting ∧ ∃ i x, s.place = some (i, x) ∧ (s.sems i).value = 0
  served : ∀ i, Lib.Served (s.sems i).value.toNat (s.awake l i) (s.asleep l i)
  nonneg : ∀ i, 0 ≤ (s.sems i).value

variable {s : SemRun ι} {i j : ι} {p q : ℕ} {x : Sem} {t t' : ProcessTable} {l : List ℕ} {init : ι → Word}

omit [DecidableEq ι] in
theorem take_some {y : Sem} (h : x.take = some y) : 0 < x.value ∧ y.value = x.value - 1 := by
  rw [Sem.take] at h
  split at h
  · next hpos =>
    cases h
    exact ⟨hpos, rfl⟩
  · cases h

private theorem semStep_value (t : ProcessTable) (x : Sem) (p : SemAt) :
    (t.semStep x p).2.2 ≠ none ∧ (t.semStep x p).2.1.value = x.value ∨
      (t.semStep x p).2.2 = none ∧ 0 < x.value ∧ (t.semStep x p).2.1.value = x.value - 1 := by
  cases p with
  | test =>
    rw [semStep]
    cases hx : x.take with
    | none => exact .inl ⟨by simp, rfl⟩
    | some y => exact .inr ⟨rfl, take_some hx⟩
  | block => exact .inl ⟨by simp [semStep], rfl⟩
  | yield p => exact .inl ⟨by simp [semStep], rfl⟩
  | retire => exact .inl ⟨by simp [semStep], rfl⟩

private theorem semPost_value (t : ProcessTable) (x : Sem) :
    (t.semPost x).2.2 = 0 ∧ x.value ≠ semValueMax ∧ (t.semPost x).2.1.value = x.value + 1 ∨
      (t.semPost x).2.2 ≠ 0 ∧ (t.semPost x).2.1 = x := by
  rw [semPost]
  split
  · exact .inr ⟨by simp, rfl⟩
  · next hne =>
    refine .inl ?_
    dsimp only
    split <;> exact ⟨rfl, hne, rfl⟩

theorem Valued.update {m n : ℕ} (h : s.Valued init) (hx : x.value = (s.sems i).value + m - n) (hpos : 0 ≤ x.value)
    (hmax : x.value ≤ semValueMax) {s' : SemRun ι} (hsems : s'.sems = Function.update s.sems i x)
    (hposts : s'.posts = Function.update s.posts i (s.posts i + m)) (hwaits : s'.waits = Function.update s.waits i (s.waits i + n)) :
    s'.Valued init := by
  intro j
  rw [hsems, hposts, hwaits]
  by_cases hj : j = i
  · subst hj
    simp only [Function.update_self]
    have := (h j).1
    refine ⟨?_, hpos, hmax⟩
    push_cast
    omega
  · simp only [Function.update_of_ne hj]
    exact h j

theorem Valued.exec (h : s.Valued init) (e : SemEvent ι) : (s.exec e).Valued init := by
  have hsame : ∀ (f : ι → ℕ) i, Function.update f i (f i + 0) = f := fun f i => Function.update_eq_self i f
  cases e with
  | wait i =>
    rw [SemRun.exec]
    split
    · exact h
    · exact h
  | trywait i =>
    rw [SemRun.exec]
    split
    · rw [trywait]
      cases hx : (s.sems i).take with
      | none => exact h
      | some y =>
        obtain ⟨hpos, hy⟩ := take_some hx
        have hmax := (h i).2.2
        exact h.update (m := 0) (n := 1) (x := y) (by omega) (by omega) (by omega) rfl (hsame _ _).symm rfl
    · exact h
  | post i =>
    rw [SemRun.exec]
    split
    · rw [post]
      have hbounds := (h i).2
      rcases semPost_value s.table (s.sems i) with ⟨hr, hne, hv⟩ | ⟨hr, hx⟩
      · dsimp only
        rw [if_pos hr]
        exact h.update (m := 1) (n := 0) (x := (s.table.semPost (s.sems i)).2.1) (by omega) (by omega) (by omega) rfl rfl
          (hsame _ _).symm
      · dsimp only
        rw [if_neg hr, hx]
        exact h.update (m := 0) (n := 0) (x := s.sems i) (by omega) (by omega) (by omega) rfl (hsame _ _).symm (hsame _ _).symm
    · exact h
  | step =>
    rw [SemRun.exec, step]
    split
    · exact h
    · next i p hp =>
      have hbounds := (h i).2
      rcases semStep_value s.table (s.sems i) p with ⟨hr, hv⟩ | ⟨hr, hpos, hv⟩
      · dsimp only
        rw [if_neg hr]
        exact h.update (m := 0) (n := 0) (x := (s.table.semStep (s.sems i) p).2.1) (by omega) (by omega) (by omega) rfl
          (hsame _ _).symm (hsame _ _).symm
      · dsimp only
        rw [if_pos hr]
        exact h.update (m := 0) (n := 1) (x := (s.table.semStep (s.sems i) p).2.1) (by omega) (by omega) (by omega) rfl
          (hsame _ _).symm rfl
  | timer =>
    rw [SemRun.exec]
    cases s.table.timerCallback <;> exact h

theorem mem_awake : p ∈ s.awake l i ↔ p ∈ l ∧ s.Inside i p ∧ (s.table.procs p).state.Awake := by
  simp [awake]

theorem mem_asleep : p ∈ s.asleep l i ↔ p ∈ l ∧ s.Inside i p ∧ (s.table.procs p).state = .waiting := by
  simp [asleep]

theorem Inv.running (h : s.Inv l) (hp : s.place = none) : s.table.current.state = .running := by
  rcases h.current with hrun | ⟨-, i, x, hplace, -⟩
  · exact hrun
  · rw [hp] at hplace
    cases hplace

theorem nonneg_update (h : ∀ j, 0 ≤ (s.sems j).value) (hx : 0 ≤ x.value) (j : ι) : 0 ≤ (Function.update s.sems i x j).value := by
  by_cases hj : j = i
  · rw [hj, Function.update_self]
    exact hx
  · rw [Function.update_of_ne hj]
    exact h j

theorem Inv.goes {places : ℕ → Option (ι × SemAt)} {sems : ι → Sem} (h : s.Inv l) (hgoes : GoesOn l s.table t')
    (hvalue : ∀ i, (sems i).value = (s.sems i).value) (hinside : ∀ p, (places p).map Prod.fst = (s.places p).map Prod.fst)
    (hok : ∀ p i x, places p = some (i, x) → x.Ok l) : Inv l { s with table := t', sems, places } := by
  obtain ⟨hadv, hmem, hcur⟩ := hgoes
  refine ⟨hadv.keeps.inRing h.ring hmem, fun p i x hp => ?_, ?_, fun i => ?_, fun i => (hvalue i).symm ▸ h.nonneg i⟩
  · have hin := hinside p
    rw [show places p = some (i, x) from hp] at hin
    obtain ⟨⟨j, y⟩, hy, -⟩ := Option.map_eq_some_iff.mp hin.symm
    obtain ⟨hl, -, hstate⟩ := h.members p j y hy
    refine ⟨hl, hok p i x hp, ?_⟩
    rcases hadv.state p with hsame | hawake
    · rw [hsame]
      exact hstate
    · exact .inl hawake
  · rcases hcur with hrun | ⟨hsame, hstate⟩
    · exact .inl hrun
    · rcases h.current with hrun | ⟨hwait, i, x, hplace, hzero⟩
      · exact .inl ((hstate (by rw [hrun]; decide)).trans hrun)
      · refine .inr ⟨(hstate (by rw [hwait]; decide)).trans hwait, ?_⟩
        have hin := hinside s.table.currentProcess
        rw [show s.places s.table.currentProcess = some (i, x) from hplace] at hin
        obtain ⟨⟨j, y⟩, hy, hj⟩ := Option.map_eq_some_iff.mp hin
        refine ⟨j, y, (congrArg places hsame).trans hy, ?_⟩
        rw [hvalue, show j = i from hj]
        exact hzero
  · rw [hvalue]
    refine (h.served i).mono (fun p hp => ?_) fun p hp => ?_
    · obtain ⟨hl, hin, hawake⟩ := mem_awake.mp hp
      exact mem_awake.mpr ⟨hl, (hinside p).trans hin, hadv.awake hawake⟩
    · obtain ⟨hl, hin, hwait⟩ := mem_asleep.mp hp
      exact mem_asleep.mpr ⟨hl, (hinside p).symm.trans hin, hadv.slept hwait⟩

omit [DecidableEq ι] in
theorem place_self (x : Option (ι × SemAt)) : (s.setPlace x).places s.table.currentProcess = x := Function.update_self ..

omit [DecidableEq ι] in
theorem place_other (x : Option (ι × SemAt)) (hp : p ≠ s.table.currentProcess) : (s.setPlace x).places p = s.places p :=
  Function.update_of_ne hp ..

theorem Inv.wait (h : s.Inv l) (hplace : s.place = none) : (s.setPlace (some (i, .test))).Inv l := by
  have hrun := h.running hplace
  refine ⟨h.ring, fun p j x hp => ?_, .inl hrun, fun j => ?_, h.nonneg⟩
  · by_cases hc : p = s.table.currentProcess
    · subst hc
      rw [place_self] at hp
      cases hp
      exact ⟨h.ring.current, trivial, .inl (.inr hrun)⟩
    · exact h.members p j x ((place_other _ hc).symm.trans hp)
  · have hkeep : ∀ p, p ≠ s.table.currentProcess → ((s.setPlace (some (i, .test))).Inside j p ↔ s.Inside j p) := by
      intro p hp
      rw [Inside, place_other _ hp, Inside]
    refine (h.served j).mono (fun p hp => ?_) fun p hp => ?_
    · obtain ⟨hl, hin, hawake⟩ := mem_awake.mp hp
      have hne : p ≠ s.table.currentProcess := by
        rintro rfl
        rw [Inside, show s.places s.table.currentProcess = none from hplace] at hin
        cases hin
      exact mem_awake.mpr ⟨hl, (hkeep p hne).mpr hin, hawake⟩
    · obtain ⟨hl, hin, hwait⟩ := mem_asleep.mp hp
      have hne : p ≠ s.table.currentProcess := by
        rintro rfl
        cases hwait.symm.trans hrun
      exact mem_asleep.mpr ⟨hl, (hkeep p hne).mp hin, hwait⟩

theorem Inv.trywait (h : s.Inv l) (hplace : s.place = none) : (s.trywait i).Inv l := by
  rw [SemRun.trywait]
  cases hx : (s.sems i).take with
  | none => exact h
  | some y =>
    obtain ⟨hpos, hy⟩ := take_some hx
    refine ⟨h.ring, h.members, .inl (h.running hplace), fun j => ?_, nonneg_update h.nonneg (by omega)⟩
    by_cases hj : j = i
    · subst hj
      have hserved := h.served j
      rw [show (s.sems j).value.toNat = y.value.toNat + 1 by omega] at hserved
      have hsem : (((s.setSem j y).waited j).sems j).value = y.value := congrArg Sem.value (Function.update_self ..)
      change Lib.Served (((s.setSem j y).waited j).sems j).value.toNat _ _
      rw [hsem]
      exact hserved.take (Finset.erase_subset s.table.currentProcess _) subset_rfl
    · have hsem : ((s.setSem i y).waited i).sems j = s.sems j := Function.update_of_ne hj ..
      change Lib.Served (((s.setSem i y).waited i).sems j).value.toNat _ _
      rw [hsem]
      exact h.served j

private theorem firstWaiting_eq (h : InRing t l) : t.firstWaiting = l.find? fun p => (t.procs p).state == .waiting := by
  rw [firstWaiting, if_neg h.readyQueue_ne, h.ring.find h.stop h.length_le]
  rfl

private theorem semPost_table (h : InRing t l) (x : Sem) (hvalue : x.value ≠ semValueMax) :
    (t.semPost x).1 = t ∨ ∃ p ∈ t.firstWaiting, (t.procs p).state = .waiting ∧ (t.semPost x).1 = t.setState p .ready := by
  rw [semPost, if_neg hvalue]
  dsimp only
  split
  · cases hp : t.firstWaiting with
    | none => exact .inl rfl
    | some p =>
      have hfind := List.find?_some ((firstWaiting_eq h).symm.trans hp)
      exact .inr ⟨p, rfl, beq_iff_eq.mp hfind, rfl⟩
  · exact .inl rfl

private theorem wake_goesOn (h : InRing t l) (hrun : t.current.state = .running) (hp : (t.procs p).state = .waiting) :
    GoesOn l t (t.setState p .ready) := by
  have hne : t.currentProcess ≠ p := by
    rintro rfl
    cases hp.symm.trans hrun
  refine ⟨wake_advances t p, h.current, .inr ⟨rfl, fun _ => ?_⟩⟩
  exact congrArg Process.state (setState_other _ _ _ hne)

theorem Inv.post (h : s.Inv l) (hplace : s.place = none) (hmeets : s.Meets l (.post i)) : (s.post i).Inv l := by
  have hrun := h.running hplace
  rcases semPost_value s.table (s.sems i) with ⟨hr, hne, hv⟩ | ⟨hr, hx⟩
  · have htable := semPost_table h.ring (s.sems i) hne
    have hgoes : GoesOn l s.table (s.table.semPost (s.sems i)).1 := by
      rcases htable with hsame | ⟨p, -, hwait, hwoken⟩
      · rw [hsame]
        exact ⟨.refl, h.ring.current, .inr ⟨rfl, fun _ => rfl⟩⟩
      · rw [hwoken]
        exact wake_goesOn h.ring hrun hwait
    have hrest := h.goes hgoes (fun _ => rfl) (fun _ => rfl) fun p i x hp => (h.members p i x hp).2.1
    rw [SemRun.post]
    dsimp only
    rw [if_pos hr]
    have hnonneg := h.nonneg i
    refine ⟨hrest.ring, hrest.members, ?_, fun j => ?_, nonneg_update h.nonneg (by omega)⟩
    · rcases hrest.current with hrun' | ⟨-, j, x, hj, -⟩
      · exact .inl hrun'
      · rcases hgoes.2.2 with hrun' | ⟨hcur, hstate⟩
        · exact .inl hrun'
        · exact .inl ((hstate (by rw [hrun]; decide)).trans hrun)
    · by_cases hj : j = i
      · subst hj
        have hsem : Function.update s.sems j (s.table.semPost (s.sems j)).2.1 j = (s.table.semPost (s.sems j)).2.1 :=
          Function.update_self ..
        change Lib.Served (Function.update s.sems j (s.table.semPost (s.sems j)).2.1 j).value.toNat _ _
        rw [hsem, hv]
        by_cases hsleep : ∃ p ∈ l, s.Inside j p ∧ (s.table.procs p).state = .waiting
        · obtain ⟨hwaiters, p, hfirst, hin⟩ := hmeets hplace hsleep
          have hfind := (firstWaiting_eq h.ring).symm.trans hfirst
          have htest := List.find?_some hfind
          have hwait : (s.table.procs p).state = .waiting := beq_iff_eq.mp htest
          have hmem := List.mem_of_find?_eq_some hfind
          have hwoken : (s.table.semPost (s.sems j)).1 = s.table.setState p .ready := by
            rw [semPost, if_neg hne]
            dsimp only
            rw [if_pos hwaiters, show s.table.firstWaiting = some p from hfirst]
            rfl
          rw [show ((s.sems j).value + 1).toNat = (s.sems j).value.toNat + 1 by omega]
          refine (h.served j).give (a := p) (mem_asleep.mpr ⟨hmem, hin, hwait⟩) (fun ha => ?_) (mem_awake.mpr ⟨hmem, hin, ?_⟩) fun q hq => ?_
          · have hawake := (mem_awake.mp ha).2.2
            rw [hwait] at hawake
            rcases hawake with h | h <;> cases h
          · change ((s.table.semPost (s.sems j)).1.procs p).state.Awake
            rw [hwoken, setState_state]
            exact .inl rfl
          · obtain ⟨hl, hin, hawake⟩ := mem_awake.mp hq
            exact mem_awake.mpr ⟨hl, hin, hgoes.1.awake hawake⟩
        · refine .inr (Finset.eq_empty_of_forall_notMem fun p hp => hsleep ?_)
          obtain ⟨hl, hin, hwait⟩ := mem_asleep.mp hp
          exact ⟨p, hl, hin, hgoes.1.slept hwait⟩
      · have hsem : Function.update s.sems i (s.table.semPost (s.sems i)).2.1 j = s.sems j := Function.update_of_ne hj ..
        change Lib.Served (Function.update s.sems i (s.table.semPost (s.sems i)).2.1 j).value.toNat _ _
        rw [hsem]
        exact hrest.served j
  · have hsame : s.post i = s := by
      have htable : (s.table.semPost (s.sems i)).1 = s.table := by
        by_cases hmax : (s.sems i).value = semValueMax
        · rw [semPost, if_pos hmax]
        · rw [semPost, if_neg hmax] at hr
          dsimp only at hr
          split at hr <;> exact absurd rfl hr
      rw [SemRun.post]
      dsimp only
      rw [if_neg hr, hx, htable, setSem, Function.update_eq_self]
    rw [hsame]
    exact h

theorem Inv.moves {y z : SemAt} (h : s.Inv l) (hplace : s.place = some (i, y)) (hgoes : GoesOn l s.table t')
    (hvalue : x.value = (s.sems i).value) (hok : z.Ok l) : Inv l { (s.setSem i x).setPlace (some (i, z)) with table := t' } := by
  change Inv l { s with table := t', sems := Function.update s.sems i x, places := (s.setPlace (some (i, z))).places }
  refine h.goes hgoes (fun j => ?_) (fun p => ?_) fun p j w hp => ?_
  · by_cases hj : j = i
    · subst hj
      exact (congrArg Sem.value (Function.update_self ..)).trans hvalue
    · exact congrArg Sem.value (Function.update_of_ne hj ..)
  · by_cases hc : p = s.table.currentProcess
    · subst hc
      rw [place_self, show s.places s.table.currentProcess = some (i, y) from hplace]
      rfl
    · rw [place_other _ hc]
  · by_cases hc : p = s.table.currentProcess
    · subst hc
      rw [place_self] at hp
      obtain ⟨-, rfl⟩ := Prod.mk.inj (Option.some.inj hp)
      exact hok
    · rw [place_other _ hc] at hp
      exact (h.members p j w hp).2.1

theorem Inv.takes {y : SemAt} {z : Sem} (h : s.Inv l) (hplace : s.place = some (i, y)) (hpos : 0 < (s.sems i).value)
    (hz : z.value = (s.sems i).value - 1) : (((s.setSem i z).setPlace none).waited i).Inv l := by
  have hrun : s.table.current.state = .running := by
    rcases h.current with hrun | ⟨-, j, w, hw, hzero⟩
    · exact hrun
    · obtain ⟨rfl, -⟩ := Prod.mk.inj (Option.some.inj (hplace.symm.trans hw))
      omega
  have hgone : ∀ p j, ((s.setPlace none).Inside j p) → p ≠ s.table.currentProcess ∧ s.Inside j p := by
    intro p j hin
    by_cases hc : p = s.table.currentProcess
    · rw [Inside, hc, place_self] at hin
      cases hin
    · rw [Inside, place_other _ hc] at hin
      exact ⟨hc, hin⟩
  have hstays : ∀ p j, p ≠ s.table.currentProcess → s.Inside j p → (s.setPlace none).Inside j p := by
    intro p j hc hin
    rw [Inside, place_other _ hc]
    exact hin
  have hasleep : ∀ j, (((s.setSem i z).setPlace none).waited i).asleep l j ⊆ s.asleep l j := by
    intro j p hp
    obtain ⟨hl, hin, hwait⟩ := mem_asleep.mp hp
    exact mem_asleep.mpr ⟨hl, (hgone p j hin).2, hwait⟩
  refine ⟨h.ring, fun p j w hp => ?_, .inl hrun, fun j => ?_, nonneg_update h.nonneg (by omega)⟩
  · by_cases hc : p = s.table.currentProcess
    · subst hc
      exact absurd ((place_self (s := s) none).symm.trans hp) (by simp)
    · exact h.members p j w ((place_other none hc).symm.trans hp)
  · by_cases hj : j = i
    · subst hj
      have hserved := h.served j
      rw [show (s.sems j).value.toNat = z.value.toNat + 1 by omega] at hserved
      change Lib.Served (Function.update s.sems j z j).value.toNat _ _
      rw [Function.update_self]
      refine hserved.take (a := s.table.currentProcess) (fun p hp => ?_) (hasleep j)
      obtain ⟨hne, hp⟩ := Finset.mem_erase.mp hp
      obtain ⟨hl, hin, hawake⟩ := mem_awake.mp hp
      exact mem_awake.mpr ⟨hl, hstays p j hne hin, hawake⟩
    · change Lib.Served (Function.update s.sems i z j).value.toNat _ _
      rw [Function.update_of_ne hj]
      refine (h.served j).mono (fun p hp => ?_) (hasleep j)
      obtain ⟨hl, hin, hawake⟩ := mem_awake.mp hp
      have hne : p ≠ s.table.currentProcess := by
        rintro rfl
        rw [Inside, show s.places s.table.currentProcess = some (i, y) from hplace] at hin
        exact hj (Option.some.inj hin).symm
      exact mem_awake.mpr ⟨hl, hstays p j hne hin, hawake⟩

theorem Inv.sleeps (h : s.Inv l) (hplace : s.place = some (i, .block)) (hzero : (s.sems i).value = 0) :
    Inv l { (s.setSem i (s.sems i)).setPlace (some (i, .yield .enter)) with
      table := s.table.setState s.table.currentProcess .waiting } := by
  have hself : ((s.table.setState s.table.currentProcess .waiting).procs s.table.currentProcess).state = .waiting := setState_state ..
  have hsem : ∀ j, Function.update s.sems i (s.sems i) j = s.sems j := fun j => congrFun (Function.update_eq_self i s.sems) j
  have hinside : ∀ p j, (s.setPlace (some (i, .yield .enter))).Inside j p ↔ s.Inside j p := by
    intro p j
    by_cases hc : p = s.table.currentProcess
    · subst hc
      rw [Inside, place_self, Inside, show s.places s.table.currentProcess = some (i, .block) from hplace]
      rfl
    · rw [Inside, place_other _ hc, Inside]
  refine ⟨(setState_keeps s.table _ _).inRing h.ring h.ring.current, fun p j w hp => ?_, ?_, fun j => ?_, fun j => ?_⟩
  · by_cases hc : p = s.table.currentProcess
    · subst hc
      obtain ⟨-, rfl⟩ := Prod.mk.inj (Option.some.inj ((place_self (s := s) _).symm.trans hp))
      exact ⟨h.ring.current, trivial, .inr hself⟩
    · obtain ⟨hl, hok, hstate⟩ := h.members p j w ((place_other (s := s) _ hc).symm.trans hp)
      refine ⟨hl, hok, ?_⟩
      rw [setState_other _ _ _ hc]
      exact hstate
  · refine .inr ⟨hself, i, .yield .enter, Function.update_self .., ?_⟩
    exact (congrArg Sem.value (hsem i)).trans hzero
  · change Lib.Served (Function.update s.sems i (s.sems i) j).value.toNat _ _
    rw [hsem]
    by_cases hj : j = i
    · rw [hj, hzero]
      exact .zero
    · have hother : ∀ p, s.Inside j p → p ≠ s.table.currentProcess := by
        rintro p hin rfl
        rw [Inside, show s.places s.table.currentProcess = some (i, .block) from hplace] at hin
        exact hj (Option.some.inj hin).symm
      have hstate : ∀ p, s.Inside j p → ((s.table.setState s.table.currentProcess .waiting).procs p).state = (s.table.procs p).state :=
        fun p hin => congrArg Process.state (setState_other _ _ _ (hother p hin))
      refine (h.served j).mono (fun p hp => ?_) fun p hp => ?_
      · obtain ⟨hl, hin, hawake⟩ := mem_awake.mp hp
        refine mem_awake.mpr ⟨hl, (hinside p j).mpr hin, ?_⟩
        rw [← hstate p hin] at hawake
        exact hawake
      · obtain ⟨hl, hin, hwait⟩ := mem_asleep.mp hp
        have hin' := (hinside p j).mp hin
        exact mem_asleep.mpr ⟨hl, hin', (hstate p hin').symm.trans hwait⟩
  · exact (congrArg Sem.value (hsem j)).symm ▸ h.nonneg j

theorem Inv.step (h : s.Inv l) (hmeets : s.Meets l .step) : s.step.Inv l := by
  have hsame : GoesOn l s.table s.table := ⟨.refl, h.ring.current, .inr ⟨rfl, fun _ => rfl⟩⟩
  rw [SemRun.step]
  split
  · exact h
  · next i p hplace =>
    cases p with
    | test =>
      rw [semStep]
      cases hx : (s.sems i).take with
      | none => exact h.moves hplace hsame rfl trivial
      | some y =>
        obtain ⟨hpos, hy⟩ := take_some hx
        exact h.takes hplace hpos hy
    | block => exact h.sleeps hplace (hmeets _ hplace rfl)
    | yield x =>
      have hx : x.Ok l := (h.members _ i _ hplace).2.1
      obtain ⟨hgoes, hok⟩ := schedStep_goesOn h.ring hx
      refine h.moves hplace hgoes rfl ?_
      cases hy : (s.table.schedStep x).2 with
      | none => trivial
      | some y => exact hok y hy
    | retire => exact h.moves hplace hsame rfl trivial

theorem Inv.exec {e : SemEvent ι} (h : s.Inv l) (hmeets : s.Meets l e) : (s.exec e).Inv l := by
  cases e with
  | wait i =>
    rw [SemRun.exec]
    split
    · next hplace => exact h.wait hplace
    · exact h
  | trywait i =>
    rw [SemRun.exec]
    split
    · next hplace => exact h.trywait hplace
    · exact h
  | post i =>
    rw [SemRun.exec]
    split
    · next hplace => exact h.post hplace hmeets
    · exact h
  | step => exact h.step hmeets
  | timer =>
    obtain ⟨t', ht, hgoes⟩ := timerCallback_goesOn h.ring
    rw [SemRun.exec, ht]
    exact h.goes hgoes (fun _ => rfl) (fun _ => rfl) fun p i x hp => (h.members p i x hp).2.1

theorem start_inv {sems : ι → Sem} (hring : InRing t l) (hrun : t.current.state = .running) (hinit : ∀ i, semInit (init i) = some (sems i)) :
    (start t sems).Inv l ∧ (start t sems).Valued init := by
  have hvalue : ∀ i, (sems i).value = (init i).toNat ∧ (sems i).value ≤ semValueMax := by
    intro i
    have hi := hinit i
    rw [semInit] at hi
    split at hi
    · cases hi
    · next hle =>
      rw [← Option.some.inj hi]
      refine ⟨rfl, ?_⟩
      have hle' : (init i).toNat ≤ 0x7FFFFFFF := BitVec.le_def.mp (BitVec.not_lt.mp hle)
      exact Int.ofNat_le.mpr hle'
  refine ⟨⟨hring, (fun p i x hp => nomatch hp), .inl hrun, fun i => .inr ?_, fun i => ?_⟩, fun i => ⟨?_, ?_, (hvalue i).2⟩⟩
  · refine Finset.eq_empty_of_forall_notMem fun p hp => ?_
    have hin := (mem_asleep.mp hp).2.1
    cases hin
  · exact (hvalue i).1 ▸ Int.natCast_nonneg _
  · simp [start, (hvalue i).1]
  · exact (hvalue i).1 ▸ Int.natCast_nonneg _

theorem Inv.woken (h : s.Inv l) : s.Woken l := by
  rintro i hpos ⟨p, -, hin⟩
  obtain ⟨⟨j, x⟩, hx, rfl⟩ := Option.map_eq_some_iff.mp hin
  obtain ⟨hl, -, hstate⟩ := h.members p j x hx
  have hmem : p ∈ s.awake l j ∨ p ∈ s.asleep l j :=
    hstate.imp (fun ha => mem_awake.mpr ⟨hl, hin, ha⟩) fun hw => mem_asleep.mpr ⟨hl, hin, hw⟩
  have hpos' : 0 < (s.sems j).value.toNat := Int.lt_toNat.mpr hpos
  obtain ⟨q, hq⟩ := (h.served j).someone hpos' hmem
  exact ⟨q, mem_awake.mp hq⟩

/-- In every run the values count posts and waits. No wake-up is lost where processes go to sleep only while the value is 0
and each post that finds a process asleep wakes one that waits for it. -/
theorem sem_runs {sems : ι → Sem} (hring : InRing t l) (hrun : t.current.state = .running)
    (hinit : ∀ i, semInit (init i) = some (sems i)) (es : List (SemEvent ι)) :
    (es.foldl exec (start t sems)).Valued init ∧
      (Along exec (Meets l) (start t sems) es → (es.foldl exec (start t sems)).Woken l) := by
  obtain ⟨hinv, hvalued⟩ := start_inv hring hrun hinit
  constructor
  · exact List.foldlRecOn (motive := Valued init) es exec hvalued fun s hs e _ => Valued.exec hs e
  · intro hmeets
    have h : (es.foldl exec (start t sems)).Inv l :=
      hmeets.relates (R := fun s t => s.Inv l → t.Inv l) (fun _ h => h) (fun hst htu h => htu (hst h)) (fun _ _ hm h => h.exec hm) hinv
    exact h.woken

def twoProcesses : ProcessTable := (bootTable.forkProcess 5 0xC1002000 0xC1003000).1

/-- The first process goes to sleep, and the second posts and then goes to sleep itself. -/
def sleepAndPost : List (SemEvent (Fin 2)) :=
  .wait 0 :: List.replicate 6 .step ++ .post 0 :: .wait 1 :: List.replicate 6 .step ++ List.replicate 2 .step

theorem sleepAndPost_woken : let s := sleepAndPost.foldl exec (start twoProcesses fun _ => ⟨0, 0⟩)
    s.Valued (fun _ => 0) ∧ s.Woken [0xC1001000, 0xC1002000] := by
  have hring : InRing twoProcesses [0xC1001000, 0xC1002000] := ⟨⟨by decide, by decide, rfl, id, rfl, id, rfl⟩, by decide, by decide⟩
  have hinit : ∀ _ : Fin 2, semInit 0 = some ⟨0, 0⟩ := by decide
  have hruns := sem_runs hring (by decide) hinit sleepAndPost
  exact ⟨hruns.1, hruns.2 (by decide +kernel)⟩

/-- The first process is interrupted before it stores that it waits; the second posts and goes to sleep. -/
theorem wakeUp_lost : ¬ ∀ es : List (SemEvent (Fin 2)), (es.foldl exec (start twoProcesses fun _ => ⟨0, 0⟩)).Woken [0xC1001000, 0xC1002000] := by
  intro h
  have hwoken := h (.wait 0 :: .step :: .timer :: .post 0 :: .wait 1 :: List.replicate 6 .step ++ [.step]) 0
  revert hwoken
  decide +kernel

end SemRun
end RetroOs.Kernel
