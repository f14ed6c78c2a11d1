import RetroOs.Kernel.Pmm
import RetroOs.Lib.Tally
import RetroOs.Lib.LockToken
import RetroOs.Lib.Runs

/-! `pthread_mutex_lock`, `pthread_mutex_trylock` and `pthread_mutex_unlock`, one access to the mutex after the other: a
thread may be preempted between any two of them. -/
namespace RetroOs.Kernel

inductive MutexType where
  | normal
  | errorcheck
  | recursive
  deriving DecidableEq

structure Mutex where
  locked : Bool
  owner : Word
  type : MutexType
  recursiveCount : Word
  deriving DecidableEq

def Mutex.init (type : MutexType) : Mutex := { locked := false, owner := 0, type, recursiveCount := 0 }

def ePerm : Int := 1
def eBusy : Int := 16
def eDeadlk : Int := 35

/-- What a thread in a call is about to do. -/
inductive MutexAt where
  | lock
  | spin
  | trylock
  | cas
  | own
  | count
  | bump
  | bumped (count : Word)
  | unlock
  /-- `recursive_count--`: the load and the store. -/
  | drop
  | dropped (count : Word)
  /-- Is the count positive? -/
  | left
  /-- The owner and the lock are still to be cleared. -/
  | clear
  | release
  deriving DecidableEq

def MutexAt.unlocks : MutexAt → Bool
  | .unlock | .drop | .dropped _ | .left | .clear | .release => true
  | _ => false

namespace Mutex

/-- One access of thread `self`, and what it does next or the code it returns. -/
def step (m : Mutex) (self : Word) : MutexAt → Mutex × (MutexAt ⊕ Int)
  | .lock =>
    (m,
      if m.type = .recursive ∧ m.owner = self then .inl .bump
      else if m.type = .errorcheck ∧ m.owner = self then .inr eDeadlk
      else .inl .spin)
  | .spin => if m.locked then (m, .inl .spin) else ({ m with locked := true }, .inl .own)
  | .trylock => (m, if m.type = .recursive ∧ m.owner = self then .inl .bump else .inl .cas)
  | .cas => if m.locked then (m, .inr eBusy) else ({ m with locked := true }, .inl .own)
  | .own => ({ m with owner := self }, .inl .count)
  | .count => ({ m with recursiveCount := 1 }, .inr 0)
  | .bump => (m, .inl (.bumped m.recursiveCount))
  | .bumped count => ({ m with recursiveCount := count + 1 }, .inr 0)
  | .unlock =>
    (m,
      if m.type = .errorcheck ∧ m.owner ≠ self then .inr ePerm
      else if m.type = .recursive then if m.owner ≠ self then .inr ePerm else .inl .drop
      else .inl .clear)
  | .drop => (m, .inl (.dropped m.recursiveCount))
  | .dropped count => ({ m with recursiveCount := count - 1 }, .inl .left)
  | .left => (m, if 0 < m.recursiveCount.toInt then .inr 0 else .inl .clear)
  | .clear => ({ m with owner := 0 }, .inl .release)
  | .release => ({ m with locked := false }, .inr 0)

end Mutex
end RetroOs.Kernel

/-! Runs of threads that lock and unlock one mutex, step by step: no two have it at once, and it is free again when its
holder has unlocked it as often as it locked it. -/
namespace RetroOs.Kernel
open Lib Mutex Nat

inductive MutexCall where
  | lock
  | trylock
  | unlock
  deriving DecidableEq

def MutexCall.entry : MutexCall → MutexAt
  | .lock => .lock
  | .trylock => .trylock
  | .unlock => .unlock

/-- Where a thread is in its call, and how often it has locked the mutex more than unlocked it, by the calls that returned
0. -/
structure MutexThread where
  call : Option MutexAt
  depth : ℕ
  deriving DecidableEq

structure MutexRun where
  mutex : Mutex
  threads : Word → MutexThread

inductive MutexEvent where
  | call (self : Word) (c : MutexCall)
  | step (self : Word)

namespace MutexThread

def next (t : MutexThread) (p : MutexAt) : MutexAt ⊕ Int → MutexThread
  | .inl q => { t with call := some q }
  | .inr code => { call := none, depth := if code = 0 then if p.unlocks then t.depth - 1 else t.depth + 1 else t.depth }

def Holds (t : MutexThread) : Prop := 0 < t.depth ∨ t.call = some .own ∨ t.call = some .count

end MutexThread

/-- The thread looks at the owner to see if the mutex is its own. -/
def Mutex.Asks (m : Mutex) : MutexAt → Prop
  | .lock => m.type ≠ .normal
  | .trylock => m.type = .recursive
  | .unlock => m.type ≠ .normal
  | _ => False

instance (m : Mutex) : ∀ p, Decidable (m.Asks p)
  | .lock | .unlock => inferInstanceAs (Decidable (m.type ≠ .normal))
  | .trylock => inferInstanceAs (Decidable (m.type = .recursive))
  | .spin | .cas | .own | .count | .bump | .bumped _ | .drop | .dropped _ | .left | .clear | .release => instDecidableFalse

namespace MutexRun

def setThread (s : MutexRun) (self : Word) (t : MutexThread) : MutexRun := { s with threads := Function.update s.threads self t }

def exec (s : MutexRun) : MutexEvent → MutexRun
  | .call self c =>
    match (s.threads self).call with
    | some _ => s
    | none => s.setThread self { s.threads self with call := some c.entry }
  | .step self =>
    match (s.threads self).call with
    | none => s
    | some p =>
      let (mutex, next) := s.mutex.step self p
      { s.setThread self ((s.threads self).next p next) with mutex }

def start (type : MutexType) : MutexRun := { mutex := .init type, threads := fun _ => { call := none, depth := 0 } }

def Proper (s : MutexRun) : MutexEvent → Prop
  | .call self c => c = .unlock → s.mutex.type = .normal → 0 < (s.threads self).depth
  | .step _ => True

instance (s : MutexRun) : ∀ e, Decidable (s.Proper e)
  | .call self c => inferInstanceAs (Decidable (c = .unlock → s.mutex.type = .normal → 0 < (s.threads self).depth))
  | .step _ => instDecidableTrue

def Meets (s : MutexRun) : MutexEvent → Prop
  | .call self c => s.Proper (.call self c)
  | .step self => ∀ p ∈ (s.threads self).call,
      (s.mutex.Asks p → self = 0 → s.mutex.owner ≠ 0 ∨ 0 < (s.threads self).depth) ∧
        (p = .bump → s.mutex.recursiveCount.toInt < 2 ^ 31 - 1)

instance (s : MutexRun) : ∀ e, Decidable (s.Meets e)
  | .call self c => inferInstanceAs (Decidable (s.Proper (.call self c)))
  | .step self => inferInstanceAs (Decidable (∀ p ∈ (s.threads self).call,
      (s.mutex.Asks p → self = 0 → s.mutex.owner ≠ 0 ∨ 0 < (s.threads self).depth) ∧
        (p = .bump → s.mutex.recursiveCount.toInt < 2 ^ 31 - 1)))

/-- What a state is to be. -/
structure Sound (s : MutexRun) : Prop where
  exclusive : ∀ a b, 0 < (s.threads a).depth → 0 < (s.threads b).depth → a = b
  /-- The mutex is taken just when a thread has it by its calls so far, or takes it by one that will return 0. -/
  taken : s.mutex.locked = true ↔ ∃ a, (s.threads a).Holds
  once : s.mutex.type ≠ .recursive → ∀ a, (s.threads a).depth ≤ 1

structure StepSound (s : MutexRun) (self : Word) (p : MutexAt) : Prop where
  own : (s.mutex.step self p).2 = .inl .bump ∨ (s.mutex.step self p).2 = .inr eDeadlk →
    s.mutex.locked = true ∧ 0 < (s.threads self).depth
  refused : s.mutex.type ≠ .normal → p.unlocks = true → (s.threads self).depth = 0 → s.mutex.step self p = (s.mutex, .inr ePerm)

/-- The thread holds the mutex between its calls. -/
def Held (m : Mutex) (self : Word) (depth : ℕ) : Prop :=
  0 < depth ∧ m.owner = self ∧ if m.type = .recursive then m.recursiveCount.toInt = depth else depth = 1

def Fact (m : Mutex) (self : Word) (t : MutexThread) : Prop :=
  match t.call with
  | none | some .lock | some .spin | some .trylock | some .cas => t.depth = 0 ∨ Held m self t.depth
  | some .own => t.depth = 0 ∧ m.owner = 0
  | some .count => t.depth = 0 ∧ m.owner = self
  | some .bump | some .drop => m.type = .recursive ∧ Held m self t.depth
  | some (.bumped count) => m.type = .recursive ∧ Held m self t.depth ∧ count = m.recursiveCount ∧ count.toInt < 2 ^ 31 - 1
  | some (.dropped count) => m.type = .recursive ∧ Held m self t.depth ∧ count = m.recursiveCount
  | some .unlock => m.type ≠ .normal ∧ t.depth = 0 ∨ Held m self t.depth
  | some .left => m.type = .recursive ∧ 0 < t.depth ∧ m.owner = self ∧ m.recursiveCount.toInt = t.depth - 1
  | some .clear => t.depth = 1 ∧ m.owner = self
  | some .release => t.depth = 1 ∧ m.owner = 0

structure Inv (s : MutexRun) : Prop where
  token : Token s.mutex.locked fun a => (s.threads a).Holds
  owner : s.mutex.owner ≠ 0 → (s.threads s.mutex.owner).Holds
  facts : ∀ a, Fact s.mutex a (s.threads a)

variable {s : MutexRun} {self a : Word} {m m' : Mutex} {t : MutexThread} {p : MutexAt} {depth : ℕ}

theorem Fact.frame (h : Fact m a t) (hno : ¬ t.Holds) (htype : m'.type = m.type) : Fact m' a t := by
  obtain ⟨call, depth⟩ := t
  have hdepth : depth = 0 := Nat.eq_zero_of_not_pos fun hz => hno (.inl hz)
  subst hdepth
  rcases call with - | p
  · exact .inl rfl
  · have hheld : ¬ Held m a 0 := fun hz => absurd hz.1 (lt_irrefl 0)
    cases p with
    | lock | spin | trylock | cas => exact .inl rfl
    | own => exact absurd (.inr (.inl rfl)) hno
    | count => exact absurd (.inr (.inr rfl)) hno
    | bump | drop => exact absurd h.2 hheld
    | bumped count | dropped count => exact absurd h.2.1 hheld
    | unlock => exact .inl ⟨htype ▸ (h.resolve_right hheld).1, rfl⟩
    | left => exact absurd h.2.1 (lt_irrefl 0)
    | clear | release => exact absurd h.1 zero_ne_one

theorem Fact.once (h : Fact m a t) (htype : m.type ≠ .recursive) : t.depth ≤ 1 := by
  obtain ⟨call, depth⟩ := t
  have hheld : Held m a depth → depth ≤ 1 := by
    rintro ⟨-, -, hone⟩
    rw [if_neg htype] at hone
    exact hone.le
  have hout : depth = 0 ∨ Held m a depth → depth ≤ 1 := fun hz => hz.elim (fun h0 => h0 ▸ zero_le 1) hheld
  rcases call with - | p
  · exact hout h
  · cases p with
    | lock | spin | trylock | cas => exact hout h
    | own | count => exact h.1 ▸ zero_le 1
    | bump | drop => exact absurd h.1 htype
    | bumped count | dropped count => exact absurd h.1 htype
    | unlock => exact hout (h.imp_left And.right)
    | left => exact absurd h.1 htype
    | clear | release => exact h.1.le

theorem setThread_self (s : MutexRun) (self : Word) (t : MutexThread) : (s.setThread self t).threads self = t := Function.update_self ..

theorem setThread_other (s : MutexRun) (t : MutexThread) (hne : a ≠ self) : (s.setThread self t).threads a = s.threads a :=
  Function.update_of_ne hne ..

theorem setThread_holds (s : MutexRun) (t : MutexThread) {b : Word} (hne : b ≠ self) :
    ((s.setThread self t).threads b).Holds ↔ (s.threads b).Holds := by rw [setThread_other s t hne]

theorem Inv.moves (h : s.Inv) (hholds : t.Holds ↔ (s.threads self).Holds) (hfact : Fact s.mutex self t) : (s.setThread self t).Inv := by
  have hsame : ∀ b, ((s.setThread self t).threads b).Holds ↔ (s.threads b).Holds := by
    intro b
    by_cases hb : b = self
    · subst hb
      rwa [setThread_self]
    · exact setThread_holds s t hb
  refine ⟨h.token.keep hsame, fun hne => (hsame _).mpr (h.owner hne), fun b => ?_⟩
  by_cases hb : b = self
  · subst hb
    rwa [setThread_self]
  · rw [setThread_other s t hb]
    exact h.facts b

theorem Inv.stores (h : s.Inv) (hself : (s.threads self).Holds) (htoken : Token m.locked fun a => ((s.setThread self t).threads a).Holds)
    (htype : m.type = s.mutex.type) (howner : m.owner ≠ 0 → m.owner = self ∧ t.Holds) (hfact : Fact m self t) :
    Inv { s.setThread self t with mutex := m } := by
  refine ⟨htoken, fun hne => ?_, fun b => ?_⟩
  · obtain ⟨heq, ht⟩ := howner hne
    rwa [heq, setThread_self]
  · change Fact m b ((s.setThread self t).threads b)
    by_cases hb : b = self
    · subst hb
      rwa [setThread_self]
    · rw [setThread_other s t hb]
      exact (h.facts b).frame (h.token.not_holds hself hb) htype

theorem Inv.keeps_token (h : s.Inv) (hself : (s.threads self).Holds) (ht : t.Holds) :
    Token s.mutex.locked fun a => ((s.setThread self t).threads a).Holds := by
  refine h.token.keep fun b => ?_
  by_cases hb : b = self
  · subst hb
    rw [setThread_self]
    exact iff_of_true ht hself
  · exact setThread_holds s t hb

theorem Inv.takes (h : s.Inv) (hfree : s.mutex.locked = false) :
    Inv { s.setThread self { s.threads self with call := some .own } with mutex := { s.mutex with locked := true } } := by
  have htoken := h.token
  rw [hfree] at htoken
  have howner : s.mutex.owner = 0 := by
    by_contra hne
    exact htoken.none_holds _ (h.owner hne)
  have hdepth : (s.threads self).depth = 0 := Nat.eq_zero_of_not_pos fun hpos => htoken.none_holds self (.inl hpos)
  refine ⟨htoken.take (a := self) ?_ fun b hb => setThread_holds s _ hb, fun hne => absurd howner hne, fun b => ?_⟩
  · rw [setThread_self]
    exact .inr (.inl rfl)
  · by_cases hb : b = self
    · subst hb
      simp only [setThread_self]
      exact ⟨hdepth, howner⟩
    · simp only [setThread_other s _ hb]
      exact (h.facts b).frame (htoken.none_holds b) rfl

theorem exec_step (hcall : (s.threads self).call = some p) :
    s.exec (.step self) =
      { s.setThread self ((s.threads self).next p (s.mutex.step self p).2) with mutex := (s.mutex.step self p).1 } := by
  simp only [exec, hcall]

theorem Inv.own_of_asks (h : s.Inv) (hm : s.Meets (.step self)) (hcall : (s.threads self).call = some p) (hasks : s.mutex.Asks p)
    (howner : s.mutex.owner = self) : 0 < (s.threads self).depth := by
  by_cases hself : self = 0
  · exact ((hm p hcall).1 hasks hself).resolve_left fun hne => hne (howner.trans hself)
  · have hholds := h.owner (howner ▸ hself)
    rw [howner] at hholds
    rcases hholds with hpos | hown | hcount
    · exact hpos
    · rw [hcall] at hown
      cases hown
      exact hasks.elim
    · rw [hcall] at hcount
      cases hcount
      exact hasks.elim

theorem holds_iff (hown : t.call ≠ some .own) (hcount : t.call ≠ some .count) : t.Holds ↔ 0 < t.depth := by
  simp only [MutexThread.Holds, hown, hcount, or_false]

theorem Inv.stepSound (h : s.Inv) (hm : s.Meets (.step self)) (hcall : (s.threads self).call = some p) : s.StepSound self p := by
  have hf := h.facts self
  rw [Fact, hcall] at hf
  have hlocked : 0 < (s.threads self).depth → s.mutex.locked = true ∧ 0 < (s.threads self).depth := fun hpos =>
    ⟨h.token.locked_of (a := self) (.inl hpos), hpos⟩
  constructor
  · intro hown
    cases p with
    | lock =>
      simp only [step] at hown
      split_ifs at hown with hrec herr
      · exact hlocked (h.own_of_asks hm hcall (by simp [Mutex.Asks, hrec.1]) hrec.2)
      · exact hlocked (h.own_of_asks hm hcall (by simp [Mutex.Asks, herr.1]) herr.2)
      · simp at hown
    | trylock =>
      simp only [step] at hown
      split_ifs at hown with hrec
      · exact hlocked (h.own_of_asks hm hcall hrec.1 hrec.2)
      · simp at hown
    | spin | cas =>
      simp only [step] at hown
      split_ifs at hown <;> simp [eDeadlk, eBusy] at hown
    | unlock =>
      simp only [step] at hown
      split_ifs at hown <;> simp [eDeadlk, ePerm] at hown
    | left =>
      simp only [step] at hown
      split_ifs at hown <;> simp [eDeadlk] at hown
    | own | count | bump | bumped count | drop | dropped count | clear | release => simp [step, eDeadlk] at hown
  · intro htype hun hdepth
    have hheld : ¬ Held s.mutex self (s.threads self).depth := fun hz => hz.1.ne' hdepth
    cases p with
    | unlock =>
      have hne : s.mutex.owner ≠ self := fun howner => (h.own_of_asks hm hcall htype howner).ne' hdepth
      rw [step]
      cases hty : s.mutex.type with
      | normal => exact absurd hty htype
      | errorcheck => simp [hne]
      | recursive => simp [hne]
    | drop => exact absurd hf.2 hheld
    | dropped count => exact absurd hf.2.1 hheld
    | left => exact absurd hf.2.1 (by rw [hdepth]; exact lt_irrefl 0)
    | clear | release =>
      omega
    | lock | spin | trylock | cas | own | count | bump | bumped count => cases hun

theorem Inv.goes (h : s.Inv) (hcall : (s.threads self).call = some p) (hown : p ≠ .own) (hcount : p ≠ .count) {call : Option MutexAt}
    (hown' : call ≠ some .own) (hcount' : call ≠ some .count) (hfact : Fact s.mutex self { s.threads self with call }) :
    (s.setThread self { s.threads self with call }).Inv := by
  refine h.moves ?_ hfact
  rw [holds_iff hown' hcount', holds_iff (hcall ▸ fun heq => hown (Option.some.inj heq)) (hcall ▸ fun heq => hcount (Option.some.inj heq))]

theorem Inv.step (h : s.Inv) (hm : s.Meets (.step self)) (hcall : (s.threads self).call = some p) : (s.exec (.step self)).Inv := by
  have hf := h.facts self
  rw [Fact, hcall] at hf
  rw [exec_step hcall]
  cases p with
  | lock =>
    simp only [step]
    split_ifs with hrec herr
    · have hpos := h.own_of_asks hm hcall (by simp [Mutex.Asks, hrec.1]) hrec.2
      refine h.goes hcall (by simp) (by simp) (by simp) (by simp) ?_
      exact ⟨hrec.1, hf.resolve_left hpos.ne'⟩
    · exact h.goes hcall (by simp) (by simp) (by simp) (by simp) hf
    · exact h.goes hcall (by simp) (by simp) (by simp) (by simp) hf
  | spin =>
    simp only [step]
    split_ifs with hlocked
    · exact h.goes hcall (by simp) (by simp) (by simp) (by simp) hf
    · exact h.takes (Bool.eq_false_iff.mpr hlocked)
  | trylock =>
    simp only [step]
    split_ifs with hrec
    · have hpos := h.own_of_asks hm hcall hrec.1 hrec.2
      refine h.goes hcall (by simp) (by simp) (by simp) (by simp) ?_
      exact ⟨hrec.1, hf.resolve_left hpos.ne'⟩
    · exact h.goes hcall (by simp) (by simp) (by simp) (by simp) hf
  | cas =>
    simp only [step]
    split_ifs with hlocked
    · exact h.goes hcall (by simp) (by simp) (by simp) (by simp) hf
    · exact h.takes (Bool.eq_false_iff.mpr hlocked)
  | own =>
    have hself : (s.threads self).Holds := .inr (.inl hcall)
    have ht : ({ s.threads self with call := some .count } : MutexThread).Holds := .inr (.inr rfl)
    exact h.stores hself (h.keeps_token hself ht) rfl (fun _ => ⟨rfl, ht⟩) ⟨hf.1, rfl⟩
  | count =>
    have hself : (s.threads self).Holds := .inr (.inr hcall)
    have ht : ({ call := none, depth := (s.threads self).depth + 1 } : MutexThread).Holds := .inl (succ_pos _)
    refine h.stores hself (h.keeps_token hself ht) rfl (fun _ => ⟨hf.2, ht⟩) (.inr ⟨succ_pos _, hf.2, ?_⟩)
    change if s.mutex.type = .recursive then (1 : Word).toInt = ((s.threads self).depth + 1 : ℕ) else (s.threads self).depth + 1 = 1
    rw [hf.1]
    split_ifs <;> rfl
  | bump =>
    refine h.goes hcall (by simp) (by simp) (by simp) (by simp) ?_
    exact ⟨hf.1, hf.2, rfl, (hm _ hcall).2 rfl⟩
  | bumped count =>
    obtain ⟨hrec, ⟨hpos, howner, hdepth⟩, rfl, hroom⟩ := hf
    rw [if_pos hrec] at hdepth
    have ht : ({ call := none, depth := (s.threads self).depth + 1 } : MutexThread).Holds := .inl (succ_pos _)
    refine h.stores (.inl hpos) (h.keeps_token (.inl hpos) ht) rfl (fun _ => ⟨howner, ht⟩) (.inr ⟨succ_pos _, howner, ?_⟩)
    change if s.mutex.type = .recursive then (s.mutex.recursiveCount + 1).toInt = ((s.threads self).depth + 1 : ℕ) else _
    rw [if_pos hrec, toInt_succ hroom, hdepth]
    rfl
  | unlock =>
    simp only [step]
    have hheld : (s.mutex.type ≠ .normal → s.mutex.owner = self) → Held s.mutex self (s.threads self).depth := by
      intro howner
      refine hf.resolve_left fun hz => ?_
      exact (h.own_of_asks hm hcall hz.1 (howner hz.1)).ne' hz.2
    split_ifs with herr hrec hne
    · exact h.goes hcall (by simp) (by simp) (by simp) (by simp) (hf.imp_left And.right)
    · exact h.goes hcall (by simp) (by simp) (by simp) (by simp) (hf.imp_left And.right)
    · exact h.goes hcall (by simp) (by simp) (by simp) (by simp) ⟨hrec, hheld fun _ => not_not.mp hne⟩
    · obtain ⟨hpos, howner, hdepth⟩ := hheld fun hty => by
        cases htype : s.mutex.type with
        | normal => exact absurd htype hty
        | errorcheck => exact not_not.mp fun hz => herr ⟨htype, hz⟩
        | recursive => exact absurd htype hrec
      rw [if_neg hrec] at hdepth
      exact h.goes hcall (by simp) (by simp) (by simp) (by simp) ⟨hdepth, howner⟩
  | drop =>
    refine h.goes hcall (by simp) (by simp) (by simp) (by simp) ?_
    exact ⟨hf.1, hf.2, rfl⟩
  | dropped count =>
    obtain ⟨hrec, ⟨hpos, howner, hdepth⟩, rfl⟩ := hf
    rw [if_pos hrec] at hdepth
    have ht : ({ s.threads self with call := some .left } : MutexThread).Holds := .inl hpos
    refine h.stores (.inl hpos) (h.keeps_token (.inl hpos) ht) rfl (fun _ => ⟨howner, ht⟩) ⟨hrec, hpos, howner, ?_⟩
    change (s.mutex.recursiveCount - 1).toInt = (s.threads self).depth - 1
    rw [toInt_pred (by omega), hdepth]
  | left =>
    obtain ⟨hrec, hpos, howner, hdepth⟩ := hf
    simp only [step]
    split_ifs with hmore
    · refine h.moves (t := { call := none, depth := (s.threads self).depth - 1 }) ?_ (.inr ⟨?_, howner, ?_⟩)
      · rw [holds_iff (by simp) (by simp), holds_iff (by simp [hcall]) (by simp [hcall])]
        simp only
        omega
      · simp only
        omega
      · rw [if_pos hrec, hdepth]
        simp only
        omega
    · exact h.goes hcall (by simp) (by simp) (by simp) (by simp) ⟨by simp only; omega, howner⟩
  | clear =>
    have hself : (s.threads self).Holds := .inl (by omega)
    have ht : ({ s.threads self with call := some .release } : MutexThread).Holds := .inl (by simp only; omega)
    exact h.stores hself (h.keeps_token hself ht) rfl (fun hne => absurd rfl hne) ⟨hf.1, rfl⟩
  | release =>
    have hself : (s.threads self).Holds := .inl (by omega)
    have hdepth : (s.threads self).depth - 1 = 0 := by omega
    refine h.stores (t := { call := none, depth := (s.threads self).depth - 1 }) hself ?_ rfl (fun hne => absurd hf.2 hne) (.inl hdepth)
    refine h.token.drop hself ?_ fun b hb => setThread_holds s _ hb
    rw [setThread_self, holds_iff (by simp) (by simp), hdepth]
    exact lt_irrefl 0

theorem Inv.call (h : s.Inv) {c : MutexCall} (hm : s.Meets (.call self c)) : (s.exec (.call self c)).Inv := by
  cases hcall : (s.threads self).call with
  | some p =>
    simp only [exec, hcall]
    exact h
  | none =>
    have hf := h.facts self
    rw [Fact, hcall] at hf
    simp only [exec, hcall]
    refine h.moves ?_ ?_
    · rw [holds_iff (by cases c <;> simp [MutexCall.entry]) (by cases c <;> simp [MutexCall.entry]),
        holds_iff (by simp [hcall]) (by simp [hcall])]
    · cases c with
      | lock | trylock => exact hf
      | unlock =>
        by_cases hnormal : s.mutex.type = .normal
        · exact .inr (hf.resolve_left (hm rfl hnormal).ne')
        · exact hf.imp_left fun hz => ⟨hnormal, hz⟩

theorem Inv.exec (h : s.Inv) {e : MutexEvent} (hm : s.Meets e) : (s.exec e).Inv := by
  cases e with
  | call self c => exact h.call hm
  | step self =>
    cases hcall : (s.threads self).call with
    | none =>
      simp only [MutexRun.exec, hcall]
      exact h
    | some p => exact h.step hm hcall

theorem start_inv (type : MutexType) : (start type).Inv where
  token := Token.free fun a ha => by simp [start, MutexThread.Holds] at ha
  owner hne := absurd rfl hne
  facts _ := .inl rfl

theorem Inv.sound (h : s.Inv) : s.Sound where
  exclusive a b ha hb := h.token.unique a b (.inl ha) (.inl hb)
  taken := h.token.taken
  once htype a := (h.facts a).once htype

/-- In every run in which the main thread does not take a mutex without owner for its own, no two threads have the mutex
at once, it is free when its holder has unlocked it as often as it locked it, and only its holder finds it its own or
can unlock it. -/
theorem mutex_runs {type : MutexType} {es : List MutexEvent} (hrun : Along exec Meets (start type) es) :
    (es.foldl exec (start type)).Sound ∧
      ∀ self p, (es.foldl exec (start type)).Meets (.step self) → ((es.foldl exec (start type)).threads self).call = some p →
        (es.foldl exec (start type)).StepSound self p := by
  have h : (es.foldl exec (start type)).Inv := by
    exact hrun.relates (R := fun s t => s.Inv → t.Inv) (fun _ h => h) (fun hst htu h => htu (hst h)) (fun _ _ hm h => h.exec hm)
      (start_inv type)
  exact ⟨h.sound, fun self p hm hcall => h.stepSound hm hcall⟩

def recursiveCalls : List MutexEvent :=
  [.call 1 .lock, .step 1, .step 1, .step 1, .step 1, .call 2 .lock, .step 2, .step 2, .call 1 .lock, .step 1, .step 1, .step 1,
    .call 1 .unlock, .step 1, .step 1, .step 1, .step 1, .call 1 .unlock, .step 1, .step 1, .step 1, .step 1, .step 1, .step 1,
    .step 2, .step 2, .step 2]

theorem recursiveCalls_sound : (recursiveCalls.foldl exec (start .recursive)).Sound := by
  have hrun : Along exec Meets (start .recursive) recursiveCalls := by decide
  exact (mutex_runs hrun).1

/-- The main thread has the id 0, so that its lock shows no owner. -/
theorem main_not_exclusive :
    ¬ ∀ type es, Along exec Proper (start type) es → (es.foldl exec (start type)).Sound := by
  intro h
  have hsound := h .recursive [.call 0 .lock, .step 0, .step 0, .step 0, .call 1 .lock, .step 1, .step 1, .step 1, .step 1] (by decide)
  exact absurd (hsound.exclusive 0 1 (by decide) (by decide)) (by decide)

end MutexRun
end RetroOs.Kernel
