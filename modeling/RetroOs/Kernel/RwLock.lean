import RetroOs.Kernel.Mutex

/-! The read-write lock of `pthread_rwlock_rdlock` and its kin: three counters under a mutex, again one access after the
other. -/
namespace RetroOs.Kernel

structure RwLock where
  readers : Word
  writers : Word
  writeWaiters : Word
  writeOwner : Word
  lock : Mutex
  deriving DecidableEq

/-- After `pthread_rwlock_init`. -/
def RwLock.init : RwLock := { readers := 0, writers := 0, writeWaiters := 0, writeOwner := 0, lock := .init .normal }

inductive RwCall where
  | rdlock
  | tryrdlock
  | wrlock
  | trywrlock
  | unlock
  deriving DecidableEq

/-- What follows in a call on the lock when its call on the mutex returns. -/
inductive RwThen where
  | enter
  | again
  | pause
  /-- It was unlocked at the end. -/
  | leave (code : Int)
  deriving DecidableEq

/-- What a thread in a call is about to do: in a call on the mutex, or under the mutex. A count goes up or down in a load
and a store. -/
inductive RwAt where
  | inner (p : MutexAt) (k : RwThen)
  /-- It is in `schedule`. -/
  | yield
  | announce
  | announced (count : Word)
  | testReaders
  | testWriters
  | testWaiters
  | addReader
  | addedReader (count : Word)
  | retire
  | retired (count : Word)
  | addWriter
  | addedWriter (count : Word)
  | setOwner
  | unlockWriter
  | moreWriters
  | moredWriters (count : Word)
  | clearOwner
  | unlockReader
  | dropReader
  | droppedReader (count : Word)
  deriving DecidableEq

def RwCall.tries : RwCall → Bool
  | .tryrdlock | .trywrlock => true
  | _ => false

def RwCall.entry (c : RwCall) : RwAt := .inner (if c.tries then .trylock else .lock) .enter

/-- With the mutex for the first time. -/
def RwCall.first : RwCall → RwAt
  | .rdlock | .tryrdlock => .testWriters
  | .wrlock => .announce
  | .trywrlock => .testReaders
  | .unlock => .unlockWriter

/-- What a call tests first each time around its loop. -/
def RwCall.test : RwCall → RwAt
  | .wrlock | .trywrlock => .testReaders
  | _ => .testWriters

/-- Someone has the lock: the call waits or gives up. -/
def RwCall.busy (c : RwCall) : RwAt := .inner .unlock (if c.tries then .leave eBusy else .pause)

def RwCall.clear : RwCall → RwAt
  | .wrlock => .retire
  | .trywrlock => .addWriter
  | _ => .testWaiters

/-- The end of a call. -/
def RwAt.done : RwAt := .inner .unlock (.leave 0)

namespace RwLock

/-- A call on the mutex returns. -/
def resume (c : RwCall) (code : Int) : RwThen → RwAt ⊕ Int
  | .enter => if c.tries ∧ code ≠ 0 then .inr eBusy else .inl c.first
  | .again => .inl c.test
  | .pause => .inl .yield
  | .leave result => .inr result

/-- One access of thread `self` in a call, and what it does next or the code it returns. -/
def step (rw : RwLock) (self : Word) (c : RwCall) : RwAt → RwLock × (RwAt ⊕ Int)
  | .inner p k =>
    let r := rw.lock.step self p
    ({ rw with lock := r.1 }, r.2.elim (fun q => .inl (.inner q k)) fun code => resume c code k)
  | .yield => (rw, .inl (.inner .lock .again))
  | .announce => (rw, .inl (.announced rw.writeWaiters))
  | .announced count => ({ rw with writeWaiters := count + 1 }, .inl c.test)
  | .testReaders => (rw, .inl (if 0 < rw.readers.toInt then c.busy else .testWriters))
  | .testWriters => (rw, .inl (if 0 < rw.writers.toInt then c.busy else c.clear))
  | .testWaiters => (rw, .inl (if 0 < rw.writeWaiters.toInt then c.busy else .addReader))
  | .addReader => (rw, .inl (.addedReader rw.readers))
  | .addedReader count => ({ rw with readers := count + 1 }, .inl .done)
  | .retire => (rw, .inl (.retired rw.writeWaiters))
  | .retired count => ({ rw with writeWaiters := count - 1 }, .inl .addWriter)
  | .addWriter => (rw, .inl (.addedWriter rw.writers))
  | .addedWriter count => ({ rw with writers := count + 1 }, .inl .setOwner)
  | .setOwner => ({ rw with writeOwner := self }, .inl .done)
  | .unlockWriter => (rw, .inl (if 0 < rw.writers.toInt then .moreWriters else .unlockReader))
  | .moreWriters => (rw, .inl (.moredWriters rw.writers))
  -- The count of writers goes up here too.
  | .moredWriters count => ({ rw with writers := count + 1 }, .inl .clearOwner)
  | .clearOwner => ({ rw with writeOwner := 0 }, .inl .done)
  | .unlockReader => (rw, .inl (if 0 < rw.readers.toInt then .dropReader else .done))
  | .dropReader => (rw, .inl (.droppedReader rw.readers))
  | .droppedReader count => ({ rw with readers := count - 1 }, .inl .done)

end RwLock
end RetroOs.Kernel

/-! Runs of threads that lock and unlock a read-write lock, step by step: its counters are the numbers of those that have
the lock and of the writers that wait, and a writer has it alone. -/
namespace RetroOs.Kernel
open Lib Function RwLock RwCall List

structure RwThread where
  call : Option (RwCall × RwAt)
  reads : ℕ
  writes : ℕ
  deriving DecidableEq

def RwCall.reading : RwCall → Bool
  | .rdlock | .tryrdlock => true
  | _ => false

def RwCall.writing : RwCall → Bool
  | .wrlock | .trywrlock => true
  | _ => false

namespace RwThread

def returned (t : RwThread) : RwCall → RwThread
  | .rdlock | .tryrdlock => { call := none, reads := t.reads + 1, writes := t.writes }
  | .wrlock | .trywrlock => { call := none, reads := t.reads, writes := t.writes + 1 }
  | .unlock =>
    if 0 < t.reads then { call := none, reads := t.reads - 1, writes := t.writes }
    else { call := none, reads := t.reads, writes := t.writes - 1 }

def next (t : RwThread) (c : RwCall) : RwAt ⊕ Int → RwThread
  | .inl p => { t with call := some (c, p) }
  | .inr code => if code = 0 then t.returned c else { t with call := none }

def counted (t : RwThread) : Option RwCall :=
  match t.call with
  | some (c, .inner _ (.leave code)) => if code = 0 then some c else none
  | some (c, .setOwner) | some (c, .clearOwner) => some c
  | _ => none

def settled (t : RwThread) : RwThread := t.counted.elim t t.returned

/-- How often it has the lock for reading, with the call that has counted. -/
def reading (t : RwThread) : ℕ := t.settled.reads

def writing (t : RwThread) : ℕ := t.settled.writes

end RwThread

/-- The places where `pthread_rwlock_wrlock` waits for its turn. -/
def RwAt.waits : RwAt → Bool
  | .inner _ .again | .inner _ .pause | .yield | .testReaders | .testWriters | .retire | .retired _ => true
  | _ => false

def RwThread.waiting (t : RwThread) : ℕ :=
  match t.call with
  | some (.wrlock, p) => if p.waits then 1 else 0
  | _ => 0

/-- The places on the way to take the mutex, those where it is tried first, and those on the way to give it back. -/
def MutexAt.acquires : MutexAt → Bool
  | .lock | .spin | .own | .count => true
  | _ => false

def MutexAt.tries : MutexAt → Bool
  | .trylock | .cas => true
  | _ => false

def MutexAt.gives : MutexAt → Bool
  | .unlock | .clear | .release => true
  | _ => false

/-- The places in a call on the mutex where it is taken. -/
def MutexAt.inside : MutexAt → Bool
  | .own | .count | .unlock | .clear | .release => true
  | _ => false

def RwAt.inside : RwAt → Bool
  | .inner p _ => p.inside
  | .yield => false
  | _ => true

/-- It has the mutex. -/
def RwThread.Inside (t : RwThread) : Prop := ∃ c p, t.call = some (c, p) ∧ p.inside = true

structure RwRun (κ : Type) where
  rw : RwLock
  threads : κ → RwThread

inductive RwEvent (κ : Type) where
  | call (a : κ) (c : RwCall)
  | step (a : κ)

namespace RwRun
variable {κ : Type} [DecidableEq κ]

def setThread (s : RwRun κ) (a : κ) (t : RwThread) : RwRun κ := { s with threads := Function.update s.threads a t }

def exec (tid : κ → Word) (s : RwRun κ) : RwEvent κ → RwRun κ
  | .call a c =>
    match (s.threads a).call with
    | some _ => s
    | none => s.setThread a { s.threads a with call := some (c, c.entry) }
  | .step a =>
    match (s.threads a).call with
    | none => s
    | some (c, p) =>
      let r := s.rw.step (tid a) c p
      { s.setThread a ((s.threads a).next c r.2) with rw := r.1 }

omit [DecidableEq κ] in
def start : RwRun κ := { rw := .init, threads := fun _ => { call := none, reads := 0, writes := 0 } }

omit [DecidableEq κ] in
/-- The lock is unlocked by those who have it. -/
def Proper (s : RwRun κ) : RwEvent κ → Prop
  | .call a c => c = .unlock → 0 < (s.threads a).reads ∨ 0 < (s.threads a).writes
  | .step _ => True

instance (s : RwRun κ) : ∀ e, Decidable (s.Proper e)
  | .call a c => inferInstanceAs (Decidable (c = .unlock → 0 < (s.threads a).reads ∨ 0 < (s.threads a).writes))
  | .step _ => instDecidableTrue

def Meets (s : RwRun κ) : RwEvent κ → Prop
  | .call a c => c = .unlock → 0 < (s.threads a).reads
  | .step a =>
    ((s.threads a).call.map Prod.snd = some .addReader → s.rw.readers.toInt < 2 ^ 31 - 1) ∧
      ((s.threads a).call.map Prod.snd = some .announce → s.rw.writeWaiters.toInt < 2 ^ 31 - 1)

instance (s : RwRun κ) : ∀ e, Decidable (s.Meets e)
  | .call a c => inferInstanceAs (Decidable (c = .unlock → 0 < (s.threads a).reads))
  | .step a => inferInstanceAs (Decidable (((s.threads a).call.map Prod.snd = some .addReader → s.rw.readers.toInt < 2 ^ 31 - 1) ∧
      ((s.threads a).call.map Prod.snd = some .announce → s.rw.writeWaiters.toInt < 2 ^ 31 - 1)))

/-- What is so of the counters and the call at each place. -/
def Fact (rw : RwLock) (c : RwCall) : RwAt → Prop
  | .inner p .enter => p.acquires = true ∨ c.tries = true ∧ p.tries = true
  | .inner p .again => (c = .rdlock ∨ c = .wrlock) ∧ p.acquires = true
  | .inner p .pause => (c = .rdlock ∨ c = .wrlock) ∧ p.gives = true
  | .inner p (.leave _) => p.gives = true
  | .yield => c = .rdlock ∨ c = .wrlock
  | .announce => c = .wrlock
  | .announced count => c = .wrlock ∧ count = rw.writeWaiters ∧ count.toInt < 2 ^ 31 - 1
  | .testReaders => c.writing = true
  | .testWriters => c.reading = true ∨ c.writing = true ∧ rw.readers.toInt ≤ 0
  | .testWaiters | .addReader => c.reading = true ∧ rw.writers.toInt ≤ 0
  | .addedReader count => c.reading = true ∧ rw.writers.toInt ≤ 0 ∧ count = rw.readers ∧ count.toInt < 2 ^ 31 - 1
  | .retire => c = .wrlock ∧ rw.readers.toInt ≤ 0 ∧ rw.writers.toInt ≤ 0
  | .retired count => c = .wrlock ∧ rw.readers.toInt ≤ 0 ∧ rw.writers.toInt ≤ 0 ∧ count = rw.writeWaiters
  | .addWriter => c.writing = true ∧ rw.readers.toInt ≤ 0 ∧ rw.writers.toInt ≤ 0
  | .addedWriter count => c.writing = true ∧ rw.readers.toInt ≤ 0 ∧ rw.writers.toInt ≤ 0 ∧ count = rw.writers
  | .setOwner => c.writing = true
  | .unlockWriter | .unlockReader | .dropReader => c = .unlock
  | .droppedReader count => c = .unlock ∧ count = rw.readers
  | .moreWriters | .moredWriters _ | .clearOwner => False

def ThreadOk (rw : RwLock) (t : RwThread) : Prop :=
  ∀ c p, t.call = some (c, p) → Fact rw c p ∧ (c = .unlock → 0 < t.reads)

/-- The counters are those of the threads, and a writer has the lock alone. -/
structure Counted [Fintype κ] (s : RwRun κ) : Prop where
  readers : s.rw.readers.toInt = tally RwThread.reading s.threads
  writers : s.rw.writers.toInt = tally RwThread.writing s.threads
  waiters : s.rw.writeWaiters.toInt = tally RwThread.waiting s.threads
  one : tally RwThread.writing s.threads ≤ 1
  apart : tally RwThread.writing s.threads = 0 ∨ tally RwThread.reading s.threads = 0

structure Inv [Fintype κ] (s : RwRun κ) : Prop where
  normal : s.rw.lock.type = .normal
  token : Token s.rw.lock.locked fun a => (s.threads a).Inside
  counted : s.Counted
  threads : ∀ a, ThreadOk s.rw (s.threads a)

variable {s : RwRun κ} {a b : κ} {c : RwCall} {p : RwAt} {t : RwThread} {rw rw' : RwLock} {m : Mutex} {tid : κ → Word}

theorem setThread_self (s : RwRun κ) (a : κ) (t : RwThread) : (s.setThread a t).threads a = t := Function.update_self ..

theorem setThread_other (s : RwRun κ) (t : RwThread) (hne : b ≠ a) : (s.setThread a t).threads b = s.threads b :=
  Function.update_of_ne hne ..

theorem exec_step (hcall : (s.threads a).call = some (c, p)) :
    s.exec tid (.step a) =
      { s.setThread a ((s.threads a).next c (s.rw.step (tid a) c p).2) with rw := (s.rw.step (tid a) c p).1 } := by
  simp only [exec, hcall]

omit [DecidableEq κ] in
theorem inside_iff (hcall : t.call = some (c, p)) : t.Inside ↔ p.inside = true := by
  constructor
  · rintro ⟨c', p', h, hin⟩
    obtain ⟨-, rfl⟩ := Prod.mk.inj (Option.some.inj (hcall.symm.trans h))
    exact hin
  · exact fun hin => ⟨c, p, hcall, hin⟩

omit [DecidableEq κ] in
theorem not_inside (hcall : t.call = none) : ¬ t.Inside := by
  rintro ⟨c, p, h, -⟩
  rw [hcall] at h
  cases h

theorem ThreadOk.frame (h : ThreadOk rw t) (hno : ¬ t.Inside) : ThreadOk rw' t := by
  intro c p hcall
  obtain ⟨hfact, hunlock⟩ := h c p hcall
  refine ⟨?_, hunlock⟩
  rw [inside_iff hcall] at hno
  cases p with
  | inner p k => cases k <;> exact hfact
  | yield => exact hfact
  | _ => exact absurd rfl hno

theorem ThreadOk.of_lock (h : ThreadOk rw t) (m : Mutex) : ThreadOk { rw with lock := m } t := by
  intro c p hcall
  obtain ⟨hfact, hunlock⟩ := h c p hcall
  refine ⟨?_, hunlock⟩
  cases p with
  | inner p k => cases k <;> exact hfact
  | _ => exact hfact

variable [Fintype κ] {count : Word} {k : RwThen} {q r : MutexAt}

theorem Inv.goes (h : s.Inv) (htype : m.type = .normal) (htoken : Token m.locked fun b => ((s.setThread a t).threads b).Inside)
    (hreading : t.reading = (s.threads a).reading) (hwriting : t.writing = (s.threads a).writing)
    (hwaiting : t.waiting = (s.threads a).waiting) (hok : ThreadOk s.rw t) :
    Inv { s.setThread a t with rw := { s.rw with lock := m } } := by
  refine ⟨htype, htoken, ?_, fun b => ?_⟩
  · have hr := tally_same (f := RwThread.reading) hreading
    have hw := tally_same (f := RwThread.writing) hwriting
    have hn := tally_same (f := RwThread.waiting) hwaiting
    have hc := h.counted
    refine ⟨?_, ?_, ?_, ?_, ?_⟩ <;> simp only [setThread, hr, hw, hn]
    · exact hc.readers
    · exact hc.writers
    · exact hc.waiters
    · exact hc.one
    · exact hc.apart
  · apply ThreadOk.of_lock
    by_cases hb : b = a
    · subst hb
      rwa [setThread_self]
    · rw [setThread_other s t hb]
      exact h.threads b

theorem Inv.under (h : s.Inv) (hin : (s.threads a).Inside) (hin' : t.Inside) (hlock : rw.lock = s.rw.lock)
    (hcounted : Counted { s.setThread a t with rw }) (hok : ThreadOk rw t) : Inv { s.setThread a t with rw } := by
  refine ⟨by rw [hlock]; exact h.normal, ?_, hcounted, fun b => ?_⟩
  · rw [hlock]
    refine h.token.keep fun b => ?_
    by_cases hb : b = a
    · subst hb
      rw [setThread_self]
      exact iff_of_true hin' hin
    · rw [setThread_other s t hb]
  · by_cases hb : b = a
    · subst hb
      rwa [setThread_self]
    · rw [setThread_other s t hb]
      exact (h.threads b).frame (h.token.not_holds hin hb)

theorem Inv.keeps_token (h : s.Inv) (hlocked : m.locked = s.rw.lock.locked) (hin : t.Inside ↔ (s.threads a).Inside) :
    Token m.locked fun b => ((s.setThread a t).threads b).Inside := by
  rw [hlocked]
  refine h.token.keep fun b => ?_
  by_cases hb : b = a
  · subst hb
    rwa [setThread_self]
  · rw [setThread_other s t hb]

omit [DecidableEq κ] [Fintype κ] in
private theorem inner_same (hcall : t.call = some (c, .inner q k)) :
    let t' : RwThread := { t with call := some (c, .inner r k) }
    t'.reading = t.reading ∧ t'.writing = t.writing ∧ t'.waiting = t.waiting := by
  have hcounted : ({ t with call := some (c, .inner r k) } : RwThread).counted = t.counted := by
    simp only [RwThread.counted, hcall]
    cases k <;> rfl
  have hsettled : ∀ d, ({ t with call := some (c, .inner r k) } : RwThread).returned d = t.returned d := fun d => by cases d <;> rfl
  refine ⟨?_, ?_, ?_⟩
  · simp only [RwThread.reading, RwThread.settled, hcounted]
    cases t.counted with
    | none => rfl
    | some d => exact congrArg RwThread.reads (hsettled d)
  · simp only [RwThread.writing, RwThread.settled, hcounted]
    cases t.counted with
    | none => rfl
    | some d => exact congrArg RwThread.writes (hsettled d)
  · simp only [RwThread.waiting, hcall]
    cases c <;> cases k <;> rfl

theorem Inv.inner (h : s.Inv) (hcall : (s.threads a).call = some (c, .inner q k)) (htype : m.type = .normal)
    (htoken : Token m.locked fun b => ((s.setThread a { s.threads a with call := some (c, .inner r k) }).threads b).Inside)
    (hfact : Fact s.rw c (.inner r k)) :
    Inv { s.setThread a { s.threads a with call := some (c, .inner r k) } with rw := { s.rw with lock := m } } := by
  obtain ⟨hr, hw, hn⟩ := inner_same (r := r) hcall
  refine h.goes htype htoken hr hw hn ?_
  intro d p hp
  obtain ⟨rfl, rfl⟩ := Prod.mk.inj (Option.some.inj hp)
  exact ⟨hfact, (h.threads a c _ hcall).2⟩

omit [DecidableEq κ] [Fintype κ] in
theorem Fact.move (h : Fact rw c (.inner q k)) (hacquires : q.acquires = true → r.acquires = true)
    (htries : q.tries = true → r.tries = true ∨ r.acquires = true) (hgives : q.gives = true → r.gives = true) :
    Fact rw c (.inner r k) := by
  cases k with
  | enter =>
    rcases h with hq | ⟨hc, hq⟩
    · exact .inl (hacquires hq)
    · exact (htries hq).elim (fun hr => .inr ⟨hc, hr⟩) .inl
  | again => exact ⟨h.1, hacquires h.2⟩
  | pause => exact ⟨h.1, hgives h.2⟩
  | leave code => exact hgives h

omit [DecidableEq κ] [Fintype κ] in
theorem Fact.place (h : Fact rw c (.inner q k)) :
    q.acquires = true ∧ (k = .enter ∨ k = .again) ∨ c.tries = true ∧ q.tries = true ∧ k = .enter ∨
      q.gives = true ∧ (k = .pause ∧ (c = .rdlock ∨ c = .wrlock) ∨ ∃ code, k = .leave code) := by
  cases k with
  | enter =>
    rcases h with hq | ⟨hc, hq⟩
    · exact .inl ⟨hq, .inl rfl⟩
    · exact .inr (.inl ⟨hc, hq, rfl⟩)
  | again => exact .inl ⟨h.2, .inr rfl⟩
  | pause => exact .inr (.inr ⟨h.2, .inl ⟨rfl, h.1⟩⟩)
  | leave code => exact .inr (.inr ⟨h, .inr ⟨code, rfl⟩⟩)

theorem Inv.inner_goes (h : s.Inv) (hcall : (s.threads a).call = some (c, .inner q k))
    (hstep : s.rw.lock.step (tid a) q = (m, .inl r)) (htype : m.type = .normal) (hlocked : m.locked = s.rw.lock.locked)
    (hinside : r.inside = q.inside) (hacquires : q.acquires = true → r.acquires = true)
    (htries : q.tries = true → r.tries = true ∨ r.acquires = true) (hgives : q.gives = true → r.gives = true) :
    (s.exec tid (.step a)).Inv := by
  have heq : s.rw.step (tid a) c (.inner q k) = ({ s.rw with lock := m }, .inl (.inner r k)) := by simp [RwLock.step, hstep]
  rw [exec_step hcall, heq]
  refine h.inner hcall htype (h.keeps_token hlocked ?_) ((h.threads a c _ hcall).1.move hacquires htries hgives)
  rw [inside_iff hcall, inside_iff (c := c) rfl]
  exact Eq.congr_left hinside

theorem Inv.inner_takes (h : s.Inv) (hcall : (s.threads a).call = some (c, .inner q k))
    (hstep : s.rw.lock.step (tid a) q = ({ s.rw.lock with locked := true }, .inl .own)) (hfree : s.rw.lock.locked = false)
    (hgives : q.gives = false) : (s.exec tid (.step a)).Inv := by
  have heq : s.rw.step (tid a) c (.inner q k) = ({ s.rw with lock := { s.rw.lock with locked := true } }, .inl (.inner .own k)) := by
    simp [RwLock.step, hstep]
  have htoken := h.token
  rw [hfree] at htoken
  rw [exec_step hcall, heq]
  refine h.inner (r := .own) hcall h.normal (htoken.take (a := a) ?_ fun b hb => ?_)
    ((h.threads a c _ hcall).1.move (fun _ => rfl) (fun _ => .inr rfl) fun hz => absurd (hgives.symm.trans hz) Bool.false_ne_true)
  · rw [setThread_self]
    exact (inside_iff (c := c) rfl).mpr rfl
  · rw [setThread_other s _ hb]

omit [DecidableEq κ] [Fintype κ] in
theorem settled_of (h : t.counted = none) : t.settled = t := by rw [RwThread.settled, h, Option.elim_none]

omit [DecidableEq κ] [Fintype κ] in
theorem reading_of (h : t.counted = none) : t.reading = t.reads := by rw [RwThread.reading, settled_of h]

omit [DecidableEq κ] [Fintype κ] in
theorem writing_of (h : t.counted = none) : t.writing = t.writes := by rw [RwThread.writing, settled_of h]

theorem Inv.inner_count (h : s.Inv) (hcall : (s.threads a).call = some (c, .inner .count k)) :
    (s.exec tid (.step a)).Inv := by
  obtain ⟨hfact, hunlock⟩ := h.threads a c _ hcall
  obtain ⟨p, hp, hin, hcounted, hwaits, hfact'⟩ : ∃ p, RwLock.resume c 0 k = .inl p ∧ p.inside = true ∧
      ({ s.threads a with call := some (c, p) } : RwThread).counted = none ∧
      (c = .wrlock → p.waits = (RwAt.inner .count k).waits) ∧ Fact s.rw c p := by
    rcases hfact.place with ⟨-, rfl | rfl⟩ | ⟨-, hq, -⟩ | ⟨hq, -⟩
    · refine ⟨c.first, by simp [RwLock.resume], ?_, ?_, ?_, ?_⟩ <;> cases c <;> simp [RwCall.first, RwAt.inside, RwThread.counted, RwAt.waits,
        Fact, RwCall.reading, RwCall.writing]
    · refine ⟨c.test, rfl, ?_, ?_, ?_, ?_⟩ <;> cases c <;> simp [RwCall.test, RwAt.inside, RwThread.counted, RwAt.waits, Fact, RwCall.reading,
        RwCall.writing] at hfact ⊢
    · cases hq
    · cases hq
  have hstep : s.rw.step (tid a) c (.inner .count k) = ({ s.rw with lock := { s.rw.lock with recursiveCount := 1 } }, .inl p) := by
    simp only [RwLock.step, Mutex.step, Sum.elim_inr, hp]
  have hbefore : (s.threads a).counted = none := by
    simp only [RwThread.counted, hcall]
    rcases hfact.place with ⟨-, rfl | rfl⟩ | ⟨-, hq, -⟩ | ⟨hq, -⟩
    · rfl
    · rfl
    · cases hq
    · cases hq
  rw [exec_step hcall, hstep]
  refine h.goes h.normal (h.keeps_token rfl ?_) ?_ ?_ ?_ ?_
  · rw [inside_iff hcall, RwThread.next, inside_iff (c := c) rfl, hin]
    exact iff_of_true rfl rfl
  · rw [RwThread.next, RwThread.reading, settled_of hcounted, RwThread.reading, settled_of hbefore]
  · rw [RwThread.next, RwThread.writing, settled_of hcounted, RwThread.writing, settled_of hbefore]
  · simp only [RwThread.next, RwThread.waiting, hcall]
    cases c with
    | wrlock => simp only [hwaits rfl]
    | _ => rfl
  · intro d q hq
    obtain ⟨rfl, rfl⟩ := Prod.mk.inj (Option.some.inj hq)
    exact ⟨hfact', hunlock⟩

theorem Inv.inner_busy (h : s.Inv) (hcall : (s.threads a).call = some (c, .inner .cas k)) (hlocked : s.rw.lock.locked = true) :
    (s.exec tid (.step a)).Inv := by
  obtain ⟨hfact, hunlock⟩ := h.threads a c _ hcall
  rcases hfact.place with ⟨hq, -⟩ | ⟨htries, -, rfl⟩ | ⟨hq, -⟩
  · cases hq
  · have hstep : s.rw.step (tid a) c (.inner .cas .enter) = (s.rw, .inr eBusy) := by
      simp [RwLock.step, Mutex.step, hlocked, RwLock.resume, htries, eBusy]
    have hbefore : (s.threads a).counted = none := by simp only [RwThread.counted, hcall]
    rw [exec_step hcall, hstep]
    refine h.goes (m := s.rw.lock) h.normal (h.keeps_token rfl ?_) ?_ ?_ ?_ ?_
    · exact iff_of_false (not_inside rfl) (by rw [inside_iff hcall]; exact Bool.false_ne_true)
    · rw [RwThread.reading, RwThread.reading, settled_of hbefore]
      rfl
    · rw [RwThread.writing, RwThread.writing, settled_of hbefore]
      rfl
    · simp only [RwThread.waiting, hcall]
      cases c <;> rfl
    · intro d q hq
      cases hq
  · cases hq

theorem Inv.inner_release (h : s.Inv) (hcall : (s.threads a).call = some (c, .inner .release k)) :
    (s.exec tid (.step a)).Inv := by
  obtain ⟨hfact, hunlock⟩ := h.threads a c _ hcall
  have hin : (s.threads a).Inside := (inside_iff hcall).mpr rfl
  rw [exec_step hcall]
  rcases hfact.place with ⟨hq, -⟩ | ⟨-, hq, -⟩ | ⟨-, ⟨rfl, hc⟩ | ⟨code, rfl⟩⟩
  · cases hq
  · cases hq
  · have hbefore : (s.threads a).counted = none := by simp only [RwThread.counted, hcall]
    have hafter : ({ s.threads a with call := some (c, .yield) } : RwThread).counted = none := rfl
    refine h.goes (m := { s.rw.lock with locked := false }) (t := { s.threads a with call := some (c, .yield) }) h.normal
      (h.token.drop hin ?_ fun b hb => by rw [setThread_other s _ hb]) ?_ ?_ ?_ ?_
    · rw [setThread_self, inside_iff (c := c) rfl]
      exact Bool.false_ne_true
    · rw [RwThread.reading, settled_of hafter, RwThread.reading, settled_of hbefore]
    · rw [RwThread.writing, settled_of hafter, RwThread.writing, settled_of hbefore]
    · simp only [RwThread.waiting, hcall]
      cases c <;> rfl
    · intro d q hq
      obtain ⟨rfl, rfl⟩ := Prod.mk.inj (Option.some.inj hq)
      exact ⟨hc, hunlock⟩
  · have hnone : ((s.threads a).next c (.inr code)).call = none := by
      rw [RwThread.next]
      split_ifs
      · cases c <;> simp only [RwThread.returned]
        split_ifs <;> rfl
      · rfl
    have hsettled : (s.threads a).settled.reads = ((s.threads a).next c (.inr code)).reads ∧
        (s.threads a).settled.writes = ((s.threads a).next c (.inr code)).writes := by
      simp only [RwThread.settled, RwThread.counted, hcall, RwThread.next]
      split_ifs <;> exact ⟨rfl, rfl⟩
    have hafter : ((s.threads a).next c (.inr code)).counted = none := by simp only [RwThread.counted, hnone]
    refine h.goes (m := { s.rw.lock with locked := false }) (t := (s.threads a).next c (.inr code)) h.normal
      (h.token.drop hin ?_ fun b hb => by rw [setThread_other s _ hb]) ?_ ?_ ?_ ?_
    · rw [setThread_self]
      exact not_inside hnone
    · rw [RwThread.reading, settled_of hafter, RwThread.reading, hsettled.1]
    · rw [RwThread.writing, settled_of hafter, RwThread.writing, hsettled.2]
    · simp only [RwThread.waiting, hcall, hnone]
      cases c <;> rfl
    · intro d q hq
      rw [hnone] at hq
      cases hq

theorem Inv.step_inner (h : s.Inv) (hcall : (s.threads a).call = some (c, .inner q k)) :
    (s.exec tid (.step a)).Inv := by
  have hnormal := h.normal
  have hplace := (h.threads a c _ hcall).1.place
  cases q with
  | lock =>
    have hstep : s.rw.lock.step (tid a) .lock = (s.rw.lock, .inl .spin) := by simp [Mutex.step, hnormal]
    exact h.inner_goes hcall hstep hnormal rfl rfl (fun _ => rfl) (fun _ => .inr rfl) fun hz => by cases hz
  | trylock =>
    have hstep : s.rw.lock.step (tid a) .trylock = (s.rw.lock, .inl .cas) := by simp [Mutex.step, hnormal]
    exact h.inner_goes hcall hstep hnormal rfl rfl (fun hz => by cases hz) (fun _ => .inl rfl) fun hz => by cases hz
  | spin =>
    cases hlocked : s.rw.lock.locked with
    | true => exact h.inner_goes hcall (by simp [Mutex.step, hlocked]) hnormal rfl rfl (fun _ => rfl) (fun _ => .inr rfl) fun hz => by cases hz
    | false => exact h.inner_takes hcall (by simp [Mutex.step, hlocked]) hlocked rfl
  | cas =>
    cases hlocked : s.rw.lock.locked with
    | true => exact h.inner_busy hcall hlocked
    | false => exact h.inner_takes hcall (by simp [Mutex.step, hlocked]) hlocked rfl
  | own => exact h.inner_goes hcall rfl hnormal rfl rfl (fun _ => rfl) (fun _ => .inr rfl) fun hz => by cases hz
  | count => exact h.inner_count hcall
  | unlock =>
    have hstep : s.rw.lock.step (tid a) .unlock = (s.rw.lock, .inl .clear) := by simp [Mutex.step, hnormal]
    exact h.inner_goes hcall hstep hnormal rfl rfl (fun hz => by cases hz) (fun hz => by cases hz) fun _ => rfl
  | clear => exact h.inner_goes hcall rfl hnormal rfl rfl (fun hz => by cases hz) (fun hz => by cases hz) fun _ => rfl
  | release => exact h.inner_release hcall
  | bump | bumped _ | drop | dropped _ | left =>
    rcases hplace with ⟨hq, -⟩ | ⟨-, hq, -⟩ | ⟨hq, -⟩ <;> cases hq

theorem Counted.change (hc : s.Counted) (hreaders : rw.readers.toInt + (s.threads a).reading = s.rw.readers.toInt + t.reading)
    (hwriters : rw.writers.toInt + (s.threads a).writing = s.rw.writers.toInt + t.writing)
    (hwaiters : rw.writeWaiters.toInt + (s.threads a).waiting = s.rw.writeWaiters.toInt + t.waiting)
    (hone : tally RwThread.writing s.threads + t.writing ≤ 1 + (s.threads a).writing)
    (hapart : tally RwThread.writing s.threads + t.writing = (s.threads a).writing ∨
      tally RwThread.reading s.threads + t.reading = (s.threads a).reading) :
    Counted { s.setThread a t with rw } := by
  have hr := tally_update RwThread.reading s.threads a t
  have hw := tally_update RwThread.writing s.threads a t
  have hn := tally_update RwThread.waiting s.threads a t
  obtain ⟨hcr, hcw, hcn, -, -⟩ := hc
  refine ⟨?_, ?_, ?_, ?_, ?_⟩ <;> simp only [setThread] <;> omega

theorem Inv.looks (h : s.Inv) {q : RwAt} (hcall : (s.threads a).call = some (c, p)) (hstep : s.rw.step (tid a) c p = (s.rw, .inl q))
    (hin : p.inside = true) (hin' : q.inside = true) (hbefore : (s.threads a).counted = none)
    (hafter : ({ s.threads a with call := some (c, q) } : RwThread).counted = none) (hwaits : c = .wrlock → q.waits = p.waits)
    (hfact : Fact s.rw c q) : (s.exec tid (.step a)).Inv := by
  rw [exec_step hcall, hstep]
  refine h.goes (m := s.rw.lock) h.normal (h.keeps_token rfl ?_) ?_ ?_ ?_ ?_
  · rw [inside_iff hcall, RwThread.next, inside_iff (c := c) rfl, hin, hin']
  · rw [RwThread.next, RwThread.reading, settled_of hafter, RwThread.reading, settled_of hbefore]
  · rw [RwThread.next, RwThread.writing, settled_of hafter, RwThread.writing, settled_of hbefore]
  · simp only [RwThread.next, RwThread.waiting, hcall]
    cases c with
    | wrlock => simp only [hwaits rfl]
    | _ => rfl
  · intro d r hr
    obtain ⟨rfl, rfl⟩ := Prod.mk.inj (Option.some.inj hr)
    exact ⟨hfact, (h.threads a c p hcall).2⟩

theorem Inv.step_yield (h : s.Inv) (hcall : (s.threads a).call = some (c, .yield)) : (s.exec tid (.step a)).Inv := by
  obtain ⟨hfact, hunlock⟩ := h.threads a c _ hcall
  have hbefore : (s.threads a).counted = none := by simp only [RwThread.counted, hcall]
  have hafter : ({ s.threads a with call := some (c, .inner .lock .again) } : RwThread).counted = none := rfl
  rw [exec_step hcall]
  refine h.goes (m := s.rw.lock) (t := { s.threads a with call := some (c, .inner .lock .again) }) h.normal (h.keeps_token rfl ?_) ?_ ?_ ?_ ?_
  · rw [inside_iff hcall, inside_iff (c := c) rfl]
    rfl
  · rw [RwThread.reading, settled_of hafter, RwThread.reading, settled_of hbefore]
  · rw [RwThread.writing, settled_of hafter, RwThread.writing, settled_of hbefore]
  · simp only [RwThread.waiting, hcall]
    cases c <;> rfl
  · intro d r hr
    obtain ⟨rfl, rfl⟩ := Prod.mk.inj (Option.some.inj hr)
    exact ⟨⟨hfact, rfl⟩, hunlock⟩

theorem Inv.looks_busy (h : s.Inv) (hcall : (s.threads a).call = some (c, p)) (hstep : s.rw.step (tid a) c p = (s.rw, .inl c.busy))
    (hin : p.inside = true) (hbefore : (s.threads a).counted = none) (hwaits : c = .wrlock → p.waits = true)
    (hc : c.reading = true ∨ c.writing = true) : (s.exec tid (.step a)).Inv := by
  refine h.looks hcall hstep hin ?_ hbefore ?_ (fun hz => ?_) ?_
  · rfl
  · cases c <;> simp [RwCall.busy, RwCall.tries, RwThread.counted, eBusy]
  · rw [hwaits hz, hz]
    rfl
  · cases c <;> simp [RwCall.busy, RwCall.tries, Fact, MutexAt.gives, RwCall.reading, RwCall.writing] at hc ⊢

theorem Inv.step_testReaders (h : s.Inv) (hcall : (s.threads a).call = some (c, .testReaders)) : (s.exec tid (.step a)).Inv := by
  obtain ⟨hfact, -⟩ := h.threads a c _ hcall
  have hbefore : (s.threads a).counted = none := by simp only [RwThread.counted, hcall]
  by_cases hbusy : 0 < s.rw.readers.toInt
  · exact h.looks_busy hcall (by simp [RwLock.step, hbusy]) rfl hbefore (fun _ => rfl) (.inr hfact)
  · exact h.looks (q := .testWriters) hcall (by simp only [RwLock.step, if_neg hbusy]) rfl rfl hbefore rfl (fun _ => rfl)
      (.inr ⟨hfact, not_lt.mp hbusy⟩)

theorem Inv.step_testWriters (h : s.Inv) (hcall : (s.threads a).call = some (c, .testWriters)) : (s.exec tid (.step a)).Inv := by
  obtain ⟨hfact, -⟩ := h.threads a c _ hcall
  have hbefore : (s.threads a).counted = none := by simp only [RwThread.counted, hcall]
  by_cases hbusy : 0 < s.rw.writers.toInt
  · exact h.looks_busy hcall (by simp [RwLock.step, hbusy]) rfl hbefore (fun _ => rfl) (hfact.imp_right And.left)
  · have hno := not_lt.mp hbusy
    refine h.looks (q := c.clear) hcall (by simp only [RwLock.step, if_neg hbusy]) rfl ?_ hbefore ?_ ?_ ?_
    · cases c <;> rfl
    · cases c <;> rfl
    · rintro rfl
      rfl
    · cases c with
      | rdlock | tryrdlock => exact ⟨rfl, hno⟩
      | wrlock => exact ⟨rfl, (hfact.resolve_left Bool.false_ne_true).2, hno⟩
      | trywrlock => exact ⟨rfl, (hfact.resolve_left Bool.false_ne_true).2, hno⟩
      | unlock => rcases hfact with hz | ⟨hz, -⟩ <;> cases hz

theorem Inv.step_testWaiters (h : s.Inv) (hcall : (s.threads a).call = some (c, .testWaiters)) : (s.exec tid (.step a)).Inv := by
  obtain ⟨hfact, -⟩ := h.threads a c _ hcall
  have hbefore : (s.threads a).counted = none := by simp only [RwThread.counted, hcall]
  have hread : c ≠ .wrlock := by
    rintro rfl
    exact absurd hfact.1 Bool.false_ne_true
  by_cases hbusy : 0 < s.rw.writeWaiters.toInt
  · exact h.looks_busy hcall (by simp [RwLock.step, hbusy]) rfl hbefore (fun hz => absurd hz hread) (.inl hfact.1)
  · exact h.looks (q := .addReader) hcall (by simp only [RwLock.step, if_neg hbusy]) rfl rfl hbefore rfl (fun hz => absurd hz hread) hfact

omit [DecidableEq κ] in
theorem Counted.no_writer (hc : s.Counted) (hpos : 0 < (s.threads a).reading) : ¬ 0 < s.rw.writers.toInt := by
  have hle := le_tally RwThread.reading s.threads a
  have hw := hc.writers
  have hapart := hc.apart
  omega

theorem Inv.step_unlock (h : s.Inv) (hcall : (s.threads a).call = some (c, p)) (hp : p = .unlockWriter ∨ p = .unlockReader ∨ p = .dropReader) :
    (s.exec tid (.step a)).Inv := by
  obtain ⟨hfact, hunlock⟩ := h.threads a c _ hcall
  have hbefore : (s.threads a).counted = none := by
    rcases hp with rfl | rfl | rfl <;> simp only [RwThread.counted, hcall]
  have hreading : (s.threads a).reading = (s.threads a).reads := by rw [RwThread.reading, settled_of hbefore]
  rcases hp with rfl | rfl | rfl
  · have hno := h.counted.no_writer (a := a) (hreading ▸ hunlock hfact)
    exact h.looks (q := .unlockReader) hcall (by simp only [RwLock.step, if_neg hno]) rfl rfl hbefore rfl (fun _ => rfl) hfact
  · have hpos : 0 < s.rw.readers.toInt := by
      have hle := le_tally RwThread.reading s.threads a
      have hr := h.counted.readers
      have hreads := hunlock hfact
      omega
    exact h.looks (q := .dropReader) hcall (by simp only [RwLock.step, if_pos hpos]) rfl rfl hbefore rfl (fun _ => rfl) hfact
  · exact h.looks (q := .droppedReader s.rw.readers) hcall rfl rfl rfl hbefore rfl (fun _ => rfl) ⟨hfact, rfl⟩

theorem Inv.step_load (h : s.Inv) (hm : s.Meets (.step a)) (hcall : (s.threads a).call = some (c, p))
    (hp : p = .announce ∨ p = .addReader ∨ p = .retire ∨ p = .addWriter) : (s.exec tid (.step a)).Inv := by
  obtain ⟨hfact, -⟩ := h.threads a c _ hcall
  have hbefore : (s.threads a).counted = none := by
    rcases hp with rfl | rfl | rfl | rfl <;> simp only [RwThread.counted, hcall]
  rw [Meets, hcall] at hm
  rcases hp with rfl | rfl | rfl | rfl
  · exact h.looks (q := .announced s.rw.writeWaiters) hcall rfl rfl rfl hbefore rfl (fun _ => rfl) ⟨hfact, rfl, hm.2 rfl⟩
  · exact h.looks (q := .addedReader s.rw.readers) hcall rfl rfl rfl hbefore rfl (fun _ => rfl) ⟨hfact.1, hfact.2, rfl, hm.1 rfl⟩
  · exact h.looks (q := .retired s.rw.writeWaiters) hcall rfl rfl rfl hbefore rfl (fun _ => rfl) ⟨hfact.1, hfact.2.1, hfact.2.2, rfl⟩
  · exact h.looks (q := .addedWriter s.rw.writers) hcall rfl rfl rfl hbefore rfl (fun _ => rfl) ⟨hfact.1, hfact.2.1, hfact.2.2, rfl⟩

theorem Inv.stores (h : s.Inv) {q : RwAt} (hcall : (s.threads a).call = some (c, p)) (hstep : s.rw.step (tid a) c p = (rw, .inl q))
    (hin : p.inside = true) (hin' : q.inside = true) (hlock : rw.lock = s.rw.lock)
    (hcounted : Counted { s.setThread a { s.threads a with call := some (c, q) } with rw }) (hfact : Fact rw c q) :
    (s.exec tid (.step a)).Inv := by
  rw [exec_step hcall, hstep]
  refine h.under ((inside_iff hcall).mpr hin) ((inside_iff (c := c) rfl).mpr hin') hlock hcounted ?_
  intro d r hr
  obtain ⟨rfl, rfl⟩ := Prod.mk.inj (Option.some.inj hr)
  exact ⟨hfact, (h.threads a c p hcall).2⟩

theorem Inv.step_announced (h : s.Inv) (hcall : (s.threads a).call = some (c, .announced count)) :
    (s.exec tid (.step a)).Inv := by
  obtain ⟨⟨rfl, rfl, hroom⟩, -⟩ := h.threads a c _ hcall
  have hbefore : (s.threads a).counted = none := by simp only [RwThread.counted, hcall]
  have hreading : ({ s.threads a with call := some (.wrlock, .testReaders) } : RwThread).reading = (s.threads a).reads := rfl
  have hwriting : ({ s.threads a with call := some (.wrlock, .testReaders) } : RwThread).writing = (s.threads a).writes := rfl
  have hone := h.counted.one
  have hapart := h.counted.apart
  have hwait : (s.threads a).waiting = 0 := by simp only [RwThread.waiting, hcall, RwAt.waits, Bool.false_eq_true, if_false]
  have hwait' : ({ s.threads a with call := some (.wrlock, .testReaders) } : RwThread).waiting = 1 := rfl
  refine h.stores (q := .testReaders) hcall rfl rfl rfl rfl (h.counted.change ?_ ?_ ?_ ?_ ?_) rfl
  · rw [reading_of hbefore, hreading]
  · rw [writing_of hbefore, hwriting]
  · rw [hwait, hwait', toInt_succ hroom]
    omega
  · rw [writing_of hbefore, hwriting]
    omega
  · rw [reading_of hbefore, hreading, writing_of hbefore, hwriting]
    omega

theorem Inv.step_retired (h : s.Inv) (hcall : (s.threads a).call = some (c, .retired count)) :
    (s.exec tid (.step a)).Inv := by
  obtain ⟨⟨rfl, hreaders, hwriters, rfl⟩, -⟩ := h.threads a c _ hcall
  have hbefore : (s.threads a).counted = none := by simp only [RwThread.counted, hcall]
  have hreading : ({ s.threads a with call := some (.wrlock, .addWriter) } : RwThread).reading = (s.threads a).reads := rfl
  have hwriting : ({ s.threads a with call := some (.wrlock, .addWriter) } : RwThread).writing = (s.threads a).writes := rfl
  have hone := h.counted.one
  have hapart := h.counted.apart
  have hwait : (s.threads a).waiting = 1 := by simp only [RwThread.waiting, hcall, RwAt.waits, if_true]
  have hwait' : ({ s.threads a with call := some (.wrlock, .addWriter) } : RwThread).waiting = 0 := rfl
  have hpos : 0 < s.rw.writeWaiters.toInt := by
    have hle := le_tally RwThread.waiting s.threads a
    have hn := h.counted.waiters
    omega
  refine h.stores (q := .addWriter) hcall rfl rfl rfl rfl (h.counted.change ?_ ?_ ?_ ?_ ?_) ⟨rfl, hreaders, hwriters⟩
  · rw [reading_of hbefore, hreading]
  · rw [writing_of hbefore, hwriting]
  · rw [hwait, hwait', toInt_pred hpos]
    omega
  · rw [writing_of hbefore, hwriting]
    omega
  · rw [reading_of hbefore, hreading, writing_of hbefore, hwriting]
    omega

theorem settled_done (t : RwThread) (c : RwCall) : ({ t with call := some (c, .done) } : RwThread).settled = t.returned c := by
  cases c <;> rfl

theorem Inv.step_addedReader (h : s.Inv) (hcall : (s.threads a).call = some (c, .addedReader count)) :
    (s.exec tid (.step a)).Inv := by
  obtain ⟨⟨hc, hwriters, rfl, hroom⟩, -⟩ := h.threads a c _ hcall
  have hbefore : (s.threads a).counted = none := by simp only [RwThread.counted, hcall]
  have hreading : ({ s.threads a with call := some (c, .done) } : RwThread).reading = (s.threads a).reads + 1 := by
    rw [RwThread.reading, settled_done]
    cases c <;> first | rfl | cases hc
  have hwriting : ({ s.threads a with call := some (c, .done) } : RwThread).writing = (s.threads a).writes := by
    rw [RwThread.writing, settled_done]
    cases c <;> first | rfl | cases hc
  have hwait : (s.threads a).waiting = ({ s.threads a with call := some (c, .done) } : RwThread).waiting := by
    simp only [RwThread.waiting, hcall]
    cases c <;> rfl
  have hw := h.counted.writers
  refine h.stores (q := .done) hcall rfl rfl rfl rfl (h.counted.change ?_ ?_ ?_ ?_ ?_) rfl
  · rw [reading_of hbefore, hreading, toInt_succ hroom]
    omega
  · rw [writing_of hbefore, hwriting]
  · rw [hwait]
  · rw [writing_of hbefore, hwriting]
    omega
  · rw [writing_of hbefore, hwriting]
    omega

theorem Inv.step_addedWriter (h : s.Inv) (hcall : (s.threads a).call = some (c, .addedWriter count)) :
    (s.exec tid (.step a)).Inv := by
  obtain ⟨⟨hc, hreaders, hwriters, rfl⟩, -⟩ := h.threads a c _ hcall
  have hbefore : (s.threads a).counted = none := by simp only [RwThread.counted, hcall]
  have hreading : ({ s.threads a with call := some (c, .setOwner) } : RwThread).reading = (s.threads a).reads := by
    cases c <;> first | rfl | cases hc
  have hwriting : ({ s.threads a with call := some (c, .setOwner) } : RwThread).writing = (s.threads a).writes + 1 := by
    cases c <;> first | rfl | cases hc
  have hwait : (s.threads a).waiting = ({ s.threads a with call := some (c, .setOwner) } : RwThread).waiting := by
    simp only [RwThread.waiting, hcall]
    cases c <;> rfl
  have hr := h.counted.readers
  have hw := h.counted.writers
  refine h.stores (q := .setOwner) hcall rfl rfl rfl rfl (h.counted.change ?_ ?_ ?_ ?_ ?_) hc
  · rw [reading_of hbefore, hreading]
  · rw [writing_of hbefore, hwriting, toInt_succ (by omega)]
    omega
  · rw [hwait]
  · rw [writing_of hbefore, hwriting]
    omega
  · rw [reading_of hbefore, hreading]
    omega

theorem Inv.step_droppedReader (h : s.Inv) (hcall : (s.threads a).call = some (c, .droppedReader count)) :
    (s.exec tid (.step a)).Inv := by
  obtain ⟨⟨rfl, rfl⟩, hunlock⟩ := h.threads a c _ hcall
  have hreads := hunlock rfl
  have hbefore : (s.threads a).counted = none := by simp only [RwThread.counted, hcall]
  have hreading : ({ s.threads a with call := some (.unlock, .done) } : RwThread).reading = (s.threads a).reads - 1 := by
    rw [RwThread.reading, settled_done, RwThread.returned, if_pos hreads]
  have hwriting : ({ s.threads a with call := some (.unlock, .done) } : RwThread).writing = (s.threads a).writes := by
    rw [RwThread.writing, settled_done, RwThread.returned, if_pos hreads]
  have hwait : (s.threads a).waiting = 0 := by simp only [RwThread.waiting, hcall]
  have hle := le_tally RwThread.reading s.threads a
  rw [reading_of hbefore] at hle
  have hr := h.counted.readers
  have hone := h.counted.one
  have hapart := h.counted.apart
  refine h.stores (q := .done) hcall rfl rfl rfl rfl (h.counted.change ?_ ?_ ?_ ?_ ?_) rfl
  · rw [reading_of hbefore, hreading, toInt_pred (by omega)]
    omega
  · rw [writing_of hbefore, hwriting]
  · rw [hwait]
    rfl
  · rw [writing_of hbefore, hwriting]
    omega
  · rw [reading_of hbefore, hreading, writing_of hbefore, hwriting]
    omega

theorem Inv.step_setOwner (h : s.Inv) (hcall : (s.threads a).call = some (c, .setOwner)) : (s.exec tid (.step a)).Inv := by
  obtain ⟨hc, -⟩ := h.threads a c _ hcall
  have hsettled : ({ s.threads a with call := some (c, .done) } : RwThread).settled = (s.threads a).settled := by
    rw [settled_done]
    simp only [RwThread.settled, RwThread.counted, hcall, Option.elim_some]
  have hreading : ({ s.threads a with call := some (c, .done) } : RwThread).reading = (s.threads a).reading := congrArg RwThread.reads hsettled
  have hwriting : ({ s.threads a with call := some (c, .done) } : RwThread).writing = (s.threads a).writing := congrArg RwThread.writes hsettled
  have hwait : (s.threads a).waiting = ({ s.threads a with call := some (c, .done) } : RwThread).waiting := by
    simp only [RwThread.waiting, hcall]
    cases c <;> rfl
  have hone := h.counted.one
  have hapart := h.counted.apart
  refine h.stores (q := .done) hcall rfl rfl rfl rfl (h.counted.change ?_ ?_ ?_ ?_ ?_) rfl
  · rw [hreading]
  · rw [hwriting]
  · rw [hwait]
  · rw [hwriting]
    omega
  · rw [hreading, hwriting]
    omega

theorem Inv.step (h : s.Inv) (hm : s.Meets (.step a)) (hcall : (s.threads a).call = some (c, p)) : (s.exec tid (.step a)).Inv := by
  cases p with
  | inner q k => exact h.step_inner hcall
  | yield => exact h.step_yield hcall
  | announce => exact h.step_load hm hcall (.inl rfl)
  | addReader => exact h.step_load hm hcall (.inr (.inl rfl))
  | retire => exact h.step_load hm hcall (.inr (.inr (.inl rfl)))
  | addWriter => exact h.step_load hm hcall (.inr (.inr (.inr rfl)))
  | announced count => exact h.step_announced hcall
  | testReaders => exact h.step_testReaders hcall
  | testWriters => exact h.step_testWriters hcall
  | testWaiters => exact h.step_testWaiters hcall
  | addedReader count => exact h.step_addedReader hcall
  | retired count => exact h.step_retired hcall
  | addedWriter count => exact h.step_addedWriter hcall
  | setOwner => exact h.step_setOwner hcall
  | unlockWriter => exact h.step_unlock hcall (.inl rfl)
  | unlockReader => exact h.step_unlock hcall (.inr (.inl rfl))
  | dropReader => exact h.step_unlock hcall (.inr (.inr rfl))
  | droppedReader count => exact h.step_droppedReader hcall
  | moreWriters | moredWriters _ | clearOwner => exact (h.threads a c _ hcall).1.elim

theorem Inv.call (h : s.Inv) (hm : s.Meets (.call a c)) : (s.exec tid (.call a c)).Inv := by
  cases hcall : (s.threads a).call with
  | some p =>
    simp only [exec, hcall]
    exact h
  | none =>
    have hbefore : (s.threads a).counted = none := by simp only [RwThread.counted, hcall]
    have hafter : ({ s.threads a with call := some (c, c.entry) } : RwThread).counted = none := rfl
    simp only [exec, hcall]
    refine h.goes (m := s.rw.lock) h.normal (h.keeps_token rfl ?_) ?_ ?_ ?_ ?_
    · refine iff_of_false ?_ (not_inside hcall)
      rw [inside_iff (c := c) rfl]
      cases c <;> exact Bool.false_ne_true
    · rw [reading_of hbefore, reading_of hafter]
    · rw [writing_of hbefore, writing_of hafter]
    · simp only [RwThread.waiting, hcall]
      cases c <;> rfl
    · intro d q hq
      obtain ⟨rfl, rfl⟩ := Prod.mk.inj (Option.some.inj hq)
      refine ⟨?_, hm⟩
      cases c <;> simp [RwCall.entry, RwCall.tries, Fact, MutexAt.acquires, MutexAt.tries]

theorem Inv.exec (h : s.Inv) {e : RwEvent κ} (hm : s.Meets e) : (s.exec tid e).Inv := by
  cases e with
  | call a c => exact h.call hm
  | step a =>
    cases hcall : (s.threads a).call with
    | none =>
      simp only [RwRun.exec, hcall]
      exact h
    | some x => exact h.step hm hcall

omit [DecidableEq κ] in
theorem start_inv : (start : RwRun κ).Inv where
  normal := rfl
  token := Token.free fun _ => not_inside rfl
  counted := by
    have hzero : ∀ f : RwThread → ℕ, f { call := none, reads := 0, writes := 0 } = 0 → tally f (start : RwRun κ).threads = 0 :=
      fun f hf => tally_eq_zero.mpr fun _ => hf
    have hr := hzero RwThread.reading rfl
    have hw := hzero RwThread.writing rfl
    have hn := hzero RwThread.waiting rfl
    exact ⟨by rw [hr]; rfl, by rw [hw]; rfl, by rw [hn]; rfl, by rw [hw]; exact Nat.zero_le 1, .inl hw⟩
  threads _ _ _ hcall := nomatch hcall

omit [DecidableEq κ] [Fintype κ] in
def solo (self : Word) (x : RwLock × RwThread) : RwLock × RwThread :=
  match x.2.call with
  | none => x
  | some (c, p) => ((x.1.step self c p).1, x.2.next c (x.1.step self c p).2)

omit [Fintype κ] in
private theorem exec_alone (tid : κ → Word) (s : RwRun κ) (a : κ) (x : RwLock × RwThread) (n : ℕ) :
    (fun s => s.exec tid (.step a))^[n] { s.setThread a x.2 with rw := x.1 } =
      { s.setThread a ((solo (tid a))^[n] x).2 with rw := ((solo (tid a))^[n] x).1 } := by
  induction n generalizing x with
  | zero => rfl
  | succ n ih =>
    rw [iterate_succ_apply, iterate_succ_apply, ← ih]
    congr 1
    cases hcall : x.2.call with
    | none => simp only [RwRun.exec, setThread, update_self, hcall, solo]
    | some cp => simp only [RwRun.exec, setThread, update_self, update_idem, hcall, solo]

private theorem solo_gets (self : Word) {r w : ℕ} (hc : c ≠ .unlock) (hfree : rw.lock.locked = false) (hnormal : rw.lock.type = .normal)
    (hreaders : ¬ 0 < rw.readers.toInt) (hwriters : ¬ 0 < rw.writers.toInt) (hwaiters : ¬ 0 < rw.writeWaiters.toInt) :
    ∃ n, ((solo self)^[n] (rw, { call := some (c, c.entry), reads := r, writes := w })).2 =
      RwThread.returned { call := none, reads := r, writes := w } c := by
  obtain ⟨readers, writers, writeWaiters, writeOwner, locked, owner, type, count⟩ := rw
  subst hfree hnormal
  cases c with
  | unlock => exact absurd rfl hc
  | rdlock | tryrdlock =>
    refine ⟨11, ?_⟩
    simp [solo, step, Mutex.step, entry, tries, resume, RwThread.next, RwThread.returned, first,
      clear, RwAt.done, hwriters, hwaiters]
  | wrlock =>
    refine ⟨16, ?_⟩
    simp [solo, step, Mutex.step, entry, tries, resume, RwThread.next, RwThread.returned, first,
      test, clear, RwAt.done, hreaders, hwriters]
  | trywrlock =>
    refine ⟨12, ?_⟩
    simp [solo, step, Mutex.step, entry, tries, resume, RwThread.next, RwThread.returned, first,
      clear, RwAt.done, hreaders, hwriters]

/-- The counters are the numbers of those that have the lock; a thread may have it for reading more than once. -/
structure Sound (s : RwRun κ) : Prop where
  readers : s.rw.readers.toInt = tally RwThread.reading s.threads
  once : (∀ a, (s.threads a).reading ≤ 1) → s.rw.readers.toInt = (Finset.univ.filter fun a => 0 < (s.threads a).reading).card
  writers : s.rw.writers.toInt = (Finset.univ.filter fun a => 0 < (s.threads a).writing).card
  one : s.rw.writers.toInt ≤ 1
  apart : ¬ (0 < s.rw.readers.toInt ∧ 0 < s.rw.writers.toInt)

def FreeAgain (tid : κ → Word) (s : RwRun κ) : Prop :=
  (∀ b, (s.threads b).reading = 0 ∧ (s.threads b).writing = 0 ∧ (s.threads b).waiting = 0 ∧ ¬ (s.threads b).Inside) →
    ∀ a c, c ≠ .unlock → (s.threads a).call = none →
      ∃ n, ((fun s => s.exec tid (.step a))^[n] (s.exec tid (.call a c))).threads a = (s.threads a).returned c

omit [DecidableEq κ] in
theorem Inv.sound (h : s.Inv) : s.Sound := by
  obtain ⟨hr, hw, -, hone, hapart⟩ := h.counted
  have hwriting : ∀ a, (s.threads a).writing ≤ 1 := fun a => (le_tally RwThread.writing s.threads a).trans hone
  exact ⟨hr, fun hle => hr.trans (congrArg Nat.cast (tally_eq_card hle)), hw.trans (congrArg Nat.cast (tally_eq_card hwriting)),
    by omega, by omega⟩

theorem Inv.freeAgain (h : s.Inv) : s.FreeAgain tid := by
  intro hnone a c hc hcall
  obtain ⟨hr, hw, hn, -, -⟩ := h.counted
  rw [tally_eq_zero.mpr fun b => (hnone b).1] at hr
  rw [tally_eq_zero.mpr fun b => (hnone b).2.1] at hw
  rw [tally_eq_zero.mpr fun b => (hnone b).2.2.1] at hn
  have hfree : s.rw.lock.locked = false := by
    rw [← Bool.not_eq_true, h.token.taken]
    rintro ⟨b, hb⟩
    exact (hnone b).2.2.2 hb
  obtain ⟨n, hn⟩ := solo_gets (tid a) (r := (s.threads a).reads) (w := (s.threads a).writes) hc hfree h.normal (by omega) (by omega)
    (by omega)
  refine ⟨n, ?_⟩
  have hexec := exec_alone tid s a (s.rw, { s.threads a with call := some (c, c.entry) }) n
  have hentry : s.exec tid (.call a c) = { s.setThread a { s.threads a with call := some (c, c.entry) } with rw := s.rw } := by
    simp only [RwRun.exec, hcall]
    rfl
  rw [hentry, hexec]
  rw [setThread_self, hn]
  cases c <;> rfl

/-- In every run in which those unlock the lock that have it for reading, its counters are the numbers of those that have
it, a writer has it alone, and it is free again when all have unlocked it. -/
theorem rwlock_runs {es : List (RwEvent κ)} (hrun : Along (exec tid) Meets start es) :
    (es.foldl (exec tid) start).Sound ∧ (es.foldl (exec tid) start).FreeAgain tid := by
  have h : (es.foldl (exec tid) start).Inv :=
    hrun.relates (R := fun s t => s.Inv → t.Inv) (fun _ h => h) (fun hst htu h => htu (hst h)) (fun _ _ hm h => h.exec hm) start_inv
  exact ⟨h.sound, h.freeAgain⟩

def twoThreads (i : Fin 2) : Word := i.val

section
local instance neZero_two : NeZero 2 := ⟨by decide⟩

/-- Each of two threads locks it for reading, and a writer tries in vain. -/
def readersAndWriter : List (RwEvent (Fin 2)) :=
  .call 0 .rdlock :: replicate 11 (.step 0) ++ .call 1 .rdlock :: replicate 11 (.step 1) ++
    .call 0 .unlock :: replicate 11 (.step 0) ++ .call 0 .trywrlock :: replicate 8 (.step 0)
end

theorem readersAndWriter_sound : (readersAndWriter.foldl (exec twoThreads) start).Sound := by
  have hrun : Along (exec twoThreads) Meets start readersAndWriter := by decide
  exact (rwlock_runs hrun).1

/-- A writer takes the lock and gives it back. -/
theorem writer_not_sound :
    ¬ ∀ es : List (RwEvent (Fin 2)), Along (exec twoThreads) Proper start es → (es.foldl (exec twoThreads) start).Sound := by
  intro h
  have hproper : Along (exec twoThreads) Proper start
      (.call 0 .wrlock :: replicate 16 (.step 0) ++ .call 0 .unlock :: replicate 11 (.step 0)) := by decide
  exact absurd (h _ hproper).one (by decide)

end RwRun
end RetroOs.Kernel
