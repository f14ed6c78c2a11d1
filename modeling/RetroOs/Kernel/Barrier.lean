import RetroOs.Kernel.Mutex

/-! `pthread_barrier_wait` with the condition variable it waits on, from one call of `schedule` to the next: threads switch
nowhere else. -/
namespace RetroOs.Kernel

namespace Mutex

/-- A call on the mutex up to its return or to a failed `atomic_cas`, after which it is in `schedule`. -/
def runOn (m : Mutex) (self : Word) : ℕ → MutexAt → Mutex × (MutexAt ⊕ Int)
  | 0, p => (m, .inl p)
  | n + 1, p =>
    match m.step self p with
    | (m', .inr code) => (m', .inr code)
    | (m', .inl q) => if p = .spin ∧ q = .spin then (m', .inl .spin) else m'.runOn self n q

/-- `pthread_mutex_lock` from its start or from its loop on; `none` where it is in `schedule`. No call makes 8 steps. -/
def lockFrom (m : Mutex) (self : Word) (p : MutexAt) : Option Mutex :=
  match m.runOn self 8 p with
  | (m', .inr _) => some m'
  | (_, .inl _) => none

def unlockNow (m : Mutex) (self : Word) : Mutex := (m.runOn self 8 .unlock).1

end Mutex

structure Cond where
  waiters : Word
  signalCount : Word
  deriving DecidableEq

structure Barrier where
  count : Word
  current : Word
  phase : Word
  lock : Mutex
  cond : Cond
  deriving DecidableEq

/-- Where a thread is in `schedule`: on its way to the lock, in `pthread_cond_wait`, or on its way to the lock again. -/
inductive BarrierAt where
  | entry
  | wait (mySignal myPhase : Word)
  | relock (myPhase : Word)
  deriving DecidableEq

def serialThread : Int := -1

namespace Barrier

def init (count : Word) : Barrier :=
  { count, current := 0, phase := 0, lock := .init .normal, cond := { waiters := 0, signalCount := 0 } }

def loop (b : Barrier) (self myPhase : Word) : Barrier × (BarrierAt ⊕ Int) :=
  let b' := { b with lock := b.lock.unlockNow self }
  if b.phase = myPhase then
    ({ b' with cond := { b.cond with waiters := b.cond.waiters + 1 } }, .inl (.wait b.cond.signalCount myPhase))
  else (b', .inr 0)

def arrive (b : Barrier) (self : Word) : Barrier × (BarrierAt ⊕ Int) :=
  let b' := { b with current := b.current + 1 }
  if b.count ≤ b'.current then
    ({ b' with
        current := 0
        phase := b.phase + 1
        cond := { b.cond with signalCount := b.cond.signalCount + b.cond.waiters }
        lock := b.lock.unlockNow self }, .inr serialThread)
  else b'.loop self b.phase

def lockThen (b : Barrier) (self : Word) (p : MutexAt) (wait : BarrierAt) (k : Barrier → Barrier × (BarrierAt ⊕ Int)) :
    Barrier × (BarrierAt ⊕ Int) :=
  match b.lock.lockFrom self p with
  | none => (b, .inl wait)
  | some lock => k { b with lock }

/-- A thread runs, from the start of a call (`none`) or from where it was in `schedule`, up to its next `schedule` or to the
code that it returns. -/
def step (b : Barrier) (self : Word) : Option BarrierAt → Barrier × (BarrierAt ⊕ Int)
  | none => b.lockThen self .lock .entry fun b => b.arrive self
  | some .entry => b.lockThen self .spin .entry fun b => b.arrive self
  | some (.wait mySignal myPhase) =>
    if b.cond.signalCount = mySignal then (b, .inl (.wait mySignal myPhase))
    else
      let b' := { b with cond := { b.cond with waiters := b.cond.waiters - 1 } }
      b'.lockThen self .lock (.relock myPhase) fun b => b.loop self myPhase
  | some (.relock myPhase) => b.lockThen self .spin (.relock myPhase) fun b => b.loop self myPhase

end Barrier

namespace Mutex
variable {m : Mutex} {self : Word} {p : MutexAt}

structure Ready (m : Mutex) : Prop where
  normal : m.type = .normal
  free : m.locked = false

/-- As its holder has it. -/
def taken (m : Mutex) (self : Word) : Mutex := { m with locked := true, owner := self, recursiveCount := 1 }

theorem Ready.lockFrom (h : m.Ready) (self : Word) (hp : p = .lock ∨ p = .spin) : m.lockFrom self p = some (m.taken self) := by
  rcases hp with rfl | rfl <;> simp [Mutex.lockFrom, runOn, step, taken, h.normal, h.free]

theorem Ready.unlockNow (h : m.Ready) (self : Word) : ((m.taken self).unlockNow self).Ready := by
  constructor <;> simp [Mutex.unlockNow, runOn, step, taken, h.normal]

end Mutex

namespace Barrier
variable {b : Barrier} {self mySignal myPhase : Word} {place : Option BarrierAt}

private theorem step_last (h : b.lock.Ready) (self : Word) (hplace : place = none ∨ place = some .entry) (hlast : b.count ≤ b.current + 1) :
    ∃ lock : Mutex, lock.Ready ∧ b.step self place =
      ({ b with
          current := 0
          phase := b.phase + 1
          cond := { b.cond with signalCount := b.cond.signalCount + b.cond.waiters }
          lock }, .inr serialThread) := by
  refine ⟨(b.lock.taken self).unlockNow self, h.unlockNow self, ?_⟩
  rcases hplace with rfl | rfl
  · simp only [step, lockThen, h.lockFrom self (.inl rfl), arrive, if_pos hlast]
  · simp only [step, lockThen, h.lockFrom self (.inr rfl), arrive, if_pos hlast]

private theorem step_early (h : b.lock.Ready) (self : Word) (hplace : place = none ∨ place = some .entry) (hearly : ¬ b.count ≤ b.current + 1) :
    ∃ lock : Mutex, lock.Ready ∧ b.step self place =
      ({ b with current := b.current + 1, cond := { b.cond with waiters := b.cond.waiters + 1 }, lock },
        .inl (.wait b.cond.signalCount b.phase)) := by
  refine ⟨(b.lock.taken self).unlockNow self, h.unlockNow self, ?_⟩
  rcases hplace with rfl | rfl
  · simp only [step, lockThen, h.lockFrom self (.inl rfl), arrive, if_neg hearly, loop, if_true]
  · simp only [step, lockThen, h.lockFrom self (.inr rfl), arrive, if_neg hearly, loop, if_true]

private theorem step_woken (h : b.lock.Ready) (self : Word) (hsignal : b.cond.signalCount ≠ mySignal) (hphase : b.phase ≠ myPhase) :
    ∃ lock : Mutex, lock.Ready ∧ b.step self (some (.wait mySignal myPhase)) =
      ({ b with cond := { b.cond with waiters := b.cond.waiters - 1 }, lock }, .inr 0) := by
  refine ⟨(b.lock.taken self).unlockNow self, h.unlockNow self, ?_⟩
  simp only [step, if_neg hsignal, lockThen, h.lockFrom self (.inl rfl), loop, if_neg hphase]

private theorem step_asleep (b : Barrier) (self mySignal myPhase : Word) (hsignal : b.cond.signalCount = mySignal) :
    b.step self (some (.wait mySignal myPhase)) = (b, .inl (.wait mySignal myPhase)) := by
  simp only [step, if_pos hsignal]

end Barrier
end RetroOs.Kernel

/-! Runs of threads that wait at a barrier again and again: calls are released by as many calls as the barrier counts, and
no wake-up is lost. -/
namespace RetroOs.Kernel
open Lib Function

structure BarrierThread where
  place : Option BarrierAt
  call : ℕ
  deriving DecidableEq

/-- It is in `pthread_cond_wait`. -/
def BarrierThread.waiting (t : BarrierThread) : ℕ :=
  match t.place with
  | some (.wait ..) => 1
  | _ => 0

/-- The barrier and its threads, with the number of calls that arrived, the signals that were given, and what each call
returned. -/
structure BarrierRun (κ : Type) where
  barrier : Barrier
  threads : κ → BarrierThread
  arrivals : ℕ
  signals : ℕ
  returns : List (ℕ × Int)

namespace BarrierRun
variable {κ : Type} [Fintype κ] [DecidableEq κ]

/-- The calls that have arrived have counted themselves. -/
def Arrives (place : Option BarrierAt) (next : BarrierAt ⊕ Int) : Prop :=
  (place = none ∨ place = some .entry) ∧ next ≠ .inl .entry

instance (place : Option BarrierAt) (next : BarrierAt ⊕ Int) : Decidable (Arrives place next) :=
  inferInstanceAs (Decidable (_ ∧ _))

def exec (tid : κ → Word) (s : BarrierRun κ) (a : κ) : BarrierRun κ :=
  let t := s.threads a
  let (barrier, next) := s.barrier.step (tid a) t.place
  let call := if Arrives t.place next then s.arrivals else t.call
  { barrier
    threads := update s.threads a { place := next.getLeft?, call }
    arrivals := if Arrives t.place next then s.arrivals + 1 else s.arrivals
    signals := if next = .inr serialThread then s.signals + tally BarrierThread.waiting s.threads else s.signals
    returns := next.elim (fun _ => s.returns) fun code => s.returns ++ [(call, code)] }

omit [Fintype κ] [DecidableEq κ] in
def start (count : Word) : BarrierRun κ :=
  { barrier := .init count, threads := fun _ => { place := none, call := 0 }, arrivals := 0, signals := 0, returns := [] }

omit [Fintype κ] [DecidableEq κ] in
/-- The calls that are to come before a call is released: its phase and the phases before. -/
def needed (count call : ℕ) : ℕ := (call / count + 1) * count

structure Sound (tid : κ → Word) (n : ℕ) (s : BarrierRun κ) : Prop where
  returned : ∀ j code, (j, code) ∈ s.returns → needed n j ≤ s.arrivals
  once : (s.returns.map Prod.fst).Nodup
  serial : ∀ k, (k + 1) * n ≤ s.arrivals → ∃! j, j / n = k ∧ (j, serialThread) ∈ s.returns
  woken : ∀ a mySignal myPhase, (s.threads a).place = some (.wait mySignal myPhase) →
    (s.barrier.cond.signalCount ≠ mySignal ↔ needed n (s.threads a).call ≤ s.arrivals)
  /-- Then it returns as soon as it runs. -/
  leaves : ∀ a mySignal myPhase, (s.threads a).place = some (.wait mySignal myPhase) →
    needed n (s.threads a).call ≤ s.arrivals → (s.exec tid a).returns = s.returns ++ [((s.threads a).call, 0)]
  waits : ∀ a p, (s.threads a).place = some p → ∃ mySignal myPhase, p = .wait mySignal myPhase

structure WaitOk (n : ℕ) (s : BarrierRun κ) (t : BarrierThread) (mySignal myPhase : Word) (signals : ℕ) : Prop where
  mySignal : mySignal = BitVec.ofNat 32 signals
  myPhase : myPhase = BitVec.ofNat 32 (t.call / n)
  arrived : t.call < s.arrivals
  notLast : t.call % n ≠ n - 1
  asleep : t.call / n = s.arrivals / n → signals = s.signals
  woken : t.call / n < s.arrivals / n → signals < s.signals
  pending : ∀ code, (t.call, code) ∉ s.returns

structure Inv (n : ℕ) (s : BarrierRun κ) : Prop where
  count : s.barrier.count = BitVec.ofNat 32 n
  ready : s.barrier.lock.Ready
  current : s.barrier.current = BitVec.ofNat 32 (s.arrivals % n)
  phase : s.barrier.phase = BitVec.ofNat 32 (s.arrivals / n)
  waiters : s.barrier.cond.waiters = BitVec.ofNat 32 (tally BarrierThread.waiting s.threads)
  signalCount : s.barrier.cond.signalCount = BitVec.ofNat 32 s.signals
  threads : ∀ a p, (s.threads a).place = some p → ∃ mySignal myPhase signals, p = .wait mySignal myPhase ∧
    s.WaitOk n (s.threads a) mySignal myPhase signals
  apart : ∀ a b, (s.threads a).place.isSome → (s.threads b).place.isSome → (s.threads a).call = (s.threads b).call → a = b
  returned : ∀ j code, (j, code) ∈ s.returns → j / n < s.arrivals / n ∧ code = if j % n = n - 1 then serialThread else 0
  once : (s.returns.map Prod.fst).Nodup
  serial : ∀ k, k < s.arrivals / n → (k * n + (n - 1), serialThread) ∈ s.returns

omit [Fintype κ] [DecidableEq κ] in
private theorem needed_le {n j arrivals : ℕ} (hn : 0 < n) : needed n j ≤ arrivals ↔ j / n < arrivals / n := by
  rw [needed, ← Nat.le_div_iff_mul_le hn, Nat.succ_le_iff]

section
variable {n k : ℕ}

private theorem succ_last (hn : 0 < n) (h : k % n = n - 1) : (k + 1) / n = k / n + 1 ∧ (k + 1) % n = 0 := by
  have hsplit := Nat.div_add_mod k n
  have heq : k + 1 = 0 + n * (k / n + 1) := by
    rw [Nat.mul_succ]
    omega
  rw [heq, Nat.add_mul_div_left _ _ hn, Nat.add_mul_mod_self_left, Nat.zero_div, Nat.zero_mod, Nat.zero_add]
  exact ⟨rfl, rfl⟩

private theorem succ_early (hn : 0 < n) (h : k % n ≠ n - 1) : (k + 1) / n = k / n ∧ (k + 1) % n = k % n + 1 := by
  have hsplit := Nat.div_add_mod k n
  have hlt := Nat.mod_lt k hn
  have heq : k + 1 = (k % n + 1) + n * (k / n) := by omega
  have hsmall : k % n + 1 < n := by omega
  rw [heq, Nat.add_mul_div_left _ _ hn, Nat.add_mul_mod_self_left, Nat.div_eq_of_lt hsmall, Nat.mod_eq_of_lt hsmall, Nat.zero_add]
  exact ⟨rfl, rfl⟩

private theorem word_inj {i j : ℕ} (hi : i < 2 ^ 31) (hj : j < 2 ^ 31) : (BitVec.ofNat 32 i = BitVec.ofNat 32 j) ↔ i = j := by
  refine ⟨fun h => ?_, fun h => h ▸ rfl⟩
  have hnat := congrArg BitVec.toNat h
  simp only [BitVec.toNat_ofNat] at hnat
  omega

theorem word_succ (i : ℕ) : BitVec.ofNat 32 i + 1 = BitVec.ofNat 32 (i + 1) := by
  rw [BitVec.ofNat_add]
  rfl

private theorem word_pred (i : ℕ) : BitVec.ofNat 32 (i + 1) - 1 = BitVec.ofNat 32 i := by rw [← word_succ, BitVec.add_sub_cancel]

end

variable {s : BarrierRun κ} {a b : κ} {n : ℕ} {tid : κ → Word} {mySignal myPhase : Word}

omit [Fintype κ] [DecidableEq κ] in
theorem Inv.full_iff [Fintype κ] (h : s.Inv n) (hn : 0 < n) (hw : n < 2 ^ 32) :
    s.barrier.count ≤ s.barrier.current + 1 ↔ s.arrivals % n = n - 1 := by
  have hlt := Nat.mod_lt s.arrivals hn
  rw [h.count, h.current, word_succ, BitVec.le_def, BitVec.toNat_ofNat, BitVec.toNat_ofNat, Nat.mod_eq_of_lt hw, Nat.mod_eq_of_lt (by omega)]
  omega

omit [Fintype κ] in
/-- Others than `a` are as they were. -/
theorem update_other (f : κ → BarrierThread) (t : BarrierThread) (hne : b ≠ a) : update f a t b = f b := update_of_ne hne ..

theorem apart_update (h : s.Inv n) {t : BarrierThread} (ht : t.place.isSome → ∀ b ≠ a, (s.threads b).place.isSome → (s.threads b).call ≠ t.call) :
    ∀ b c, (Function.update s.threads a t b).place.isSome → (Function.update s.threads a t c).place.isSome →
      (Function.update s.threads a t b).call = (Function.update s.threads a t c).call → b = c := by
  intro b c
  by_cases hb : b = a <;> by_cases hc : c = a
  · exact fun _ _ _ => hb.trans hc.symm
  · subst hb
    rw [Function.update_self, Function.update_of_ne hc]
    exact fun hin hin' heq => absurd heq.symm (ht hin c hc hin')
  · subst hc
    rw [Function.update_self, Function.update_of_ne hb]
    exact fun hin hin' heq => absurd heq (ht hin' b hb hin)
  · rw [Function.update_of_ne hb, Function.update_of_ne hc]
    exact h.apart b c

omit [DecidableEq κ] in
theorem Inv.call_lt (h : s.Inv n) (hb : (s.threads b).place.isSome) : (s.threads b).call < s.arrivals := by
  obtain ⟨p, hp⟩ := Option.isSome_iff_exists.mp hb
  obtain ⟨_, _, _, -, hwait⟩ := h.threads b p hp
  exact hwait.arrived

theorem Inv.last (h : s.Inv n) (hn : 0 < n) (hplace : (s.threads a).place = none) (hlast : s.arrivals % n = n - 1)
    (hfull : s.barrier.count ≤ s.barrier.current + 1) : (s.exec tid a).Inv n := by
  obtain ⟨lock, hready, hstep⟩ := Barrier.step_last h.ready (tid a) (.inl hplace) hfull
  obtain ⟨hdiv, hmod⟩ := succ_last hn hlast
  have harrives : Arrives (s.threads a).place (.inr serialThread) := ⟨.inl hplace, Sum.inr_ne_inl⟩
  simp only [exec, hstep, if_pos harrives, Sum.getLeft?_inr, Sum.elim_inr, if_true]
  have hidle : (s.threads a).waiting = 0 := by simp only [BarrierThread.waiting, hplace]
  refine ⟨h.count, hready, ?_, ?_, ?_, ?_, fun b p hb => ?_, ?_, fun j code hj => ?_, ?_, fun k hk => ?_⟩
  · simp only [hmod]
    rfl
  · simp only [hdiv, h.phase, word_succ]
  · simp only [h.waiters]
    have htally : tally BarrierThread.waiting (Function.update s.threads a { place := none, call := s.arrivals }) =
      tally BarrierThread.waiting s.threads := tally_same (by rw [hidle]; rfl)
    rw [htally]
  · simp only [h.signalCount, h.waiters, BitVec.ofNat_add]
  · have hba : b ≠ a := by
      rintro rfl
      simp only [Function.update_self] at hb
      cases hb
    simp only [update_other _ _ hba] at hb ⊢
    obtain ⟨mySignal, myPhase, signals, rfl, hw⟩ := h.threads b p hb
    refine ⟨mySignal, myPhase, signals, rfl, hw.mySignal, hw.myPhase, Nat.lt_succ_of_lt hw.arrived, hw.notLast, fun heq => ?_, fun hlt => ?_,
      fun code hcode => ?_⟩
    · have hle : (s.threads b).call / n ≤ s.arrivals / n := Nat.div_le_div_right hw.arrived.le
      simp only [hdiv] at heq
      omega
    · have hpos : 0 < tally BarrierThread.waiting s.threads := tally_pos.mpr ⟨b, by simp [BarrierThread.waiting, hb]⟩
      rcases (Nat.div_le_div_right (c := n) hw.arrived.le).lt_or_eq with hlt' | heq'
      · have := hw.woken hlt'
        simp only
        omega
      · have := hw.asleep heq'
        simp only
        omega
    · rcases List.mem_append.mp hcode with hcode | hcode
      · exact hw.pending code hcode
      · obtain ⟨heq, -⟩ := Prod.mk.inj (List.mem_singleton.mp hcode)
        exact hw.arrived.ne heq
  · exact apart_update h fun hin => nomatch hin
  · simp only [hdiv]
    rcases List.mem_append.mp hj with hj | hj
    · obtain ⟨hlt, hcode⟩ := h.returned j code hj
      exact ⟨Nat.lt_succ_of_lt hlt, hcode⟩
    · obtain ⟨rfl, rfl⟩ := Prod.mk.inj (List.mem_singleton.mp hj)
      exact ⟨Nat.lt_succ_self _, (if_pos hlast).symm⟩
  · rw [List.map_append, List.map_singleton, List.nodup_append]
    refine ⟨h.once, List.nodup_singleton _, fun j hj i hi heq => ?_⟩
    obtain ⟨⟨j', code⟩, hmem, rfl⟩ := List.mem_map.mp hj
    have hlt := (h.returned j' code hmem).1
    rw [List.mem_singleton.mp hi] at heq
    simp only at heq
    rw [heq] at hlt
    exact lt_irrefl _ hlt
  · simp only [hdiv] at hk
    rcases (Nat.lt_succ_iff.mp hk).lt_or_eq with hlt | rfl
    · exact List.mem_append_left _ (h.serial k hlt)
    · have hsplit := Nat.div_add_mod s.arrivals n
      rw [hlast, Nat.mul_comm] at hsplit
      rw [hsplit]
      exact List.mem_append_right _ (List.mem_singleton_self _)

theorem Inv.early (h : s.Inv n) (hn : 0 < n) (hplace : (s.threads a).place = none) (hearly : s.arrivals % n ≠ n - 1)
    (hfull : ¬ s.barrier.count ≤ s.barrier.current + 1) : (s.exec tid a).Inv n := by
  obtain ⟨lock, hready, hstep⟩ := Barrier.step_early h.ready (tid a) (.inl hplace) hfull
  obtain ⟨hdiv, hmod⟩ := succ_early hn hearly
  have harrives : Arrives (s.threads a).place (.inl (.wait s.barrier.cond.signalCount s.barrier.phase)) := ⟨.inl hplace, by simp⟩
  simp only [exec, hstep, if_pos harrives, Sum.getLeft?_inl, Sum.elim_inl, reduceCtorEq, if_false]
  have hidle : (s.threads a).waiting = 0 := by simp only [BarrierThread.waiting, hplace]
  refine ⟨h.count, hready, ?_, ?_, ?_, h.signalCount, fun b p hb => ?_, ?_, fun j code hj => ?_, h.once, fun k hk => ?_⟩
  · simp only [hmod, h.current, word_succ]
  · simp only [hdiv, h.phase]
  · have htally := tally_update BarrierThread.waiting s.threads a
      { place := some (.wait s.barrier.cond.signalCount s.barrier.phase), call := s.arrivals }
    rw [hidle] at htally
    simp only [h.waiters, word_succ]
    exact congrArg _ htally.symm
  · by_cases hba : b = a
    · subst hba
      simp only [Function.update_self] at hb
      obtain rfl := Option.some.inj hb
      refine ⟨_, _, s.signals, rfl, h.signalCount, ?_, ?_, ?_, fun _ => rfl, fun hlt => ?_, fun code hcode => ?_⟩ <;>
        simp only [Function.update_self] at *
      · exact h.phase
      · exact Nat.lt_succ_self _
      · exact hearly
      · rw [hdiv] at hlt
        exact absurd hlt (lt_irrefl _)
      · exact absurd (h.returned _ _ hcode).1 (lt_irrefl _)
    · simp only [update_other _ _ hba] at hb ⊢
      obtain ⟨mySignal, myPhase, signals, rfl, hw⟩ := h.threads b p hb
      refine ⟨mySignal, myPhase, signals, rfl, hw.mySignal, hw.myPhase, Nat.lt_succ_of_lt hw.arrived, hw.notLast, fun heq => ?_, fun hlt => ?_,
        hw.pending⟩
      · exact hw.asleep (heq.trans hdiv)
      · exact hw.woken (hlt.trans_eq hdiv)
  · refine apart_update h fun _ b hb hin => ?_
    exact (h.call_lt hin).ne
  · simp only [hdiv]
    exact h.returned j code hj
  · exact h.serial k (hk.trans_eq hdiv)

theorem Inv.woken (h : s.Inv n) (hplace : (s.threads a).place = some (.wait mySignal myPhase))
    (hphases : s.arrivals / n < 2 ^ 31) (hsignal : s.barrier.cond.signalCount ≠ mySignal) :
    (s.exec tid a).Inv n ∧ (s.exec tid a).returns = s.returns ++ [((s.threads a).call, 0)] := by
  obtain ⟨_, _, signals, heq, hw⟩ := h.threads a _ hplace
  cases heq
  have hle : (s.threads a).call / n ≤ s.arrivals / n := Nat.div_le_div_right hw.arrived.le
  have hlt : (s.threads a).call / n < s.arrivals / n := by
    refine hle.lt_of_ne fun heq => hsignal ?_
    rw [h.signalCount, hw.mySignal, hw.asleep heq]
  have hphase : s.barrier.phase ≠ myPhase := by
    rw [h.phase, hw.myPhase, ne_eq, word_inj hphases (hlt.trans hphases)]
    exact hlt.ne'
  obtain ⟨lock, hready, hstep⟩ := Barrier.step_woken h.ready (tid a) hsignal hphase
  have harrives : ¬ Arrives (s.threads a).place (.inr 0) := fun hz => by simp [Arrives, hplace] at hz
  have hserial : ¬ (0 : Int) = serialThread := by decide
  have hwaits : (s.threads a).waiting = 1 := by simp only [BarrierThread.waiting, hplace]
  simp only [exec, hplace, hstep, Sum.getLeft?_inr, Sum.elim_inr, Sum.inr.injEq, hserial, if_false]
  rw [hplace] at harrives
  simp only [if_neg harrives]
  refine ⟨⟨h.count, hready, h.current, h.phase, ?_, h.signalCount, fun b p hb => ?_, ?_, fun j code hj => ?_, ?_, fun k hk => ?_⟩, trivial⟩
  · have htally := tally_update BarrierThread.waiting s.threads a { place := none, call := (s.threads a).call }
    have hnone : BarrierThread.waiting { place := none, call := (s.threads a).call } = 0 := rfl
    rw [hwaits, hnone] at htally
    simp only [h.waiters]
    rw [← Nat.add_zero (tally _ s.threads), ← htally, word_pred]
  · have hba : b ≠ a := by
      rintro rfl
      simp only [Function.update_self] at hb
      cases hb
    simp only [update_other _ _ hba] at hb ⊢
    obtain ⟨mySignal, myPhase, signals, rfl, hw'⟩ := h.threads b p hb
    refine ⟨mySignal, myPhase, signals, rfl, hw'.mySignal, hw'.myPhase, hw'.arrived, hw'.notLast, hw'.asleep, hw'.woken, fun code hcode => ?_⟩
    rcases List.mem_append.mp hcode with hcode | hcode
    · exact hw'.pending code hcode
    · obtain ⟨heq, -⟩ := Prod.mk.inj (List.mem_singleton.mp hcode)
      exact hba (h.apart b a (hb ▸ rfl) (hplace ▸ rfl) heq)
  · exact apart_update h fun hin => nomatch hin
  · rcases List.mem_append.mp hj with hj | hj
    · exact h.returned j code hj
    · obtain ⟨rfl, rfl⟩ := Prod.mk.inj (List.mem_singleton.mp hj)
      exact ⟨hlt, (if_neg hw.notLast).symm⟩
  · rw [List.map_append, List.map_singleton, List.nodup_append]
    refine ⟨h.once, List.nodup_singleton _, fun j hj i hi heq => ?_⟩
    obtain ⟨⟨j', code⟩, hmem, rfl⟩ := List.mem_map.mp hj
    rw [List.mem_singleton.mp hi] at heq
    simp only at heq
    exact hw.pending code (heq ▸ hmem)
  · exact List.mem_append_left _ (h.serial k hk)

/-- One that is not goes on in `schedule`. -/
theorem exec_asleep (hplace : (s.threads a).place = some (.wait mySignal myPhase))
    (hsignal : s.barrier.cond.signalCount = mySignal) : s.exec tid a = s := by
  have harrives : ¬ Arrives (s.threads a).place (.inl (.wait mySignal myPhase)) := fun hz => by simp [Arrives, hplace] at hz
  have hself : update s.threads a { place := some (.wait mySignal myPhase), call := (s.threads a).call } = s.threads := by
    rw [← hplace]
    exact update_eq_self a s.threads
  rw [hplace] at harrives
  simp only [exec, hplace, Barrier.step_asleep _ _ _ _ hsignal, if_neg harrives, Sum.getLeft?_inl, Sum.elim_inl, reduceCtorEq, if_false, hself]

private theorem exec_mono (tid : κ → Word) (s : BarrierRun κ) (a : κ) : s.arrivals ≤ (s.exec tid a).arrivals := by
  simp only [exec]
  split_ifs <;> omega

theorem Inv.exec (h : s.Inv n) (hn : 0 < n) (hw : n < 2 ^ 32) (hphases : (s.exec tid a).arrivals / n < 2 ^ 31) : (s.exec tid a).Inv n := by
  cases hplace : (s.threads a).place with
  | none =>
    by_cases hlast : s.arrivals % n = n - 1
    · exact h.last hn hplace hlast ((h.full_iff hn hw).mpr hlast)
    · exact h.early hn hplace hlast fun hfull => hlast ((h.full_iff hn hw).mp hfull)
  | some p =>
    obtain ⟨mySignal, myPhase, signals, rfl, -⟩ := h.threads a p hplace
    by_cases hsignal : s.barrier.cond.signalCount = mySignal
    · rw [exec_asleep hplace hsignal]
      exact h
    · exact (h.woken hplace ((Nat.div_le_div_right (exec_mono tid s a)).trans_lt hphases) hsignal).1

omit [DecidableEq κ] in
theorem start_inv (n : ℕ) : (start (BitVec.ofNat 32 n) : BarrierRun κ).Inv n where
  count := rfl
  ready := ⟨rfl, rfl⟩
  current := by simp [start, Barrier.init]
  phase := by simp [start, Barrier.init]
  waiters := by
    have hzero : tally BarrierThread.waiting (start (BitVec.ofNat 32 n) : BarrierRun κ).threads = 0 := tally_eq_zero.mpr fun _ => rfl
    rw [hzero]
    rfl
  signalCount := rfl
  threads _ _ hp := nomatch hp
  apart _ _ hp := nomatch hp
  returned _ _ hj := nomatch hj
  once := List.nodup_nil
  serial k hk := by simp [start] at hk

theorem Inv.sound (h : s.Inv n) (hn : 0 < n) (hsignals : s.signals < 2 ^ 31) (hphases : s.arrivals / n < 2 ^ 31) : s.Sound tid n := by
  have hwoken : ∀ a mySignal myPhase, (s.threads a).place = some (.wait mySignal myPhase) →
      (s.barrier.cond.signalCount ≠ mySignal ↔ needed n (s.threads a).call ≤ s.arrivals) := by
    intro a mySignal myPhase hplace
    obtain ⟨_, _, signals, heq, hw⟩ := h.threads a _ hplace
    cases heq
    rw [needed_le hn]
    constructor
    · intro hsignal
      refine (Nat.div_le_div_right hw.arrived.le).lt_of_ne fun heq => hsignal ?_
      rw [h.signalCount, hw.mySignal, hw.asleep heq]
    · intro hlt
      have hfewer := hw.woken hlt
      rw [h.signalCount, hw.mySignal, ne_eq, word_inj hsignals (hfewer.trans hsignals)]
      exact hfewer.ne'
  refine ⟨fun j code hj => (needed_le hn).mpr (h.returned j code hj).1, h.once, fun k hk => ?_, hwoken, fun a mySignal myPhase hplace hle => ?_,
    fun a p hp => ?_⟩
  · rw [← Nat.le_div_iff_mul_le hn, Nat.succ_le_iff] at hk
    refine ⟨k * n + (n - 1), ⟨?_, h.serial k hk⟩, fun j hj => ?_⟩
    · rw [Nat.mul_comm, Nat.mul_add_div hn, Nat.div_eq_of_lt (by omega), Nat.add_zero]
    · obtain ⟨rfl, hmem⟩ := hj
      obtain ⟨-, hcode⟩ := h.returned j _ hmem
      have hlast : j % n = n - 1 := by
        by_contra hne
        rw [if_neg hne] at hcode
        cases hcode
      have hsplit := Nat.div_add_mod j n
      rw [hlast, Nat.mul_comm] at hsplit
      exact hsplit.symm
  · exact (h.woken hplace hphases ((hwoken a _ _ hplace).mpr hle)).2
  · obtain ⟨mySignal, myPhase, -, rfl, -⟩ := h.threads a p hp
    exact ⟨mySignal, myPhase, rfl⟩

/-- In every run of fewer than 2^31 phases and signals, a call returns when its phase is over and not before, one call of
each phase is told that it was the last, and each call that waits is woken when its phase is over and not before. -/
theorem barrier_runs {count : Word} (hcount : count ≠ 0) (l : List κ)
    (hsignals : (l.foldl (exec tid) (start count)).signals < 2 ^ 31)
    (hphases : (l.foldl (exec tid) (start count)).arrivals / count.toNat < 2 ^ 31) :
    (l.foldl (exec tid) (start count)).Sound tid count.toNat := by
  have hn : 0 < count.toNat := Nat.pos_of_ne_zero fun hz => hcount (BitVec.eq_of_toNat_eq hz)
  have hstart : (start count : BarrierRun κ).Inv count.toNat := by
    have h := start_inv (κ := κ) count.toNat
    rwa [BitVec.ofNat_toNat, BitVec.setWidth_eq] at h
  have h : (l.foldl (exec tid) (start count)).Inv count.toNat := by
    clear hsignals
    induction l using List.reverseRecOn with
    | nil => exact hstart
    | append_singleton l a ih =>
      rw [List.foldl_append] at hphases ⊢
      exact (ih ((Nat.div_le_div_right (exec_mono tid _ a)).trans_lt hphases)).exec hn count.isLt hphases
  exact h.sound hn hsignals hphases

theorem twoThreads_meet :
    (([0, 1, 1, 0, 0, 1] : List (Fin 2)).foldl (exec fun i => BitVec.ofNat 32 i.val) (start 2)).Sound (fun i => BitVec.ofNat 32 i.val) 2 :=
  barrier_runs (by decide : (2 : Word) ≠ 0) [0, 1, 1, 0, 0, 1] (by decide) (by decide)

end BarrierRun
end RetroOs.Kernel
