import RetroOs.Kernel.Signal
import RetroOs.Lib.Runs

/-! Runs of a process with its signals: its program, its calls, the interrupts of it, and what others send.
SIGKILL ends it at its next return to user mode as long as no handler runs and the way back passes
`handle_signals`. -/
namespace RetroOs.Kernel
open Lib SignalState Process

def Spares (mask : SigSet) : Prop := mask.getLsbD sigKill = false ∧ mask.getLsbD sigStop = false

instance (mask : SigSet) : Decidable (Spares mask) := inferInstanceAs (Decidable (_ ∧ _))

theorem getLsbD_sigBit (sig i : Fin 64) : (sigBit sig).getLsbD i = decide (sig = i) := by
  rw [sigBit, BitVec.getLsbD_twoPow, decide_eq_true sig.isLt, Bool.true_and]
  exact decide_eq_decide.mpr Fin.ext_iff.symm

theorem spares_blockable (mask : SigSet) : Spares (blockable mask) := by
  constructor <;>
    rw [blockable, BitVec.getLsbD_and, BitVec.getLsbD_and, BitVec.getLsbD_not, BitVec.getLsbD_not, getLsbD_sigBit,
      getLsbD_sigBit] <;>
    simp

namespace Process
variable {p : Process} {d : SigSet} {sig i : Fin 64} {sigs : List (Fin 64)}

/-- The loop of `handle_signals` does more for the signal than clear it. -/
def Acts (p : Process) (d : SigSet) (sig : Fin 64) : Prop :=
  d.getLsbD sig = true ∧ (p.signalActions sig).handler ≠ sigIgn ∧
    ((p.signalActions sig).handler = sigDfl → defaultAction sig ≠ .ignore)

instance (p : Process) (d : SigSet) (sig : Fin 64) : Decidable (p.Acts d sig) := inferInstanceAs (Decidable (_ ∧ _ ∧ (_ → _)))

def nextActed (p : Process) (d : SigSet) (sigs : List (Fin 64)) : Option (Fin 64) := sigs.find? fun sig => p.Acts d sig

def Handles (p : Process) (d : SigSet) (sigs : List (Fin 64)) : Prop :=
  ∃ sig ∈ p.nextActed d sigs, (p.signalActions sig).handler ≠ sigDfl

instance (p : Process) (d : SigSet) (sigs : List (Fin 64)) : Decidable (p.Handles d sigs) :=
  decidable_of_iff (((p.nextActed d sigs).any fun sig => decide ((p.signalActions sig).handler ≠ sigDfl)) = true) (by
    rw [Handles]
    cases p.nextActed d sigs <;> simp)

theorem nextActed_acts (h : p.nextActed d sigs = some sig) : p.Acts d sig := by
  rw [nextActed] at h
  have := List.find?_some h
  exact of_decide_eq_true this

private theorem nextActed_none (h : p.nextActed d sigs = none) (hd : d.getLsbD sig = true)
    (hdfl : (p.signalActions sig).handler = sigDfl) (hact : defaultAction sig ≠ .ignore) : sig ∉ sigs := by
  intro hm
  have := List.find?_eq_none.mp h sig hm
  refine this (decide_eq_true ⟨hd, ?_, fun _ => hact⟩)
  rw [hdfl]
  decide

@[simp] theorem setPending_pendingSignals (p : Process) (x : SigSet) : (p.setPending x).pendingSignals = x := rfl

private theorem setAction_other (p : Process) (sa : SigAction) (h : i ≠ sig) :
    (p.setAction sig sa).signalActions i = p.signalActions i := Function.update_of_ne h _ _

/-- No handler runs, and the process cannot block or handle a SIGKILL. -/
structure Open (p : Process) : Prop where
  outside : p.inSignalHandler = 0
  mask : Spares p.signalMask
  kill : (p.signalActions sigKill).handler = sigDfl

theorem Open.setMask (h : p.Open) {mask : SigSet} (hm : Spares mask) : (p.setMask mask).Open := ⟨h.outside, hm, h.kill⟩

theorem Open.setPending (h : p.Open) (pending : SigSet) : (p.setPending pending).Open := ⟨h.outside, h.mask, h.kill⟩

theorem Open.setAction (h : p.Open) (hsig : sig ≠ sigKill) (sa : SigAction) : (p.setAction sig sa).Open := by
  refine ⟨h.outside, h.mask, ?_⟩
  rw [setAction_other p sa hsig.symm]
  exact h.kill

theorem handled?_ne {signum : Int} (h : handled? signum = some sig) : sig ≠ sigKill := by
  rw [handled?] at h
  split_ifs at h with hrange
  dsimp only at h
  split_ifs at h with hno
  cases h
  exact fun h => hno (Or.inl h)

/-- What a call on actions or the mask keeps. -/
def Keeps (p p' : Process) : Prop :=
  (p.Open → p'.Open) ∧ p'.pendingSignals = p.pendingSignals ∧ p'.inSignalHandler = p.inSignalHandler

theorem sysSignal_keeps (p : Process) (signum : Int) (handler : Word) : p.Keeps (p.sysSignal signum handler).1 := by
  rw [sysSignal]
  cases hs : handled? signum with
  | none => exact ⟨fun h => h, rfl, rfl⟩
  | some sig => exact ⟨fun h => h.setAction (handled?_ne hs) _, rfl, rfl⟩

theorem sysSigaction_keeps (p : Process) (signum : Int) (act : Option SigAction) : p.Keeps (p.sysSigaction signum act).1 := by
  rw [sysSigaction]
  cases hs : handled? signum with
  | none => exact ⟨fun h => h, rfl, rfl⟩
  | some sig =>
    cases act with
    | none => exact ⟨fun h => h, rfl, rfl⟩
    | some sa => exact ⟨fun h => h.setAction (handled?_ne hs) _, rfl, rfl⟩

theorem sysSignal_signalMask (p : Process) (signum : Int) (handler : Word) :
    (p.sysSignal signum handler).1.signalMask = p.signalMask := by
  rw [sysSignal]
  cases handled? signum <;> rfl

theorem sysSigaction_signalMask (p : Process) (signum : Int) (act : Option SigAction) :
    (p.sysSigaction signum act).1.signalMask = p.signalMask := by
  rw [sysSigaction]
  cases handled? signum with
  | none => rfl
  | some sig => cases act <;> rfl

theorem sysSigprocmask_keeps (p : Process) (how : Int) (set : Option SigSet) : p.Keeps (p.sysSigprocmask how set).1 := by
  cases set with
  | none => exact ⟨fun h => h, rfl, rfl⟩
  | some set =>
    unfold sysSigprocmask
    split_ifs
    · exact ⟨fun h => h.setMask (spares_blockable _), rfl, rfl⟩
    · exact ⟨fun h => h.setMask (spares_blockable _), rfl, rfl⟩
    · exact ⟨fun h => h.setMask (spares_blockable _), rfl, rfl⟩
    · exact ⟨fun h => h, rfl, rfl⟩

end Process

namespace SignalState
variable {s t : SignalState} {d : SigSet} {sig : Fin 64} {sigs : List (Fin 64)}

def deliverable (s : SignalState) : SigSet := s.process.pendingSignals &&& ~~~s.process.signalMask

def withPending (s : SignalState) (pending : SigSet) : SignalState := { s with process := s.process.setPending pending }

def act (s : SignalState) : Option (Fin 64) → SignalState × SignalOutcome
  | none => (s, .returned)
  | some sig =>
    if (s.process.signalActions sig).handler = sigDfl then
      match defaultAction sig with
      | .terminate =>
        ({ s with process := { s.process with state := .zombie, exitCode := BitVec.ofNat 32 (128 + sig) } },
          .terminated (128 + sig))
      | _ => ({ s with process := { s.process with state := .waiting } }, .stopped sig)
    else (s.enterHandler sig, .entered sig)

theorem act_handler (h : (s.process.signalActions sig).handler ≠ sigDfl) :
    s.act (some sig) = (s.enterHandler sig, .entered sig) := if_neg h

theorem act_default (h : (s.process.signalActions sig).handler = sigDfl) :
    s.act (some sig) = match defaultAction sig with
      | .terminate =>
        ({ s with process := { s.process with state := .zombie, exitCode := BitVec.ofNat 32 (128 + sig) } },
          .terminated (128 + sig))
      | _ => ({ s with process := { s.process with state := .waiting } }, .stopped sig) := if_pos h

theorem handleFrom_eq (d : SigSet) (sigs : List (Fin 64)) (s : SignalState) :
    ∃ pending, (∀ i : Fin 64, (d.getLsbD i = true → i ∉ sigs) → pending.getLsbD i = s.process.pendingSignals.getLsbD i) ∧
      handleFrom d sigs s = (s.withPending pending).act (s.process.nextActed d sigs) := by
  induction sigs generalizing s with
  | nil => exact ⟨_, fun _ _ => rfl, rfl⟩
  | cons sig sigs ih =>
    by_cases hd : d.getLsbD sig = false
    · obtain ⟨pending, hp, heq⟩ := ih s
      refine ⟨pending, fun i hi => hp i fun h => fun hm => hi h (.tail _ hm), ?_⟩
      have hno : ¬ s.process.Acts d sig := fun h => absurd h.1 (by rw [hd]; decide)
      rw [handleFrom, if_pos hd, heq, nextActed, nextActed, List.find?_cons_of_neg (by simpa using hno)]
    · -- the cleared signal is one of those given
      have hclear : ∀ pending : SigSet,
          (∀ i : Fin 64, (d.getLsbD i = true → i ∉ sigs) →
            pending.getLsbD i = (s.clearPending sig).process.pendingSignals.getLsbD i) →
          ∀ i : Fin 64, (d.getLsbD i = true → i ∉ sig :: sigs) → pending.getLsbD i = s.process.pendingSignals.getLsbD i := by
        intro pending hp i hi
        have hne : sig ≠ i := fun h => hi (h ▸ by simpa using hd) (h ▸ (.head _))
        rw [hp i fun h hm => hi h (List.mem_cons_of_mem _ hm), clearPending, Process.setPending_pendingSignals,
          BitVec.getLsbD_and, BitVec.getLsbD_not, getLsbD_sigBit, decide_eq_false hne]
        simp
      obtain ⟨pending, hp, heq⟩ := ih (s.clearPending sig)
      have hskip : ¬ s.process.Acts d sig →
          (s.clearPending sig |>.withPending pending).act ((s.clearPending sig).process.nextActed d sigs) =
            (s.withPending pending).act (s.process.nextActed d (sig :: sigs)) := by
        intro hno
        rw [Process.nextActed, Process.nextActed, List.find?_cons_of_neg (by simpa using hno)]
        rfl
      have hactions : ((s.clearPending sig).process.signalActions sig) = s.process.signalActions sig := rfl
      have hfound : s.process.Acts d sig → s.process.nextActed d (sig :: sigs) = some sig := fun h =>
        List.find?_cons_of_pos (decide_eq_true h)
      rw [handleFrom, if_neg hd]
      dsimp only
      rw [hactions]
      by_cases hign : (s.process.signalActions sig).handler = sigIgn
      · rw [if_pos hign, heq]
        exact ⟨pending, hclear pending hp, hskip fun h => h.2.1 hign⟩
      rw [if_neg hign]
      by_cases hdfl : (s.process.signalActions sig).handler = sigDfl
      · rw [if_pos hdfl]
        cases hact : defaultAction sig with
        | ignore =>
          rw [heq]
          exact ⟨pending, hclear pending hp, hskip fun h => h.2.2 hdfl hact⟩
        | stop =>
          refine ⟨_, hclear _ fun _ _ => rfl, ?_⟩
          rw [hfound ⟨by simpa using hd, hign, fun _ => by rw [hact]; decide⟩]
          exact ((act_default (s := s.clearPending sig) hdfl).trans (by rw [hact])).symm
        | terminate =>
          refine ⟨_, hclear _ fun _ _ => rfl, ?_⟩
          rw [hfound ⟨by simpa using hd, hign, fun _ => by rw [hact]; decide⟩]
          exact ((act_default (s := s.clearPending sig) hdfl).trans (by rw [hact])).symm
      · rw [if_neg hdfl]
        refine ⟨_, hclear _ fun _ _ => rfl, ?_⟩
        rw [hfound ⟨by simpa using hd, hign, fun h => absurd h hdfl⟩]
        exact (act_handler (s := s.clearPending sig) hdfl).symm

private theorem handleFrom_zero (sigs : List (Fin 64)) (s : SignalState) : handleFrom 0 sigs s = (s, .returned) := by
  induction sigs with
  | nil => rfl
  | cons sig sigs ih => rwa [handleFrom, if_pos (by simp)]

theorem handleSignals_eq (hmode : s.regs.UserMode) (hout : s.process.inSignalHandler = 0) :
    s.handleSignals = handleFrom s.deliverable (signalsAfter 0) s := by
  rw [handleSignals, if_neg (not_not.mpr hmode), if_neg (not_not.mpr hout)]
  dsimp only
  split_ifs with hd
  · rw [deliverable, hd, handleFrom_zero]
  · rfl

@[simp] theorem enterHandler_inSignalHandler (s : SignalState) (sig : Fin 64) :
    (s.enterHandler sig).process.inSignalHandler = 1 := by
  rw [enterHandler]
  split_ifs <;> rfl

@[simp] theorem enterHandler_signalMask (s : SignalState) (sig : Fin 64) :
    (s.enterHandler sig).process.signalMask = s.process.handlerMask sig := by
  rw [enterHandler]
  split_ifs <;> rfl

def effectiveBlocked (s : SignalState) : SigSet :=
  if s.process.inSignalHandler = 0 then s.process.signalMask else BitVec.allOnes 64

private theorem spares_effectiveBlocked : Spares s.effectiveBlocked ↔ s.process.inSignalHandler = 0 ∧ Spares s.process.signalMask := by
  rw [effectiveBlocked]
  split_ifs with h
  · exact (and_iff_right h).symm
  · refine iff_of_false (fun hs => ?_) (fun hs => h hs.1)
    exact absurd hs.1 (by decide)

end SignalState

/-- Where a process is between two steps. -/
inductive SignalStage where
  | user
  | suspended (oldMask : SigSet)
  /-- In the loop of `handle_signals`, stopped by a signal. -/
  | stopped (deliverable : SigSet) (sig : Fin 64)
  | ended
  deriving DecidableEq

structure SignalRun extends SignalState where
  stage : SignalStage
  /-- The last step ended with a return to user mode. -/
  inUser : Bool

inductive SignalEvent where
  | program (regs : Registers) (memory : UserMemory)
  /-- An interrupt or an exception, whose way back passes `handle_signals`. -/
  | interrupt
  | sysSignal (signum : Int) (handler : Word)
  | sysSigaction (signum : Int) (act : Option SigAction)
  | sysSigprocmask (how : Int) (set : Option SigSet)
  | sysSigsuspend (mask : SigSet)
  | sysSigreturn
  | sysKill (sig : Fin 64)
  /-- Another process, or a timer, sends a signal. -/
  | raise (sig : Fin 64)
  /-- `schedule` returns to the process. -/
  | resume

namespace SignalRun

def still (r : SignalRun) : SignalRun := { r with inUser := false }

def raised (r : SignalRun) (sig : Fin 64) : SignalRun := { r with process := r.process.raise sig, inUser := false }

def callReturns (r : SignalRun) (p : Process) (result : Int) : SignalRun :=
  { r with process := p, regs := { r.regs with eax := BitVec.ofInt 32 result }, stage := .user, inUser := true }

def signalsHandled (deliverable : SigSet) : SignalState × SignalOutcome → SignalRun
  | (s, .returned) => { s with stage := .user, inUser := true }
  | (s, .entered _) => { s with stage := .user, inUser := true }
  | (s, .stopped sig) => { s with stage := .stopped deliverable sig, inUser := false }
  | (s, .terminated _) => { s with stage := .ended, inUser := false }

def userStep (r : SignalRun) : SignalEvent → SignalRun
  | .program regs memory => if regs.UserMode then { r with regs, memory, inUser := false } else r.still
  | .interrupt => signalsHandled r.deliverable r.handleSignals
  | .sysSignal signum handler =>
    let x := r.process.sysSignal signum handler
    r.callReturns x.1 x.2
  | .sysSigaction signum act =>
    let x := r.process.sysSigaction signum act
    r.callReturns x.1 x.2.1
  | .sysSigprocmask how set =>
    let x := r.process.sysSigprocmask how set
    r.callReturns x.1 x.2.1
  | .sysSigsuspend mask => { r with process := r.process.suspend mask, stage := .suspended r.process.signalMask, inUser := false }
  | .sysSigreturn => { r.sysSigreturnCall with stage := .user, inUser := true }
  | .sysKill sig => r.callReturns (r.process.raise sig) 0
  | .raise sig => r.raised sig
  | .resume => r.still

/-- The way on from `schedule` in the loop of a process that waits. -/
def resumeStep (r : SignalRun) : SignalRun :=
  match r.stage with
  | .suspended oldMask => if r.process.Awake then r.callReturns (r.process.setMask oldMask) (-4) else r.still
  | .stopped deliverable sig =>
    signalsHandled deliverable (handleFrom deliverable (signalsAfter sig) r.toSignalState)
  | _ => r.still

def kernelStep (r : SignalRun) : SignalEvent → SignalRun
  | .raise sig => r.raised sig
  | .resume => r.resumeStep
  | _ => r.still

def exec (r : SignalRun) (e : SignalEvent) : SignalRun := if r.stage = .user then r.userStep e else r.kernelStep e

/-- SIGKILL and SIGSTOP are not blocked, and a SIGKILL does not outlive a return to user mode. -/
def Unblocked (r : SignalRun) : Prop :=
  Spares r.effectiveBlocked ∧ (r.inUser = true → r.process.pendingSignals.getLsbD sigKill = false)

structure Clean (r : SignalRun) : Prop where
  mode : r.regs.UserMode
  isOpen : r.process.Open
  oldMask : ∀ oldMask, r.stage = .suspended oldMask → Spares oldMask

def CallMisses (r : SignalRun) : Prop := r.stage = .user ∧ r.process.pendingSignals.getLsbD sigKill = true

def ResumeMisses (r : SignalRun) : SignalStage → Prop
  | .suspended _ => r.process.Awake ∧ r.process.pendingSignals.getLsbD sigKill = true
  | .stopped deliverable sig =>
    r.process.Handles deliverable (signalsAfter sig) ∨
      r.process.nextActed deliverable (signalsAfter sig) = none ∧ r.process.pendingSignals.getLsbD sigKill = true
  | .user | .ended => False

/-- The steps that enter a handler, or return to user mode past a pending SIGKILL. -/
def Slips (r : SignalRun) : SignalEvent → Prop
  | .interrupt => r.stage = .user ∧ r.process.Handles r.deliverable (signalsAfter 0)
  | .sysSignal .. | .sysSigaction .. | .sysSigprocmask .. | .sysSigreturn => r.CallMisses
  | .sysKill sig => r.stage = .user ∧ (sig = sigKill ∨ r.process.pendingSignals.getLsbD sigKill = true)
  | .resume => r.ResumeMisses r.stage
  | .program .. | .sysSigsuspend _ | .raise _ => False

instance (r : SignalRun) : Decidable r.CallMisses := inferInstanceAs (Decidable (_ ∧ _))

instance (r : SignalRun) : ∀ stage, Decidable (r.ResumeMisses stage)
  | .suspended _ => inferInstanceAs (Decidable (_ ∧ _))
  | .stopped .. => inferInstanceAs (Decidable (_ ∨ _))
  | .user | .ended => instDecidableFalse

instance (r : SignalRun) : ∀ e, Decidable (r.Slips e)
  | .interrupt | .sysKill _ => inferInstanceAs (Decidable (_ ∧ _))
  | .sysSignal .. | .sysSigaction .. | .sysSigprocmask .. | .sysSigreturn => inferInstanceAs (Decidable r.CallMisses)
  | .resume => inferInstanceAs (Decidable (r.ResumeMisses _))
  | .program .. | .sysSigsuspend _ | .raise _ => instDecidableFalse

instance (r : SignalRun) : Decidable r.Unblocked := inferInstanceAs (Decidable (_ ∧ (_ → _)))

/-- What a step comes to: it does what is claimed exactly where it does not slip, and then the process is clean again. -/
def Good (r' : SignalRun) (slips : Prop) : Prop := (r'.Unblocked ↔ ¬ slips) ∧ (r'.Unblocked → r'.Clean)

variable {r : SignalRun} {s : SignalState} {d : SigSet} {sigs : List (Fin 64)}

theorem unblocked_open (h : r.process.Open) :
    r.Unblocked ↔ (r.inUser = true → r.process.pendingSignals.getLsbD sigKill = false) :=
  and_iff_right (spares_effectiveBlocked.mpr ⟨h.outside, h.mask⟩)

theorem good_inside {r' : SignalRun} (h : r'.Clean) (hin : r'.inUser = false) : Good r' False := by
  refine ⟨iff_of_true ((unblocked_open h.isOpen).mpr fun hu => ?_) not_false, fun _ => h⟩
  rw [hin] at hu
  cases hu

theorem good_callReturns (h : r.Clean) {p : Process} (hp : p.Open) (result : Int) :
    Good (r.callReturns p result) (p.pendingSignals.getLsbD sigKill = true) := by
  constructor
  · rw [unblocked_open (r := r.callReturns p result) hp, Bool.not_eq_true]
    exact ⟨fun hu => hu rfl, fun hk _ => hk⟩
  · exact fun _ => ⟨h.mode, hp, fun _ hs => nomatch hs⟩

theorem good_call (h : r.Clean) (hstage : r.stage = .user) {p : Process} (hp : r.process.Keeps p) (result : Int) :
    Good (r.callReturns p result) r.CallMisses := by
  have hgood := good_callReturns h (hp.1 h.isOpen) result
  rw [hp.2.1] at hgood
  rwa [CallMisses, eq_true hstage, true_and]

private theorem good_signalsHandled (hmode : s.regs.UserMode) (h : s.process.Open) (d : SigSet) (sigs : List (Fin 64)) :
    Good (signalsHandled d (handleFrom d sigs s))
      (s.process.Handles d sigs ∨ s.process.nextActed d sigs = none ∧ s.process.pendingSignals.getLsbD sigKill = true) := by
  obtain ⟨pending, hpending, heq⟩ := handleFrom_eq d sigs s
  rw [heq]
  cases hnext : s.process.nextActed d sigs with
  | none =>
    have hkill : pending.getLsbD sigKill = s.process.pendingSignals.getLsbD sigKill :=
      hpending _ fun hd => Process.nextActed_none hnext hd h.kill (by decide)
    have hno : ¬ s.process.Handles d sigs := by
      rintro ⟨sig, hsig, -⟩
      rw [hnext] at hsig
      cases hsig
    rw [eq_false hno, false_or, eq_self, true_and, ← hkill]
    constructor
    · rw [unblocked_open (h.setPending pending), Bool.not_eq_true]
      exact ⟨fun hu => hu rfl, fun hk _ => hk⟩
    · exact fun _ => ⟨hmode, h.setPending pending, fun _ hs => nomatch hs⟩
  | some sig =>
    have hnone : ¬ (some sig = none ∧ s.process.pendingSignals.getLsbD sigKill = true) := fun h => nomatch h.1
    rw [eq_false hnone, or_false]
    by_cases hdfl : (s.process.signalActions sig).handler = sigDfl
    · have hno : ¬ s.process.Handles d sigs := by
        rintro ⟨sig', hsig', hh⟩
        rw [hnext] at hsig'
        cases hsig'
        exact hh hdfl
      rw [eq_false hno, act_default (s := s.withPending pending) hdfl]
      cases hact : defaultAction sig with
      | ignore => exact absurd hact ((nextActed_acts hnext).2.2 hdfl)
      | stop => exact good_inside ⟨hmode, ⟨h.outside, h.mask, h.kill⟩, fun _ hs => nomatch hs⟩ rfl
      | terminate => exact good_inside ⟨hmode, ⟨h.outside, h.mask, h.kill⟩, fun _ hs => nomatch hs⟩ rfl
    · have hnot : ¬ (signalsHandled d ((s.withPending pending).enterHandler sig, .entered sig)).Unblocked := by
        intro hu
        have hout := (spares_effectiveBlocked.mp hu.1).1
        rw [signalsHandled, enterHandler_inSignalHandler] at hout
        exact absurd hout (by decide)
      rw [act_handler (s := s.withPending pending) hdfl]
      exact ⟨iff_of_false hnot (not_not.mpr ⟨sig, hnext, hdfl⟩), fun hu => absurd hu hnot⟩

/-- A SIGKILL that is pending is not overlooked on the way through `handle_signals`. -/
theorem kill_acted (h : s.process.Open) (hkill : s.process.pendingSignals.getLsbD sigKill = true) :
    s.process.nextActed s.deliverable (signalsAfter 0) ≠ none := by
  intro hnone
  refine nextActed_none hnone ?_ h.kill (by decide) (by decide)
  rw [deliverable, BitVec.getLsbD_and, BitVec.getLsbD_not, hkill, h.mask.1]
  simp

theorem good_still (h : r.Clean) : Good r.still False := good_inside ⟨h.mode, h.isOpen, h.oldMask⟩ rfl

private theorem good_raised (h : r.Clean) (sig : Fin 64) : Good (r.raised sig) False :=
  good_inside ⟨h.mode, h.isOpen.setPending _, h.oldMask⟩ rfl

private theorem good_userStep (h : r.Clean) (hstage : r.stage = .user) (e : SignalEvent) : Good (r.userStep e) (r.Slips e) := by
  cases e with
  | program regs memory =>
    dsimp only [userStep]
    split_ifs with hmode
    · exact good_inside ⟨hmode, h.isOpen, h.oldMask⟩ rfl
    · exact good_still h
  | interrupt =>
    have hgood := good_signalsHandled h.mode h.isOpen r.deliverable (SignalState.signalsAfter 0)
    have hseen : ¬ (r.process.nextActed r.deliverable (SignalState.signalsAfter 0) = none ∧
        r.process.pendingSignals.getLsbD sigKill = true) := fun hn => kill_acted h.isOpen hn.2 hn.1
    dsimp only [userStep]
    rw [SignalState.handleSignals_eq h.mode h.isOpen.outside, Slips, eq_true hstage, true_and]
    rwa [eq_false hseen, or_false] at hgood
  | sysSignal signum handler => exact good_call h hstage (r.process.sysSignal_keeps signum handler) _
  | sysSigaction signum act => exact good_call h hstage (r.process.sysSigaction_keeps signum act) _
  | sysSigprocmask how set => exact good_call h hstage (r.process.sysSigprocmask_keeps how set) _
  | sysSigsuspend mask =>
    refine good_inside ⟨h.mode, h.isOpen.setMask (spares_blockable mask), fun oldMask hold => ?_⟩ rfl
    obtain rfl := SignalStage.suspended.inj hold
    exact h.isOpen.mask
  | sysSigreturn =>
    have hret : r.userStep .sysSigreturn = r.callReturns r.process (-22) := by
      rw [userStep, SignalState.sysSigreturnCall, SignalState.kernelSigreturn, if_pos h.isOpen.outside]
      rfl
    rw [hret]
    exact good_call h hstage ⟨fun h => h, rfl, rfl⟩ _
  | sysKill sig =>
    have hgood := good_callReturns h (h.isOpen.setPending (r.process.pendingSignals ||| sigBit sig)) 0
    rw [Process.setPending_pendingSignals, BitVec.getLsbD_or, getLsbD_sigBit, Bool.or_eq_true, decide_eq_true_eq, or_comm] at hgood
    rwa [Slips, eq_true hstage, true_and]
  | raise sig => exact good_raised h sig
  | resume =>
    rw [Slips, hstage]
    exact good_still h

private theorem good_resumeStep (h : r.Clean) : Good r.resumeStep (r.Slips .resume) := by
  rw [resumeStep, Slips]
  cases hstage : r.stage with
  | user => exact good_still h
  | suspended oldMask =>
    split_ifs with hawake
    · rw [ResumeMisses, eq_true hawake, true_and]
      exact good_callReturns h (h.isOpen.setMask (h.oldMask oldMask hstage)) (-4)
    · rw [ResumeMisses, eq_false hawake, false_and]
      exact good_still h
  | stopped deliverable sig => exact good_signalsHandled h.mode h.isOpen deliverable (signalsAfter sig)
  | ended => exact good_still h

private theorem good_kernelStep (h : r.Clean) (hstage : r.stage ≠ .user) (e : SignalEvent) : Good (r.kernelStep e) (r.Slips e) := by
  have hcalls : ¬ r.CallMisses := fun hm => hstage hm.1
  cases e with
  | raise sig => exact good_raised h sig
  | resume => exact good_resumeStep h
  | program | sysSigsuspend => exact good_still h
  | interrupt | sysKill =>
    rw [Slips, eq_false hstage, false_and]
    exact good_still h
  | sysSignal | sysSigaction | sysSigprocmask | sysSigreturn =>
    rw [Slips, eq_false hcalls]
    exact good_still h

private theorem exec_good (h : r.Clean) (e : SignalEvent) : Good (r.exec e) (r.Slips e) := by
  rw [exec]
  split_ifs with hstage
  · exact good_userStep h hstage e
  · exact good_kernelStep h hstage e

/-- SIGKILL and SIGSTOP stay deliverable and SIGKILL ends the process on its way back to user mode, in exactly the runs
that enter no handler and have no way back past a pending SIGKILL that does not look at signals. -/
theorem kill_runs (h : r.Clean) (es : List SignalEvent) :
    Along exec (fun r e => (r.exec e).Unblocked) r es ↔ Along exec (fun r e => ¬ r.Slips e) r es :=
  Along.iff (fun _ e h => (exec_good h e).1) (fun _ e h => (exec_good h e).2) h

def newProcess : SignalRun where
  process := zero
  savedContext := ⟨0, 0, 0, 0, 0, 0, 0, 0, 0, 0, 0, 0, 0, 0, 0, 0⟩
  regs := ⟨0x23, 0, 0, 0, 0, 0, 0, 0, 0, 0, 0, 0x40000000, 0x1B, 0x202, 0x50000000, 0x23⟩
  memory _ := 0
  stage := .user
  inUser := true

private theorem newProcess_clean : newProcess.Clean := ⟨by decide, ⟨by decide, by decide, by decide⟩, fun _ h => nomatch h⟩

/-- It asks for all signals to be blocked, but not these two. -/
theorem killed_in_spite :
    let es := [.sysSigprocmask sigSetmask (some (BitVec.allOnes 64)), .raise sigKill, .interrupt]
    Along exec (fun r e => (r.exec e).Unblocked) newProcess es ∧ (es.foldl exec newProcess).stage = .ended :=
  ⟨(kill_runs newProcess_clean _).mpr (by decide +kernel), by decide +kernel⟩

theorem survives_in_handler :
    let es := [.sysSignal 10 0x40001000, .raise 10, .interrupt, .raise sigKill, .interrupt]
    let r := es.foldl exec newProcess
    newProcess.Clean ∧ ¬ Along exec (fun r e => (r.exec e).Unblocked) newProcess es ∧
      r.stage = .user ∧ r.inUser = true ∧ r.process.pendingSignals.getLsbD sigKill = true :=
  ⟨newProcess_clean, by decide +kernel, by decide +kernel, by decide +kernel, by decide +kernel⟩

end SignalRun
end RetroOs.Kernel
