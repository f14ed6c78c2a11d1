import RetroOs.Kernel.SignalRuns

/-! The way into a handler and back. The return restores the registers whatever the handler did, but neither the
mask nor, as a system call, `eax`; and the handler is not entered as a called function is. -/
namespace RetroOs.Kernel
open Lib BitVec

namespace SignalState
variable {s t : SignalState} {sig : Fin 64}

def CalledWith (s : SignalState) (returnAddress argument : Word) : Prop :=
  s.memory.load32 s.regs.useresp = returnAddress ∧ s.memory.load32 (s.regs.useresp + 4) = argument

private theorem handleSignals_entered (h : s.handleSignals = (t, .entered sig)) :
    ∃ pending, t = (s.withPending pending).enterHandler sig ∧ s.process.Acts s.deliverable sig := by
  have hmode : s.regs.UserMode := by
    by_contra hmode
    rw [handleSignals, if_pos hmode] at h
    cases h
  have hout : s.process.inSignalHandler = 0 := by
    by_contra hout
    rw [handleSignals, if_neg (not_not.mpr hmode), if_pos hout] at h
    cases h
  obtain ⟨pending, -, heq⟩ := handleFrom_eq s.deliverable (signalsAfter 0) s
  rw [handleSignals_eq hmode hout, heq] at h
  cases hnext : s.process.nextActed s.deliverable (signalsAfter 0) with
  | none =>
    rw [hnext] at h
    cases h
  | some acted =>
    rw [hnext] at h
    by_cases hdfl : (s.process.signalActions acted).handler = sigDfl
    · rw [act_default (s := s.withPending pending) hdfl] at h
      cases hact : defaultAction acted <;> rw [hact] at h <;> cases h
    · rw [act_handler (s := s.withPending pending) hdfl] at h
      obtain ⟨rfl, hsig⟩ := Prod.mk.inj h
      obtain rfl := SignalOutcome.entered.inj hsig
      exact ⟨pending, rfl, Process.nextActed_acts hnext⟩

private theorem enterHandler_calledWith (s : SignalState) (sig : Fin 64) :
    (s.enterHandler sig).CalledWith (BitVec.ofNat 32 sig) returnMarker := by
  have hesp : (s.enterHandler sig).regs.useresp = s.regs.useresp - 4 - 4 := rfl
  have hmem : (s.enterHandler sig).memory =
      (s.memory.store32 (s.regs.useresp - 4) returnMarker).store32 (s.regs.useresp - 4 - 4) (BitVec.ofNat 32 sig) := rfl
  constructor
  · rw [hesp, hmem, UserMemory.load32_store32]
  · rw [hesp, hmem, UserMemory.load32_store32_next, sub_add_cancel, UserMemory.load32_store32]

private theorem deliverable_signalMask (h : s.process.Acts s.deliverable sig) : s.process.signalMask.getLsbD sig = false := by
  have := h.1
  rw [deliverable, getLsbD_and, getLsbD_not, Bool.and_eq_true] at this
  simpa using this.2

private theorem handlerMask_eq (h : s.process.Acts s.deliverable sig) :
    s.process.handlerMask sig = s.process.signalMask ↔
      (s.process.signalActions sig).flags &&& saNodefer ≠ 0 ∧
        s.process.signalMask ||| (s.process.signalActions sig).mask = s.process.signalMask := by
  have hclear := deliverable_signalMask h
  rw [Process.handlerMask]
  split_ifs with hdefer
  · refine iff_of_false (fun heq => ?_) (fun hn => hn.1 hdefer)
    have := congrArg (fun m : SigSet => m.getLsbD sig) heq
    rw [getLsbD_or, getLsbD_or, getLsbD_sigBit, decide_eq_true rfl, Bool.or_true, Bool.true_or, hclear] at this
    cases this
  · exact (and_iff_right hdefer).symm

private theorem handlerMask_blocks (h : s.process.Acts s.deliverable sig) :
    (s.process.handlerMask sig).getLsbD sig = true ↔
      (s.process.signalActions sig).flags &&& saNodefer = 0 ∨ (s.process.signalActions sig).mask.getLsbD sig = true := by
  have hclear := deliverable_signalMask h
  rw [Process.handlerMask, getLsbD_or, Bool.or_eq_true]
  split_ifs with hdefer
  · rw [getLsbD_or, getLsbD_sigBit, decide_eq_true rfl, Bool.or_true]
    exact iff_of_true (Or.inl rfl) (Or.inl hdefer)
  · rw [hclear, eq_false hdefer]
    exact or_congr_left (by decide)

end SignalState

namespace SignalRun
variable {r r' : SignalRun} {e : SignalEvent} {es : List SignalEvent}

def programMask (r : SignalRun) : SigSet :=
  match r.stage with
  | .suspended oldMask => oldMask
  | _ => r.process.signalMask

structure InHandler (r : SignalRun) : Prop where
  inside : r.process.inSignalHandler ≠ 0
  stage : ∀ deliverable sig, r.stage ≠ .stopped deliverable sig

/-- What a step in a handler leaves as it is. -/
structure Stays (r r' : SignalRun) : Prop where
  inside : r'.process.inSignalHandler = r.process.inSignalHandler
  saved : r'.savedContext = r.savedContext
  stage : ∀ deliverable sig, r'.stage ≠ .stopped deliverable sig

def SetsMask : SignalEvent → Prop
  | .sysSigprocmask _ (some _) => True
  | _ => False

theorem InHandler.handleSignals (h : r.InHandler) : r.toSignalState.handleSignals = (r.toSignalState, .returned) := by
  rw [SignalState.handleSignals]
  by_cases hmode : r.regs.UserMode
  · rw [if_neg (not_not.mpr hmode), if_pos h.inside]
  · rw [if_pos hmode]

theorem InHandler.stays (h : r.InHandler) (he : e ≠ .sysSigreturn) : Stays r (r.exec e) := by
  have hcall : ∀ p x, p.inSignalHandler = r.process.inSignalHandler → Stays r (r.callReturns p x) :=
    fun p x hp => ⟨hp, rfl, fun _ _ hs => by cases hs⟩
  have hstill : Stays r r.still := ⟨rfl, rfl, h.stage⟩
  have hraised : ∀ sig, Stays r (r.raised sig) := fun _ => ⟨rfl, rfl, h.stage⟩
  rw [exec]
  split_ifs with hstage
  · cases e with
    | program regs memory =>
      dsimp only [userStep]
      split_ifs
      · exact ⟨rfl, rfl, h.stage⟩
      · exact hstill
    | interrupt =>
      rw [userStep, h.handleSignals]
      exact ⟨rfl, rfl, fun _ _ hs => by cases hs⟩
    | sysSignal signum handler => exact hcall _ _ (r.process.sysSignal_keeps signum handler).2.2
    | sysSigaction signum act => exact hcall _ _ (r.process.sysSigaction_keeps signum act).2.2
    | sysSigprocmask how set => exact hcall _ _ (r.process.sysSigprocmask_keeps how set).2.2
    | sysSigsuspend mask => exact ⟨rfl, rfl, fun _ _ hs => by cases hs⟩
    | sysSigreturn => exact absurd rfl he
    | sysKill sig => exact hcall _ _ rfl
    | raise sig => exact hraised sig
    | resume => exact hstill
  · cases e with
    | raise sig => exact hraised sig
    | resume =>
      dsimp only [kernelStep]
      rw [resumeStep]
      cases hs : r.stage with
      | user => exact hstill
      | suspended oldMask =>
        split_ifs
        · exact hcall _ _ rfl
        · exact hstill
      | stopped deliverable sig => exact absurd hs (h.stage deliverable sig)
      | ended => exact hstill
    | _ => exact hstill

private theorem programMask_of_ne (h : ∀ oldMask, r.stage ≠ .suspended oldMask) : r.programMask = r.process.signalMask := by
  rw [programMask]
  cases hs : r.stage with
  | suspended oldMask => exact absurd hs (h oldMask)
  | _ => rfl

private theorem programMask_suspended {oldMask : SigSet} (h : r.stage = .suspended oldMask) : r.programMask = oldMask := by
  rw [programMask, h]

theorem InHandler.programMask_exec (h : r.InHandler) (he : e ≠ .sysSigreturn) (hset : ¬ SetsMask e) :
    (r.exec e).programMask = r.programMask := by
  have hstill : r.still.programMask = r.programMask := rfl
  have hraised : ∀ sig, (r.raised sig).programMask = r.programMask := fun _ => rfl
  rw [exec]
  split_ifs with hstage
  · have hmask : r.programMask = r.process.signalMask := by rw [programMask, hstage]
    have hcall : ∀ p x, p.signalMask = r.process.signalMask → (r.callReturns p x).programMask = r.programMask :=
      fun p x hp => hp.trans hmask.symm
    cases e with
    | program regs memory =>
      dsimp only [userStep]
      split_ifs
      · rfl
      · exact hstill
    | interrupt =>
      rw [userStep, h.handleSignals]
      exact hmask.symm
    | sysSignal signum handler => exact hcall _ _ (r.process.sysSignal_signalMask signum handler)
    | sysSigaction signum act => exact hcall _ _ (r.process.sysSigaction_signalMask signum act)
    | sysSigprocmask how set =>
      cases set with
      | none => exact hcall _ _ rfl
      | some set => exact absurd trivial hset
    | sysSigsuspend mask => exact hmask.symm
    | sysSigreturn => exact absurd rfl he
    | sysKill sig => exact hcall _ _ rfl
    | raise sig => exact hraised sig
    | resume => exact hstill
  · cases e with
    | raise sig => exact hraised sig
    | resume =>
      dsimp only [kernelStep]
      rw [resumeStep]
      cases hs : r.stage with
      | user => exact hstill
      | suspended oldMask =>
        split_ifs
        · exact (programMask_suspended hs).symm
        · exact hstill
      | stopped deliverable sig => exact absurd hs (h.stage deliverable sig)
      | ended => exact hstill
    | _ => exact hstill

def HandlerRun (es : List SignalEvent) : Prop := ∀ e ∈ es, e ≠ .sysSigreturn

theorem InHandler.run (h : r.InHandler) (hes : HandlerRun es) : Stays r (es.foldl exec r) := by
  induction es generalizing r with
  | nil => exact ⟨rfl, rfl, h.stage⟩
  | cons e es ih =>
    have hstep := h.stays (hes e (.head _))
    have hnext : (r.exec e).InHandler := ⟨hstep.inside ▸ h.inside, hstep.stage⟩
    have hrest := ih hnext fun e he => hes e (.tail _ he)
    exact ⟨hrest.inside.trans hstep.inside, hrest.saved.trans hstep.saved, hrest.stage⟩

theorem InHandler.programMask_run (h : r.InHandler) (hes : HandlerRun es)
    (hset : ∀ e ∈ es, ¬ SetsMask e) : (es.foldl exec r).programMask = r.programMask := by
  induction es generalizing r with
  | nil => rfl
  | cons e es ih =>
    have hstep := h.stays (hes e (.head _))
    have hnext : (r.exec e).InHandler := ⟨hstep.inside ▸ h.inside, hstep.stage⟩
    have hrest := ih hnext (fun e he => hes e (.tail _ he)) fun e he => hset e (.tail _ he)
    exact hrest.trans (h.programMask_exec (hes e (.head _)) (hset e (.head _)))

end SignalRun

namespace SignalState
open SignalRun
variable {s t : SignalState} {sig : Fin 64}

/-- The process in its program, or in a handler of it. -/
def inProgram (s : SignalState) : SignalRun := { s with stage := .user, inUser := true }

def Resumed (s t : SignalState) (sig : Fin 64) : Prop :=
  t.CalledWith returnMarker (BitVec.ofNat 32 sig) ∧
    ∀ es, HandlerRun es → (es.foldl exec t.inProgram).stage = .user →
      (es.foldl exec t.inProgram).kernelSigreturn.1.regs = s.regs ∧
        (es.foldl exec t.inProgram).kernelSigreturn.1.process.signalMask = s.process.signalMask

private theorem kernelSigreturn_inside {u : SignalState} (h : u.process.inSignalHandler ≠ 0) :
    u.kernelSigreturn = ({ u with process := { u.process with inSignalHandler := 0 }, regs := u.savedContext }, 0) :=
  if_neg h

/-- No delivery is as claimed. The stack has the two words the other way around; the registers come back, except that
the system call puts its result into `eax`; and the mask stays as the handler left it. So it comes back, where the
handler does not set it, only for a handler that blocks nothing new, and the signal stays blocked unless SA_NODEFER
lets it through. -/
theorem delivery_returns (h : s.handleSignals = (t, .entered sig)) :
    ¬ Resumed s t sig ∧ t.CalledWith (BitVec.ofNat 32 sig) returnMarker ∧
      ∀ es, HandlerRun es → (es.foldl exec t.inProgram).stage = .user →
        let u := es.foldl exec t.inProgram
        u.kernelSigreturn.1.regs = s.regs ∧ u.sysSigreturnCall.regs = { s.regs with eax := 0 } ∧
          u.kernelSigreturn.1.process.signalMask = u.process.signalMask ∧
          ((∀ e ∈ es, ¬ SetsMask e) →
            (u.kernelSigreturn.1.process.signalMask = s.process.signalMask ↔
              (s.process.signalActions sig).flags &&& saNodefer ≠ 0 ∧
                s.process.signalMask ||| (s.process.signalActions sig).mask = s.process.signalMask) ∧
            (u.kernelSigreturn.1.process.signalMask.getLsbD sig = true ↔
              (s.process.signalActions sig).flags &&& saNodefer = 0 ∨
                (s.process.signalActions sig).mask.getLsbD sig = true)) := by
  obtain ⟨pending, rfl, hacts⟩ := handleSignals_entered h
  have hcalled := (s.withPending pending).enterHandler_calledWith sig
  have hinside : ((s.withPending pending).enterHandler sig).inProgram.InHandler :=
    ⟨by simp [inProgram], fun _ _ hs => by cases hs⟩
  refine ⟨fun hres => ?_, hcalled, fun es hes hstage => ?_⟩
  · -- the marker is no signal
    have hmarker : returnMarker = BitVec.ofNat 32 sig := hres.1.1.symm.trans hcalled.1
    have := congrArg BitVec.toNat hmarker
    rw [BitVec.toNat_ofNat, Nat.mod_eq_of_lt (by omega)] at this
    have : returnMarker.toNat = 3735929054 := by decide
    omega
  · have hrun := hinside.run hes
    have hsaved : (es.foldl exec ((s.withPending pending).enterHandler sig).inProgram).savedContext = s.regs := hrun.saved
    have hret := kernelSigreturn_inside (u := (es.foldl exec ((s.withPending pending).enterHandler sig).inProgram).toSignalState)
      (hrun.inside ▸ hinside.inside)
    dsimp only
    rw [sysSigreturnCall, hret, hsaved]
    refine ⟨rfl, rfl, rfl, fun hset => ?_⟩
    have hmask := hinside.programMask_run hes hset
    rw [programMask_of_ne (by rw [hstage]; exact fun _ hs => by cases hs)] at hmask
    have hentered : ((s.withPending pending).enterHandler sig).inProgram.programMask = s.process.handlerMask sig := by
      exact enterHandler_signalMask (s.withPending pending) sig
    rw [hmask, hentered]
    exact ⟨handlerMask_eq hacts, handlerMask_blocks hacts⟩

/-- A program with a handler for SIGUSR1, and the signal pending. -/
def signalled : SignalState := ([.sysSignal 10 0x40001000, .raise 10].foldl exec newProcess).toSignalState

theorem signalled_entered : signalled.handleSignals = (signalled.handleSignals.1, .entered 10) :=
  Prod.ext rfl (by decide +kernel)

theorem usr1_stays_blocked :
    let t := signalled.handleSignals.1
    signalled.handleSignals = (t, .entered 10) ∧ t.CalledWith 10 returnMarker ∧
      t.kernelSigreturn.1.process.signalMask.getLsbD 10 = true :=
  ⟨signalled_entered, (delivery_returns signalled_entered).2.1,
    (((delivery_returns signalled_entered).2.2 [] (fun _ he => nomatch he) rfl).2.2.2 fun _ he => nomatch he).2.mpr
      (Or.inl (by decide))⟩

theorem usr1_not_resumed :
    ∃ s t, s.handleSignals = (t, .entered 10) ∧ ¬ t.CalledWith returnMarker 10 ∧
      t.kernelSigreturn.1.process.signalMask ≠ s.process.signalMask ∧ ¬ Resumed s t 10 := by
  have hcall : ¬ signalled.handleSignals.1.CalledWith returnMarker 10 := fun h => absurd h.1 (by decide +kernel)
  exact ⟨signalled, signalled.handleSignals.1, signalled_entered, hcall, by decide +kernel, fun h => hcall h.1⟩

end SignalState
end RetroOs.Kernel
