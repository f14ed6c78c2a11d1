import RetroOs.Kernel.Process

/-! Signals of one process: the calls that set masks and actions, the delivery before a return to user mode, and the
return from a handler. The process is the current one, so it is there. -/
namespace RetroOs.Kernel
open Lib

abbrev SigSet := BitVec 64

instance neZero_signals : NeZero 64 := ⟨by decide⟩

def sigKill : Fin 64 := 9
def sigStop : Fin 64 := 19

def sigDfl : Word := 0
def sigIgn : Word := 1

def saNodefer : Word := 0x40000000
def saResethand : Word := 0x80000000

def sigBlock : Int := 0
def sigUnblock : Int := 1
def sigSetmask : Int := 2

/-- Indicates need for the sigreturn call. -/
def returnMarker : Word := 0xDEADC0DE

def sigBit (sig : Fin 64) : SigSet := BitVec.twoPow 64 sig

/-- The bytes of the user's addresses, in 32-bit arithmetic. -/
abbrev UserMemory := Word → UInt8

namespace UserMemory

def store32 (m : UserMemory) (a v : Word) : UserMemory := fun x =>
  if x = a then UInt8.ofBitVec (v.extractLsb' 0 8)
  else if x = a + 1 then UInt8.ofBitVec (v.extractLsb' 8 8)
  else if x = a + 2 then UInt8.ofBitVec (v.extractLsb' 16 8)
  else if x = a + 3 then UInt8.ofBitVec (v.extractLsb' 24 8)
  else m x

def load32 (m : UserMemory) (a : Word) : Word :=
  (m (a + 3)).toBitVec ++ (m (a + 2)).toBitVec ++ (m (a + 1)).toBitVec ++ (m a).toBitVec

theorem store32_other (m : UserMemory) (v : Word) {a x : Word} (h : ∀ i < 4, x ≠ a + BitVec.ofNat 32 i) : m.store32 a v x = m x := by
  have h0 : x ≠ a := by simpa using h 0 (by decide)
  have h1 : x ≠ a + 1 := h 1 (by decide)
  have h2 : x ≠ a + 2 := h 2 (by decide)
  have h3 : x ≠ a + 3 := h 3 (by decide)
  rw [store32, if_neg h0, if_neg h1, if_neg h2, if_neg h3]

theorem load32_store32 (m : UserMemory) (a v : Word) : (m.store32 a v).load32 a = v := by
  have h1 : a + 1 ≠ a := by bv_omega
  have h2 : a + 2 ≠ a := by bv_omega
  have h3 : a + 3 ≠ a := by bv_omega
  have h21 : a + 2 ≠ a + 1 := by bv_omega
  have h31 : a + 3 ≠ a + 1 := by bv_omega
  have h32 : a + 3 ≠ a + 2 := by bv_omega
  simp only [load32, store32, if_neg h1, if_neg h2, if_neg h3, if_neg h21, if_neg h31, if_neg h32, if_true]
  apply BitVec.eq_of_getLsbD_eq
  intro i hi
  grind

theorem load32_store32_next (m : UserMemory) (a v : Word) : (m.store32 a v).load32 (a + 4) = m.load32 (a + 4) := by
  have h : ∀ j < 4, ∀ i < 4, a + 4 + BitVec.ofNat 32 j ≠ a + BitVec.ofNat 32 i := by
    intro j hj i hi
    bv_omega
  have h0 : m.store32 a v (a + 4) = m (a + 4) := by simpa using store32_other m v (h 0 (by decide))
  have h1 : m.store32 a v (a + 4 + 1) = m (a + 4 + 1) := store32_other m v (h 1 (by decide))
  have h2 : m.store32 a v (a + 4 + 2) = m (a + 4 + 2) := store32_other m v (h 2 (by decide))
  have h3 : m.store32 a v (a + 4 + 3) = m (a + 4 + 3) := store32_other m v (h 3 (by decide))
  rw [load32, load32, h0, h1, h2, h3]

end UserMemory

inductive DefaultAction where
  | ignore
  | stop
  | terminate
  deriving DecidableEq

def defaultAction (sig : Fin 64) : DefaultAction :=
  if sig = 17 ∨ sig = 23 ∨ sig = 28 ∨ sig = 18 then .ignore
  else if sig = 19 ∨ sig = 20 ∨ sig = 21 ∨ sig = 22 then .stop
  else .terminate

namespace Process

def setMask (p : Process) (mask : SigSet) : Process := { p with signalMask := mask }

def setPending (p : Process) (pending : SigSet) : Process := { p with pendingSignals := pending }

def setAction (p : Process) (sig : Fin 64) (sa : SigAction) : Process :=
  { p with signalActions := Function.update p.signalActions sig sa }

/-- A mask without the signals that cannot be blocked. -/
def blockable (mask : SigSet) : SigSet := mask &&& ~~~sigBit sigKill &&& ~~~sigBit sigStop

/-- The number of a signal that can have a handler. -/
def handled? (signum : Int) : Option (Fin 64) :=
  if h : 1 ≤ signum ∧ signum < 64 then
    let sig : Fin 64 := ⟨signum.toNat, by omega⟩
    if sig = sigKill ∨ sig = sigStop then none else some sig
  else none

def sysSignal (p : Process) (signum : Int) (handler : Word) : Process × Int :=
  match handled? signum with
  | none => (p, -22)
  | some sig => (p.setAction sig { handler, mask := 0, flags := 0, restorer := 0 }, 0)

/-- The third component is the old action. -/
def sysSigaction (p : Process) (signum : Int) (act : Option SigAction) : Process × Int × Option SigAction :=
  match handled? signum with
  | none => (p, -22, none)
  | some sig =>
    let p' := match act with
      | some sa => p.setAction sig sa
      | none => p
    (p', 0, some (p.signalActions sig))

def sysSigprocmask (p : Process) (how : Int) (set : Option SigSet) : Process × Int × SigSet :=
  let old := p.signalMask
  match set with
  | none => (p, 0, old)
  | some set =>
    if how = sigBlock then (p.setMask (blockable (old ||| set)), 0, old)
    else if how = sigUnblock then (p.setMask (blockable (old &&& ~~~set)), 0, old)
    else if how = sigSetmask then (p.setMask (blockable set), 0, old)
    else (p, -22, old)

/-- `sys_sigsuspend` up to its loop. -/
def suspend (p : Process) (mask : SigSet) : Process := p.setMask (blockable mask)

/-- Some signal is pending that is not blocked: the loop of `sys_sigsuspend` ends. -/
def Awake (p : Process) : Prop := p.pendingSignals &&& ~~~p.signalMask ≠ 0

instance (p : Process) : Decidable p.Awake := inferInstanceAs (Decidable (_ ≠ _))

def raise (p : Process) (sig : Fin 64) : Process := p.setPending (p.pendingSignals ||| sigBit sig)

def handlerMask (p : Process) (sig : Fin 64) : SigSet :=
  let sa := p.signalActions sig
  (if sa.flags &&& saNodefer = 0 then p.signalMask ||| sigBit sig else p.signalMask) ||| sa.mask

end Process

def Registers.UserMode (r : Registers) : Prop := r.cs &&& 3 = 3

instance (r : Registers) : Decidable r.UserMode := inferInstanceAs (Decidable (_ = _))

structure SignalState where
  process : Process
  savedContext : Registers
  regs : Registers
  memory : UserMemory

/-- What `handle_signals` comes to. -/
inductive SignalOutcome where
  | returned
  | entered (sig : Fin 64)
  /-- The process waits in `schedule`, and goes on behind the signal. -/
  | stopped (sig : Fin 64)
  | terminated (status : Nat)
  deriving DecidableEq

namespace SignalState

def clearPending (s : SignalState) (sig : Fin 64) : SignalState :=
  { s with process := s.process.setPending (s.process.pendingSignals &&& ~~~sigBit sig) }

def enterHandler (s : SignalState) (sig : Fin 64) : SignalState :=
  let sa := s.process.signalActions sig
  let stack := s.regs.useresp - 4
  let memory := s.memory.store32 stack returnMarker
  let stack := stack - 4
  let memory := memory.store32 stack (BitVec.ofNat 32 sig)
  let p := { s.process with signalMask := s.process.handlerMask sig, inSignalHandler := 1 }
  { process := if sa.flags &&& saResethand = 0 then p else p.setAction sig { sa with handler := sigDfl }
    savedContext := s.regs
    regs := { s.regs with useresp := stack, eip := sa.handler }
    memory }

def handleFrom (deliverable : SigSet) : List (Fin 64) → SignalState → SignalState × SignalOutcome
  | [], s => (s, .returned)
  | sig :: sigs, s =>
    if deliverable.getLsbD sig = false then handleFrom deliverable sigs s
    else
      let s := s.clearPending sig
      let handler := (s.process.signalActions sig).handler
      if handler = sigIgn then handleFrom deliverable sigs s
      else if handler = sigDfl then
        match defaultAction sig with
        | .ignore => handleFrom deliverable sigs s
        | .stop => ({ s with process := { s.process with state := .waiting } }, .stopped sig)
        | .terminate =>
          ({ s with process := { s.process with state := .zombie, exitCode := BitVec.ofNat 32 (128 + sig) } },
            .terminated (128 + sig))
      else (s.enterHandler sig, .entered sig)

/-- The signals behind a given one, in order. -/
def signalsAfter (sig : Fin 64) : List (Fin 64) := (List.finRange 64).drop (sig + 1)

def handleSignals (s : SignalState) : SignalState × SignalOutcome :=
  if ¬ s.regs.UserMode then (s, .returned)
  else if s.process.inSignalHandler ≠ 0 then (s, .returned)
  else
    let deliverable := s.process.pendingSignals &&& ~~~s.process.signalMask
    if deliverable = 0 then (s, .returned) else handleFrom deliverable (signalsAfter 0) s

def kernelSigreturn (s : SignalState) : SignalState × Int :=
  if s.process.inSignalHandler = 0 then (s, -22)
  else ({ s with process := { s.process with inSignalHandler := 0 }, regs := s.savedContext }, 0)

/-- `syscall_handler` with the number of the sigreturn call: the result goes to `eax`. -/
def sysSigreturnCall (s : SignalState) : SignalState :=
  let r := s.kernelSigreturn
  { r.1 with regs := { r.1.regs with eax := BitVec.ofInt 32 r.2 } }

end SignalState
end RetroOs.Kernel
