import RetroOs.Kernel.Pmm
import RetroOs.Lib.Loop
import RetroOs.Lib.Ring
import Mathlib.Data.Fintype.Pi

/-! The process table: records by address in a circular list, and the calls that make, schedule,
signal, end and reap processes. What a call gets from other parts of the kernel (a page directory,
memory for a record, a program's entry point) is an argument. -/
namespace RetroOs.Kernel
open Lib Function

def maxProcessFiles : Nat := 16
def defaultTimeSlice : Int := 10
def defaultPriority : Int := 120
def pledgeAll : Word := 0xFFFFFFFF

def nsig : Int := 64
def sigAlrm : Nat := 14
def sigChld : Int := 17

inductive ProcessState where
  | running | ready | zombie | waiting | sleeping
  deriving DecidableEq

structure SigAction where
  handler : Word
  mask : BitVec 64
  flags : Word
  restorer : Word
  deriving DecidableEq

structure UnveilNode where
  path : String
  permissions : Word
  deriving DecidableEq

structure FileDescription where
  node : Nat
  offset : BitVec 64
  flags : Word
  refCount : Word

/-- Records are named by address, 0 for null; a page directory is named by its frame. -/
structure Process where
  id : Word
  pgid : Word
  sid : Word
  state : ProcessState
  exitCode : Word
  parent : Nat
  esp : Nat
  kernelStackTop : Nat
  pageDirectory : Nat
  entryPoint : Word
  userStackTop : Word
  heapEnd : Word
  fdTable : Fin maxProcessFiles → Nat
  uid : Word
  euid : Word
  suid : Word
  gid : Word
  egid : Word
  sgid : Word
  priority : Int
  timeSlice : Int
  timeRemaining : Int
  sleepUntil : Word
  alarmTime : Word
  signalActions : Fin 64 → SigAction
  pendingSignals : BitVec 64
  signalMask : BitVec 64
  inSignalHandler : Int
  utime : Word
  stime : Word
  cutime : Word
  cstime : Word
  startTime : Word
  cwd : String
  pledges : Word
  unveils : List UnveilNode
  next : Nat

/-- A record of zero bytes, as `kmalloc` hands it out. -/
def Process.zero : Process where
  id := 0
  pgid := 0
  sid := 0
  state := .running
  exitCode := 0
  parent := 0
  esp := 0
  kernelStackTop := 0
  pageDirectory := 0
  entryPoint := 0
  userStackTop := 0
  heapEnd := 0
  fdTable _ := 0
  uid := 0
  euid := 0
  suid := 0
  gid := 0
  egid := 0
  sgid := 0
  priority := 0
  timeSlice := 0
  timeRemaining := 0
  sleepUntil := 0
  alarmTime := 0
  signalActions _ := ⟨0, 0, 0, 0⟩
  pendingSignals := 0
  signalMask := 0
  inSignalHandler := 0
  utime := 0
  stime := 0
  cutime := 0
  cstime := 0
  startTime := 0
  cwd := ""
  pledges := 0
  unveils := []
  next := 0

structure ProcessTable where
  procs : Nat → Process
  files : Nat → FileDescription
  currentProcess : Nat
  readyQueue : Nat
  nextPid : Word
  tick : Word

/-- `registers_t`: what an interrupt saves of the interrupted program. -/
structure Registers where
  ds : Word
  edi : Word
  esi : Word
  ebp : Word
  esp : Word
  ebx : Word
  edx : Word
  ecx : Word
  eax : Word
  intNo : Word
  errCode : Word
  eip : Word
  cs : Word
  eflags : Word
  useresp : Word
  ss : Word

/-- Enough for any walk around a ring of 32-bit addresses. -/
def ringFuel : Nat := 2 ^ 32

namespace ProcessTable

def current (t : ProcessTable) : Process := t.procs t.currentProcess

def next (t : ProcessTable) (p : Nat) : Nat := (t.procs p).next

def set (t : ProcessTable) (p : Nat) (q : Process) : ProcessTable :=
  { t with procs := update t.procs p q }

def setCurrent (t : ProcessTable) (q : Process) : ProcessTable := t.set t.currentProcess q

def setState (t : ProcessTable) (p : Nat) (s : ProcessState) : ProcessTable :=
  t.set p { t.procs p with state := s }

def setNext (t : ProcessTable) (p next : Nat) : ProcessTable :=
  t.set p { t.procs p with next := next }

def setTime (t : ProcessTable) (r : Int) : ProcessTable :=
  t.setCurrent { t.current with timeRemaining := r }

section
variable (t : ProcessTable) (p : Nat) (q : Process) (s : ProcessState) (r : Int) {x : Nat}

@[simp] theorem set_self : (t.set p q).procs p = q := update_self ..

@[simp] theorem set_other (h : x ≠ p) : (t.set p q).procs x = t.procs x :=
  update_of_ne h ..

theorem set_field {γ : Type} (f : Process → γ) (h : f q = f (t.procs p)) (x : Nat) :
    f ((t.set p q).procs x) = f (t.procs x) := by
  by_cases hx : x = p
  · rw [hx, set_self, h]
  · rw [set_other _ _ _ hx]

@[simp] theorem set_currentProcess : (t.set p q).currentProcess = t.currentProcess := rfl

@[simp] theorem set_readyQueue : (t.set p q).readyQueue = t.readyQueue := rfl

@[simp] theorem setCurrent_currentProcess : (t.setCurrent q).currentProcess = t.currentProcess := rfl

@[simp] theorem setCurrent_readyQueue : (t.setCurrent q).readyQueue = t.readyQueue := rfl

@[simp] theorem setCurrent_current : (t.setCurrent q).current = q := set_self ..

@[simp] theorem setState_state : ((t.setState p s).procs p).state = s := by rw [setState, set_self]

@[simp] theorem setState_other (h : x ≠ p) : (t.setState p s).procs x = t.procs x := set_other t p _ h

@[simp] theorem setNext_next (n : Nat) : (t.setNext p n).next p = n := by rw [next, setNext, set_self]

@[simp] theorem setNext_other {n : Nat} (h : x ≠ p) : (t.setNext p n).procs x = t.procs x := set_other t p _ h

theorem setNext_parent (n x : Nat) : ((t.setNext p n).procs x).parent = (t.procs x).parent := by
  rw [setNext]
  exact set_field t p _ Process.parent (by rfl) x

@[simp] theorem setTime_time : (t.setTime r).current.timeRemaining = r := by rw [setTime, setCurrent_current]

theorem setTime_state (x : Nat) : ((t.setTime r).procs x).state = (t.procs x).state := by
  rw [setTime, setCurrent]
  exact set_field t _ _ Process.state (by rfl) x

@[simp] theorem setCurrent_other (h : x ≠ t.currentProcess) : (t.setCurrent q).procs x = t.procs x :=
  set_other t _ q h

end

/-- What a record holds after the call of `kmalloc` for it. -/
def fresh (t : ProcessTable) (p : Nat) : Process := if p = 0 then t.procs 0 else .zero

def link (t : ProcessTable) (p : Nat) (q : Process) : ProcessTable :=
  let t := t.set p { q with next := t.current.next }
  t.setNext t.currentProcess p

def setFile (t : ProcessTable) (desc : Nat) (d : FileDescription) : ProcessTable :=
  { t with files := update t.files desc d }

/-- One more reference to an open file. -/
def shareFile (fds : Fin maxProcessFiles → Nat) (t : ProcessTable) (i : Fin maxProcessFiles) : ProcessTable :=
  let desc := fds i
  if desc = 0 then t else t.setFile desc { t.files desc with refCount := (t.files desc).refCount + 1 }

def shareFiles (t : ProcessTable) (fds : Fin maxProcessFiles → Nat) : ProcessTable :=
  (List.finRange maxProcessFiles).foldl (shareFile fds) t

/-- Words on the kernel stack of a forked child when it first runs. -/
def forkFrameSize : Nat := 22

def forkProcess (t : ProcessTable) (newPd child childKstack : Nat) : ProcessTable × Int :=
  if newPd = 0 then (t, -1)
  else
    let parent := t.current
    let kernelStackTop := childKstack + 4096
    let q := { t.fresh child with
      id := t.nextPid
      state := .ready
      parent := t.currentProcess
      exitCode := 0
      pageDirectory := newPd
      entryPoint := parent.entryPoint
      userStackTop := parent.userStackTop
      heapEnd := parent.heapEnd
      cwd := parent.cwd
      pledges := parent.pledges
      fdTable := parent.fdTable
      kernelStackTop := kernelStackTop
      esp := kernelStackTop - 4 * forkFrameSize }
    let t := { t with nextPid := t.nextPid + 1 }.shareFiles parent.fdTable
    (t.link child q, q.id.toInt)

def sysPosixSpawn (t : ProcessTable) (pd : Nat) (entry topAddr : Word) (newProc kstack : Nat) :
    ProcessTable × Int :=
  if pd = 0 then (t, -12)
  else if entry = 0 then (t, -2)
  else if newProc = 0 then (t, -12)
  else
    let parent := t.current
    let kernelStackTop := kstack + 4096
    let q := { t.fresh newProc with
      id := t.nextPid
      state := .ready
      parent := t.currentProcess
      exitCode := 0
      pageDirectory := pd
      heapEnd := topAddr
      pledges := pledgeAll
      pgid := parent.pgid
      sid := parent.sid
      uid := parent.uid
      euid := parent.euid
      suid := parent.suid
      gid := parent.gid
      egid := parent.egid
      sgid := parent.sgid
      fdTable := parent.fdTable
      cwd := parent.cwd
      priority := defaultPriority
      timeSlice := defaultTimeSlice
      timeRemaining := defaultTimeSlice
      sleepUntil := 0
      alarmTime := 0
      pendingSignals := 0
      signalMask := 0
      inSignalHandler := 0
      utime := 0
      stime := 0
      cutime := 0
      cstime := 0
      startTime := t.tick
      unveils := []
      kernelStackTop := kernelStackTop
      entryPoint := entry
      userStackTop := 0xB0001000
      esp := kernelStackTop - 4 * 9 }
    let t := { t with nextPid := t.nextPid + 1 }.shareFiles parent.fdTable
    (t.link newProc q, 0)

def execProcess (t : ProcessTable) (entry topAddr : Word) : ProcessTable × Int :=
  if entry = 0 then (t, -1)
  else
    (t.setCurrent { t.current with
      entryPoint := entry
      userStackTop := 0xB0001000
      heapEnd := topAddr
      pledges := pledgeAll }, 0)

def sysPledge (t : ProcessTable) (pledges : Word) : ProcessTable :=
  t.setCurrent { t.current with pledges := t.current.pledges &&& pledges }

def sysUnveil (t : ProcessTable) (path : String) (perms : Word) : ProcessTable :=
  t.setCurrent { t.current with unveils := ⟨path, perms⟩ :: t.current.unveils }

def checkUnveil (t : ProcessTable) (path : String) (neededPerms : Word) : Bool :=
  t.current.unveils.isEmpty || t.current.unveils.any fun u =>
    u.path.toList.isPrefixOf path.toList && u.permissions &&& neededPerms == neededPerms

def signal (t : ProcessTable) (signum p : Nat) : ProcessTable :=
  let q := t.procs p
  t.set p { q with
    pendingSignals := if signum = 0 then q.pendingSignals else q.pendingSignals ||| BitVec.twoPow 64 signum
    state := if q.state = .waiting then .ready else q.state }

def signalAll (t : ProcessTable) (signum : Nat) (test : Process → Nat → Bool) : Option (ProcessTable × Int) :=
  if t.readyQueue = 0 then some (t, -3)
  else
    (ringFold t.next (fun p => p == 0 || p == t.readyQueue)
      (fun (r : ProcessTable × Bool) p => if test (r.1.procs p) p then (r.1.signal signum p, true) else r)
      ringFuel t.readyQueue (t, false)).map fun (t, found) => (t, if found then 0 else -3)

def signalOne (t : ProcessTable) (signum : Nat) (pid : Word) : Option (ProcessTable × Int) :=
  if t.readyQueue = 0 then some (t, -3)
  else
    (ringFind t.next (fun p => p == 0 || p == t.readyQueue) (fun p => (t.procs p).id == pid)
      ringFuel t.readyQueue).map fun
        | some p => (t.signal signum p, 0)
        | none => (t, -3)

/-- The result is `none` where a loop does not end. -/
def sysKill (t : ProcessTable) (pid : Word) (signum : Int) : Option (ProcessTable × Int) :=
  if signum < 0 ∨ nsig ≤ signum then some (t, -22)
  else
    let pid := if pid = 0 then t.current.pgid else pid
    if pid.toInt = -1 then
      t.signalAll signum.toNat fun q p => 1 < q.id && p != t.currentProcess
    else if pid.toInt < -1 then t.signalAll signum.toNat fun q _ => q.pgid == -pid
    else t.signalOne signum.toNat pid

/-- A call of `switch_task`: the process to save and the one to resume. -/
structure Switch where
  old : Nat
  new : Nat
  deriving DecidableEq

def foundHigher (t : ProcessTable) : Option Bool :=
  (ringSeek t.next (fun p => p == t.currentProcess ||
    decide ((t.procs p).state = .ready ∧ (t.procs p).priority < t.current.priority))
    ringFuel t.current.next).map (· != t.currentProcess)

/-- Whether `schedule` may choose a process: it is ready, or the one that still runs. -/
def runnable (t : ProcessTable) (p : Nat) : Bool :=
  (t.procs p).state = .ready ∨ p = t.currentProcess ∧ (t.procs t.currentProcess).state = .running

def priority (t : ProcessTable) (p : Nat) : Int := (t.procs p).priority

def preempt (t : ProcessTable) : ProcessTable :=
  if t.current.state = .running then t.setState t.currentProcess .ready else t

def switchTo (t : ProcessTable) (best : Nat) : ProcessTable :=
  let t := { t.preempt with currentProcess := best }
  (t.setState best .running).setTime (t.procs best).timeSlice

def scheduleSelect (t : ProcessTable) : Option (ProcessTable × Option Switch) :=
  let old := t.currentProcess
  (ringFold t.next (· == t.next old) (leastStep 0 t.runnable t.priority)
    ringFuel (t.next old) 0).map fun best =>
    if best = 0 then (t, none)
    else if best = old ∧ t.current.state = .running then (t.setTime t.current.timeSlice, none)
    else (t.switchTo best, some ⟨old, best⟩)

def schedule (t : ProcessTable) : Option (ProcessTable × Option Switch) :=
  if t.currentProcess = 0 then some (t, none)
  else if t.current.state = .running then
    let t := t.setTime (t.current.timeRemaining - 1)
    if 0 < t.current.timeRemaining then
      t.foundHigher.bind fun found => if found then t.scheduleSelect else some (t, none)
    else t.scheduleSelect
  else t.scheduleSelect

/-- Drop one reference of the current process. A description nobody refers to is closed and freed. -/
def closeFile (t : ProcessTable) (i : Fin maxProcessFiles) : ProcessTable :=
  let desc := t.current.fdTable i
  if desc = 0 then t
  else
    let t := t.setCurrent { t.current with fdTable := update t.current.fdTable i 0 }
    t.setFile desc { t.files desc with refCount := (t.files desc).refCount - 1 }

def closeFiles (t : ProcessTable) : ProcessTable := (List.finRange maxProcessFiles).foldl closeFile t

def notifyParent (t : ProcessTable) : Option ProcessTable :=
  if t.current.parent = 0 then some t
  else (t.sysKill (t.procs t.current.parent).id sigChld).map Prod.fst

def exitProcess (t : ProcessTable) (status : Int) : Option ProcessTable :=
  (t.setCurrent { t.current with state := .zombie, exitCode := BitVec.ofInt 32 status }).closeFiles.notifyParent

def sysExit (t : ProcessTable) (status : Int) : Option ProcessTable :=
  (t.setCurrent { t.current with state := .zombie, exitCode := BitVec.ofInt 32 status }).notifyParent

/-- What one round of `wait_process` or `sys_waitpid` comes to. -/
inductive WaitResult where
  | reaped (child : Nat) (pid status : Word)
  | returned (result : Int)
  /-- The caller is now waiting and calls `schedule`. -/
  | blocked
  deriving DecidableEq

def unlink (t : ProcessTable) (child : Nat) : Option ProcessTable :=
  if t.next child = child then some { t with readyQueue := 0 }
  else
    (ringSeek t.next (fun p => t.next p == child) ringFuel t.readyQueue).map fun curr =>
      let t' := t.setNext curr (t.next child)
      { t' with readyQueue := if t.readyQueue = child then t'.next child else t.readyQueue }

def waitProcess (t : ProcessTable) : Option (ProcessTable × WaitResult) :=
  let stop p := p == t.readyQueue
  (ringFind t.next stop (fun p => (t.procs p).parent == t.currentProcess && (t.procs p).state == .zombie)
    ringFuel t.readyQueue).bind fun
    | some child =>
      let q := t.procs child
      (t.unlink child).map fun t => (t, .reaped child q.id q.exitCode)
    | none =>
      (ringFind t.next stop (fun p => (t.procs p).parent == t.currentProcess) ringFuel t.readyQueue).map fun
        | none => (t, .returned (-1))
        | some _ => (t.setState t.currentProcess .waiting, .blocked)

/-- The children a call of `sys_waitpid` is about. -/
def waitMatches (t : ProcessTable) (pid : Int) (p : Nat) : Bool :=
  (t.procs p).parent == t.currentProcess &&
    (if pid = -1 then true
    else if pid = 0 then (t.procs p).pgid == t.current.pgid
    else if pid < -1 then (t.procs p).pgid == BitVec.ofInt 32 (-pid)
    else (t.procs p).id == BitVec.ofInt 32 pid)

def sysWaitpid (t : ProcessTable) (pid : Int) (nohang : Bool) : Option (ProcessTable × WaitResult) :=
  if t.readyQueue = 0 then some (t, .returned (-1))
  else
    let stop p := p == t.readyQueue
    (ringFind t.next stop (fun p => t.waitMatches pid p && (t.procs p).state == .zombie)
      ringFuel t.readyQueue).bind fun
      | some found =>
        let q := t.procs found
        let t := t.setCurrent { t.current with
          cutime := t.current.cutime + (q.utime + q.cutime)
          cstime := t.current.cstime + (q.stime + q.cstime) }
        (t.unlink found).map fun t => (t, .reaped found q.id (q.exitCode <<< 8))
      | none =>
        (ringFind t.next stop (t.waitMatches pid) ringFuel t.readyQueue).map fun
          | none => (t, .returned (-10))
          | some _ =>
            if nohang then (t, .returned 0)
            else (t.setState t.currentProcess .waiting, .blocked)

/-- `init_multitasking`, given the memory for the first record. -/
def initMultitasking (t : ProcessTable) (addr stackTop kernelDirectory : Nat) : ProcessTable :=
  let q := { t.fresh addr with
    id := 0
    state := .running
    parent := 0
    exitCode := 0
    pageDirectory := kernelDirectory
    kernelStackTop := stackTop
    fdTable := fun _ => 0
    priority := defaultPriority
    timeSlice := defaultTimeSlice
    timeRemaining := defaultTimeSlice
    sleepUntil := 0
    pledges := pledgeAll
    cwd := "/"
    next := addr }
  { t.set addr q with currentProcess := addr, readyQueue := addr }

end ProcessTable
end RetroOs.Kernel
