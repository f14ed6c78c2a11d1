import RetroOs.Kernel.PagingUpdates
import RetroOs.Lib.Act

/-! `sys_sbrk`, `sys_mmap` and `sys_munmap`, by what they do to the machine in order. Their `memset` goes
through the page tables, so it may fault. -/
namespace RetroOs.Kernel.UserMemory
open Lib Act

structure State where
  vm : Vm
  heapEnd : Word
  nextMmapAddr : Word

def clearByte (w : Word) (b : Nat) : Word := w &&& ~~~ ((0xFF : Word) <<< (8 * b))

def clearBytes (page : Nat → Word) (lo hi i : Nat) : Word :=
  forUpto (fun b w => if lo ≤ 4 * i + b ∧ 4 * i + b < hi then clearByte w b else w) 4 (page i)

inductive Action where
  | allocBlock
  | mapPage (phys virt : Word)
  /-- The processor cannot store at an address and calls `handle_demand_paging`. -/
  | fault (addr : Word)
  | store (frame lo hi : Nat)
  | unmapPage (virt : Word)
  | setHeapEnd (brk : Word)
  | setNextMmapAddr (addr : Word)

namespace State

def exec (s : State) : Action → State
  | .allocBlock => { s with vm := s.vm.allocFrame.1 }
  | .mapPage phys virt => { s with vm := vmMapPage s.vm phys virt 7 }
  | .fault addr => { s with vm := (handleDemandPaging s.vm addr).1 }
  | .store frame lo hi => { s with vm := s.vm.setPage frame (clearBytes (s.vm.ram frame) lo hi) }
  | .unmapPage virt => { s with vm := vmUnmapPage s.vm virt }
  | .setHeapEnd brk => { s with heapEnd := brk }
  | .setNextMmapAddr addr => { s with nextMmapAddr := addr }

end State

/-- Both entries allow writes, which binds the kernel too since `switch_page_directory` sets CR0.WP. -/
def writable (x : Translation) : Bool := x.flags &&& 2 != 0 && x.tableFlags &&& 2 != 0

def storeFrame (addr : Word) (s : State) : Option Nat :=
  match translate s.vm.ram s.vm.cr3 addr with
  | some x => if writable x then some x.frame else none
  | none => none

/-- The part of a `memset` that is in one page, from an address on. The kernel hangs in
`page_fault_handler` where no page can be mapped, and faults for ever where it still cannot store. -/
def storePage (addr : Word) (lo hi : Nat) : Act State.exec Unit := do
  match ← read (storeFrame addr) with
  | some frame => perform (.store frame lo hi)
  | none =>
    let handled ← read fun s => (handleDemandPaging s.vm addr).2
    perform (.fault addr)
    if handled then
      match ← read (storeFrame addr) with
      | some frame => perform (.store frame lo hi)
      | none => stop
    else stop

/-- `memset(virt, 0, 4096)`, which ends in the next page unless the address is aligned. -/
def memset (virt : Word) : Act State.exec Unit := do
  let offset := (entryFlags virt).toNat
  storePage virt offset 4096
  if offset ≠ 0 then storePage (entryAddr virt + 4096) 0 offset

def pmmAllocBlock : Act State.exec Nat := do
  let frame ← read fun s => s.vm.allocFrame.2
  perform .allocBlock
  pure frame

/-- The loop of `sys_sbrk` and `sys_mmap`: false where memory runs out. -/
def mapPages : List Word → Act State.exec Bool
  | [] => pure true
  | virt :: rest => do
    let phys ← pmmAllocBlock
    if phys = 0 then pure false
    else
      perform (.mapPage (frameAddr phys) virt)
      memset virt
      mapPages rest

def unmapPages : List Word → Act State.exec Unit
  | [] => pure ()
  | virt :: rest => do
    perform (.unmapPage virt)
    unmapPages rest

def enomem : Word := 12

def pagesFrom (addr : Word) (n : Nat) : List Word :=
  (List.range n).map fun i => addr + BitVec.ofNat 32 (i * 4096)

def brkPages (oldPageTop newPageTop : Word) : List Word :=
  if newPageTop > oldPageTop then pagesFrom oldPageTop ((newPageTop - oldPageTop).toNat / 4096) else []

def sysSbrk (increment : Word) : Act State.exec Word := do
  let oldBrk ← read (·.heapEnd)
  let newBrk := oldBrk + increment
  let oldPageTop := entryAddr (oldBrk + 0xFFF)
  let newPageTop := entryAddr (newBrk + 0xFFF)
  if ← mapPages (brkPages oldPageTop newPageTop) then
    perform (.setHeapEnd newBrk)
    pure oldBrk
  else pure (-enomem)

/-- The address `sys_mmap` starts at: with 0 the kernel chooses. -/
def mmapBase (addr length : Word) : Act State.exec Word := do
  if addr = 0 then
    let next ← read (·.nextMmapAddr)
    perform (.setNextMmapAddr (next + entryAddr (length + 0xFFF)))
    pure next
  else pure addr

def numPages (length : Word) : Nat := ((length + 0xFFF) / 4096).toNat

def sysMmap (addr length : Word) : Act State.exec Word := do
  let base ← mmapBase addr length
  if ← mapPages (pagesFrom base (numPages length)) then pure base else pure (-enomem)

def sysMunmap (addr length : Word) : Act State.exec Word := do
  unmapPages (pagesFrom addr (numPages length))
  pure 0

/-- The calls with the registers they read. -/
inductive Call where
  | sbrk (increment : Word)
  | mmap (addr length : Word)
  | munmap (addr length : Word)

def Call.program : Call → Act State.exec Word
  | .sbrk increment => sysSbrk increment
  | .mmap addr length => sysMmap addr length
  | .munmap addr length => sysMunmap addr length

end RetroOs.Kernel.UserMemory
