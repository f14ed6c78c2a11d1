import RetroOs.Kernel.Pmm
import RetroOs.Lib.Loop

/-! Page directories, page faults and shared segments over physical memory. The kernel reaches
every frame through its linear map, so a directory or a table is named by the frame it is in. -/
namespace RetroOs.Kernel
open Lib

abbrev Ram := Nat → Nat → Word

def zeroPage : Nat → Word := fun _ => 0

namespace Ram

def setPage (ram : Ram) (frame : Nat) (page : Nat → Word) : Ram := Function.update ram frame page

def setWord (ram : Ram) (frame i : Nat) (w : Word) : Ram :=
  ram.setPage frame (Function.update (ram frame) i w)

end Ram

def present (entry : Word) : Bool := entry &&& 1 != 0

def entryAddr (entry : Word) : Word := entry &&& 0xFFFFF000

def entryFlags (entry : Word) : Word := entry &&& 0xFFF

def pdIndex (virt : Word) : Nat := (virt >>> 22).toNat

def ptIndex (virt : Word) : Nat := (virt >>> 12 &&& 0x3FF).toNat

def kernelVirtualBase : Word := 0xC0000000

def kernelPageDirectoryIndex : Nat := 768

def shmMaxSegments : Nat := 32

structure ShmSegment where
  key : Word
  size : Word
  physAddr : Word
  virtStart : Word
  refCount : Nat
  inUse : Bool

structure Vm where
  pmm : Pmm
  ram : Ram
  kernelDirectory : Nat
  currentDirectory : Option Nat
  cr3 : Nat
  currentProcess : Option Nat
  shmSegments : Nat → ShmSegment

/-- `pmm_alloc_block` in a state of the whole machine; the frame is 0 when there is none left. -/
def Vm.allocFrame (s : Vm) : Vm × Nat :=
  ({ s with pmm := s.pmm.allocBlock.1 }, frameOf s.pmm.allocBlock.2)

def Vm.freeFrame (s : Vm) (addr : Word) : Vm := { s with pmm := s.pmm.freeBlock addr }

def Vm.setPage (s : Vm) (frame : Nat) (page : Nat → Word) : Vm :=
  { s with ram := s.ram.setPage frame page }

def Vm.setWord (s : Vm) (frame i : Nat) (w : Word) : Vm := { s with ram := s.ram.setWord frame i w }

def pdCreate (s : Vm) : Vm × Nat :=
  let (s, pd) := s.allocFrame
  let s := s.setPage pd zeroPage
  (forUpto (fun i s =>
    if present (s.ram s.kernelDirectory i) then s.setWord pd i (s.ram s.kernelDirectory i) else s) 1024 s, pd)

def cloneTable (srcPt destPt : Nat) (n : Nat) (s : Vm) : Vm :=
  forUpto (fun j s =>
    if present (s.ram srcPt j) then
      let srcPhys := frameOf (s.ram srcPt j)
      let (s, destPhys) := s.allocFrame
      let s := s.setPage destPhys (s.ram srcPhys)
      s.setWord destPt j (frameAddr destPhys ||| entryFlags (s.ram srcPt j))
    else s) n s

def cloneTables (sourcePd newPd : Nat) (n : Nat) (s : Vm) : Vm :=
  forUpto (fun i s =>
    if !present (s.ram sourcePd i) then s
    else if s.ram sourcePd i = s.ram s.kernelDirectory i then s
    else
      let srcPt := frameOf (s.ram sourcePd i)
      let (s, destPt) := s.allocFrame
      let s := s.setPage destPt zeroPage
      let s := s.setWord newPd i (frameAddr destPt ||| entryFlags (s.ram sourcePd i))
      cloneTable srcPt destPt 1024 s) n s

def pdClone (s : Vm) (sourcePd : Nat) : Vm × Nat :=
  let (s, newPd) := pdCreate s
  (cloneTables sourcePd newPd kernelPageDirectoryIndex s, newPd)

def freeTable (pt : Nat) (s : Vm) : Vm :=
  forUpto (fun j s => if present (s.ram pt j) then s.freeFrame (entryAddr (s.ram pt j)) else s) 1024 s

def pdDestroy (s : Vm) (pd : Nat) : Vm :=
  let s := forUpto (fun i s =>
    if !present (s.ram pd i) then s
    else if s.ram pd i = s.ram s.kernelDirectory i then s
    else
      let pt := frameOf (s.ram pd i)
      (freeTable pt s).freeFrame (frameAddr pt)) 1024 s
  s.freeFrame (frameAddr pd)

def pdSwitch (s : Vm) (pd : Nat) : Vm := { s with cr3 := pd }

/-- Write the page table entry of `virt` in a directory, with a new table if there is none. -/
def mapPage (s : Vm) (pd : Nat) (phys virt flags : Word) : Vm :=
  let s :=
    if present (s.ram pd (pdIndex virt)) then s
    else
      let (s, pt) := s.allocFrame
      let s := s.setPage pt zeroPage
      s.setWord pd (pdIndex virt) (frameAddr pt ||| 7)
  s.setWord (frameOf (s.ram pd (pdIndex virt))) (ptIndex virt) (entryAddr phys ||| flags)

def vmMapPage (s : Vm) (phys virt flags : Word) : Vm := mapPage s s.cr3 phys virt flags

def pagingMap (s : Vm) (phys virt flags : Word) : Vm := mapPage s s.kernelDirectory phys virt flags

def vmUnmapPage (s : Vm) (virt : Word) : Vm :=
  if !present (s.ram s.cr3 (pdIndex virt)) then s
  else
    let pt := frameOf (s.ram s.cr3 (pdIndex virt))
    if present (s.ram pt (ptIndex virt)) then
      (s.freeFrame (entryAddr (s.ram pt (ptIndex virt)))).setWord pt (ptIndex virt) 0
    else s

/-- The inner loop of `vm_clear_user_mappings`. -/
def clearTable (pt : Nat) (n : Nat) (s : Vm) : Vm :=
  forUpto (fun j s =>
    if present (s.ram pt j) then (s.freeFrame (entryAddr (s.ram pt j))).setWord pt j 0 else s) n s

/-- The outer loop of `vm_clear_user_mappings`, from index 256 on. -/
def clearTables (n : Nat) (s : Vm) : Vm :=
  forUpto (fun k s =>
    let i := 256 + k
    if present (s.ram s.cr3 i) then
      let s := clearTable (frameOf (s.ram s.cr3 i)) 1024 s
      (s.freeFrame (entryAddr (s.ram s.cr3 i))).setWord s.cr3 i 0
    else s) n s

def vmClearUserMappings (s : Vm) : Vm := clearTables (768 - 256) s

/-- Where the page table entry of an address is, seen from `current_directory`. -/
def pagingGetPte (s : Vm) (virt : Word) : Option (Nat × Nat) :=
  let dir := s.currentDirectory.getD s.kernelDirectory
  if present (s.ram dir (pdIndex virt)) then some (frameOf (s.ram dir (pdIndex virt)), ptIndex virt) else none

/-- The index of the segment an address of the shared window belongs to. -/
def shmGetSegment (s : Vm) (virtAddr : Word) : Option Nat :=
  if virtAddr < 0x70000000 ∨ 0x80000000 ≤ virtAddr then none
  else
    let shmid := ((virtAddr - 0x70000000) / 0x800000).toNat
    let seg := s.shmSegments shmid
    if shmid < shmMaxSegments ∧ seg.inUse ∧
        virtAddr < 0x70000000 + BitVec.ofNat 32 (shmid * 0x800000) + seg.size then some shmid
    else none

/-- The presence test at the head of `handle_demand_paging`. -/
def alreadyPresent (s : Vm) (addr : Word) : Bool :=
  match pagingGetPte s addr with
  | some (pt, j) => present (s.ram pt j)
  | none => false

def handleDemandPaging (s : Vm) (addr : Word) : Vm × Bool :=
  let pageBase := entryAddr addr
  if alreadyPresent s addr then (s, false)
  else if 0xE0000000 ≤ addr then
    let (s, phys) := s.allocFrame
    if phys = 0 then (s, false) else (vmMapPage s (frameAddr phys) pageBase 3, true)
  else if s.currentProcess = none then (s, false)
  else
    match shmGetSegment s addr with
    | some shmid =>
      let seg := s.shmSegments shmid
      (vmMapPage s (seg.physAddr + (pageBase - seg.virtStart)) pageBase 7, true)
    | none =>
      if 0x00400000 ≤ addr ∧ addr < 0x70000000 ∨ 0xAF000000 ≤ addr ∧ addr ≤ 0xB0000000 then
        let (s, phys) := s.allocFrame
        (vmMapPage s (frameAddr phys) pageBase 7, true)
      else (s, false)

/-- Addresses the linker script gives for the parts of the kernel mapped read-only. -/
structure KernelImage where
  textStart : Word
  textEnd : Word
  rodataStart : Word
  rodataEnd : Word

def linearTable (img : KernelImage) (j i : Nat) : Word :=
  let physAddr := frameAddr (j * 1024 + i)
  let virtAddr := physAddr + kernelVirtualBase
  let flags : Word :=
    if img.textStart ≤ virtAddr ∧ virtAddr < img.textEnd then 1
    else if img.rodataStart ≤ virtAddr ∧ virtAddr < img.rodataEnd then 1
    else 3
  physAddr ||| flags

def apicMapHardware (s : Vm) : Vm :=
  pagingMap (pagingMap s 0xFEE00000 0xFEE00000 3) 0xFEC00000 0xFEC00000 3

def hpetMapHardware (s : Vm) : Vm := pagingMap s 0xFED00000 0xFED00000 3

def switchPageDirectory (s : Vm) (dir : Nat) : Vm := { s with currentDirectory := some dir, cr3 := dir }

/-- The 512 MiB linear map, in the higher half and from address zero. -/
def linearMap (img : KernelImage) (n : Nat) (s : Vm) : Vm :=
  forUpto (fun j s =>
    let (s, pt) := s.allocFrame
    let s := s.setPage pt (linearTable img j)
    let s := s.setWord s.kernelDirectory (kernelPageDirectoryIndex + j) (frameAddr pt ||| 3)
    s.setWord s.kernelDirectory j (frameAddr pt ||| 3)) n s

def initPaging (img : KernelImage) (s : Vm) : Vm :=
  let (s, pd) := s.allocFrame
  let s := { s with kernelDirectory := pd }.setPage pd zeroPage
  let s := linearMap img 128 s
  let s := hpetMapHardware (apicMapHardware s)
  switchPageDirectory s s.kernelDirectory

def Vm.setSegment (s : Vm) (shmid : Nat) (seg : ShmSegment) : Vm :=
  { s with shmSegments := Function.update s.shmSegments shmid seg }

/-- Pages of a segment of the given size, in 32-bit arithmetic. -/
def shmPages (size : Word) : Word := (size + 4095) / 4096

/-- The result is `none` where the call returns -1. -/
def sysShmget (s : Vm) (key size : Word) : Vm × Option Nat :=
  match (List.range shmMaxSegments).find? fun i => (s.shmSegments i).inUse && (s.shmSegments i).key == key with
  | some i => (s, some i)
  | none =>
    match (List.range shmMaxSegments).find? fun i => !(s.shmSegments i).inUse with
    | none => (s, none)
    | some slot =>
      let finalSize : Word := if size > 0x400000 then size else 0x400000
      let (pmm, phys) := s.pmm.allocContiguousBlocks (shmPages finalSize)
      let s := { s with pmm := pmm }
      if phys = 0 then (s, none)
      else
        (s.setSegment slot { s.shmSegments slot with
          key := key, size := finalSize, physAddr := phys, refCount := 0, inUse := true }, some slot)

def shmFree (s : Vm) (shmid : Nat) : Vm :=
  if shmid < shmMaxSegments ∧ (s.shmSegments shmid).inUse then
    let seg := s.shmSegments shmid
    let s := { s with pmm := s.pmm.freeContiguousBlocks seg.physAddr (shmPages seg.size) }
    s.setSegment shmid { seg with inUse := false, key := 0, refCount := 0 }
  else s

/-- The address is 0 where the call fails. -/
def sysShmat (s : Vm) (shmid : Nat) : Vm × Word :=
  if shmid < shmMaxSegments ∧ (s.shmSegments shmid).inUse then
    let virt := 0x70000000 + BitVec.ofNat 32 (shmid * 0x800000)
    let seg := { s.shmSegments shmid with virtStart := virt }
    let s := s.setSegment shmid seg
    let s := forUpto (fun i s =>
      vmMapPage s (seg.physAddr + BitVec.ofNat 32 (i * 4096)) (virt + BitVec.ofNat 32 (i * 4096)) 7)
      (shmPages seg.size).toNat s
    (s.setSegment shmid { seg with refCount := seg.refCount + 1 }, virt)
  else (s, 0)

end RetroOs.Kernel
