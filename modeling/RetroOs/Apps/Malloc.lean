import RetroOs.Lib.CString

/-! The heap of a user program: `malloc`, `free`, `calloc` and `realloc` on a list of blocks, each with its header before
it, in memory got by `sbrk`. Addresses and sizes are 32-bit. -/
namespace RetroOs.Apps
open Lib

def heapMagic : ℕ := 0xDEADBEEF

/-- `sizeof(heap_block_t)` -/
def headerSize : ℕ := 20

/-- What stands in the header of a block. -/
inductive BlockField where
  | magic | size | free | next | prev
  deriving DecidableEq

def BlockField.offset : BlockField → ℕ
  | .magic => 0
  | .size => 4
  | .free => 8
  | .next => 12
  | .prev => 16

/-- Unsigned arithmetic. -/
def wrap (n : ℕ) : ℕ := n % 2 ^ 32

/-- The field of the header at an address. -/
def field (m : Memory) (block : ℕ) (f : BlockField) : ℕ := m.load32 (wrap (block + f.offset))

def setField (m : Memory) (block : ℕ) (f : BlockField) (v : ℕ) : Memory := m.store32 (wrap (block + f.offset)) v

/-- A call of `sbrk`: how much was asked for, where the memory got before ended, and what the kernel gave back. -/
structure SbrkCall where
  amount : ℕ
  top : ℕ
  result : ℕ
  deriving DecidableEq

structure UserHeap where
  mem : Memory
  start : ℕ
  endAddr : ℕ
  calls : List SbrkCall

/-- Round up to a multiple of 8, and of 4096. -/
def align8 (size : ℕ) : ℕ := wrap (size + 7) / 8 * 8

def alignPage (need : ℕ) : ℕ := wrap (need + 4095) / 4096 * 4096

namespace UserHeap

def sbrk (kernel : ℕ → BitVec 32) (h : UserHeap) (amount : ℕ) : UserHeap × ℕ :=
  let result := (kernel h.calls.length).toNat
  ({ h with calls := h.calls ++ [{ amount, top := h.endAddr, result }] }, result)

def newBlock (m : Memory) (block size next prev : ℕ) : Memory :=
  let m := setField m block .magic heapMagic
  let m := setField m block .size (wrap size)
  let m := setField m block .free 1
  let m := setField m block .next next
  setField m block .prev prev

def heapInit (kernel : ℕ → BitVec 32) (h : UserHeap) : UserHeap :=
  if h.start ≠ 0 then h
  else
    let (h, block) := h.sbrk kernel 4096
    { h with mem := newBlock h.mem block (4096 - headerSize) 0 0, start := block, endAddr := wrap (block + 4096) }

/-- The rest of a block that is larger than what is asked for becomes a block of its own. -/
def split (m : Memory) (block size : ℕ) : Memory :=
  let rest := wrap (block + headerSize + size)
  let next := field m block .next
  let m := newBlock m rest (field m block .size + 2 ^ 32 - size + 2 ^ 32 - headerSize) next block
  let m := if field m block .next ≠ 0 then setField m (field m block .next) .prev rest else m
  let m := setField m block .next rest
  setField m block .size size

def take (m : Memory) (block size : ℕ) : Memory :=
  let m := if wrap (size + headerSize + 16) < field m block .size then split m block size else m
  setField m block .free 0

/-- More memory after the last block, or none. -/
def grow (kernel : ℕ → BitVec 32) (h : UserHeap) (block size : ℕ) : UserHeap × Bool :=
  let need := alignPage (wrap (size + headerSize))
  let (h, newMem) := h.sbrk kernel need
  if newMem = 2 ^ 32 - 1 then (h, false)
  else
    let m := newBlock h.mem newMem (need + 2 ^ 32 - headerSize) 0 block
    ({ h with mem := setField m block .next newMem, endAddr := wrap (newMem + need) }, true)

def mallocLoop (kernel : ℕ → BitVec 32) : ℕ → UserHeap → ℕ → ℕ → UserHeap × Option ℕ
  | 0, h, _, _ => (h, none)
  | fuel + 1, h, size, block =>
    if block = 0 then (h, some 0)
    else if field h.mem block .free ≠ 0 ∧ size ≤ field h.mem block .size then
      ({ h with mem := take h.mem block size }, some (wrap (block + headerSize)))
    else if field h.mem block .next = 0 then
      match h.grow kernel block size with
      | (h, false) => (h, some 0)
      | (h, true) => mallocLoop kernel fuel h size (field h.mem block .next)
    else mallocLoop kernel fuel h size (field h.mem block .next)

/-- Enough for a walk through any list of blocks. -/
def mallocFuel : ℕ := 2 ^ 32

def malloc (kernel : ℕ → BitVec 32) (h : UserHeap) (size : BitVec 32) : UserHeap × Option ℕ :=
  if size = 0 then (h, some 0)
  else
    let h := h.heapInit kernel
    mallocLoop kernel mallocFuel h (align8 size.toNat) h.start

def absorb (m : Memory) (block next : ℕ) : Memory :=
  let m := setField m block .size (wrap (field m block .size + headerSize + field m next .size))
  let m := setField m block .next (field m next .next)
  if field m block .next ≠ 0 then setField m (field m block .next) .prev block else m

def coalesceNext (m : Memory) (block : ℕ) : Memory :=
  let next := field m block .next
  if next ≠ 0 ∧ field m next .free ≠ 0 then absorb m block next else m

def coalescePrev (m : Memory) (block : ℕ) : Memory :=
  let prev := field m block .prev
  if prev ≠ 0 ∧ field m prev .free ≠ 0 then absorb m prev block else m

def free (h : UserHeap) (ptr : ℕ) : UserHeap :=
  if ptr = 0 then h
  else
    let block := wrap (ptr + 2 ^ 32 - headerSize)
    if field h.mem block .magic ≠ heapMagic then h
    else { h with mem := coalescePrev (coalesceNext (setField h.mem block .free 1) block) block }

def calloc (kernel : ℕ → BitVec 32) (h : UserHeap) (nmemb size : BitVec 32) : UserHeap × Option ℕ :=
  let total := nmemb * size
  match h.malloc kernel total with
  | (h, some ptr) => (if ptr ≠ 0 then { h with mem := h.mem.fill ptr 0 total.toNat } else h, some ptr)
  | (h, none) => (h, none)

def realloc (kernel : ℕ → BitVec 32) (h : UserHeap) (ptr : ℕ) (size : BitVec 32) : UserHeap × Option ℕ :=
  if ptr = 0 then h.malloc kernel size
  else if size = 0 then (h.free ptr, some 0)
  else
    let block := wrap (ptr + 2 ^ 32 - headerSize)
    if size.toNat ≤ field h.mem block .size then (h, some ptr)
    else
      match h.malloc kernel size with
      | (h, some newPtr) =>
        if newPtr ≠ 0 then (free { h with mem := h.mem.move newPtr ptr (field h.mem block .size) } ptr, some newPtr)
        else (h, some 0)
      | (h, none) => (h, none)

end UserHeap
end RetroOs.Apps
