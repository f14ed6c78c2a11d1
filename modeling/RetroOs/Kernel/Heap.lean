import RetroOs.Kernel.Buddy
import RetroOs.Lib.Loop

/-! The kernel heap: `kmalloc_real` and `kfree` over the buddy allocator, with the slab caches for
small requests. Where a loop does not end or a division has no result, a call gives `none`. -/
namespace RetroOs.Kernel
open Lib

def slabMagic : Nat := 0x51AB51AB
def headerMagic : Nat := 0xCAFEBABE
def freedMagic : Nat := 0xBADB00B5

def slabSizes : List Nat := [32, 64, 128, 256, 512, 1024, 2048]

structure Heap where
  startAddress : Nat
  endAddress : Nat
  buddy : Buddy
  slabIsInitialized : Bool
  /-- Address of the array `slab_caches`: two words for each cache, `object_size` and `first_slab`. -/
  slabCaches : Nat

/-- Outside an interval of whole pages the heap is left as it was. -/
def initKheap (h : Heap) (m : Memory) (start stop : Nat) : Option (Heap × Memory) :=
  if start % 4096 ≠ 0 ∨ stop % 4096 ≠ 0 then some (h, m)
  else
    (buddyInit m start stop).map fun (b, m) =>
      ({ h with startAddress := start, endAddress := stop, buddy := b }, m)

def slabInit (h : Heap) (m : Memory) : Memory :=
  forUpto (fun i m => (m.store32 (h.slabCaches + 8 * i) (slabSizes.getD i 0)).store32
    (h.slabCaches + 8 * i + 4) 0) 7 m

def getSlabIndex (size : Nat) : Option Nat :=
  if size ≤ 32 then some 0
  else if size ≤ 64 then some 1
  else if size ≤ 128 then some 2
  else if size ≤ 256 then some 3
  else if size ≤ 512 then some 4
  else if size ≤ 1024 then some 5
  else if size ≤ 2048 then some 6
  else none

def writeHeader (m : Memory) (block size data : Nat) : Memory :=
  (((m.store32 (data - 4) block).store32 (block + 8) size).store8 (block + 12) 1).store32
    (block + 16) headerMagic

/-- `kmalloc_real` past its slab path. -/
def kmallocBuddy (h : Heap) (m : Memory) (size : Nat) (align : Int) : Option (Heap × Memory × Nat) :=
  if size = 0 then some (h, m, 0)
  else
    let requiredSize := (size + 20 + 4 + if align = 0 then 0 else 4096) % 2 ^ 32
    (buddyAlloc h.buddy m requiredSize).map fun (b, m, block) =>
      let h := { h with buddy := b }
      if block = 0 then (h, m, 0)
      else
        let dataStart := (block + 20) % 2 ^ 32
        let adjusted :=
          if align ≠ 0 ∧ dataStart % 4096 ≠ 0 then (dataStart + 0xFFF) % 2 ^ 32 / 4096 * 4096 else dataStart
        let data := (adjusted + 4) % 2 ^ 32
        (h, writeHeader m block requiredSize data, data)

/-- The first slab with a free object, or null. -/
def findSlab (m : Memory) : Nat → Nat → Option Nat
  | 0, _ => none
  | fuel + 1, slab =>
    if slab = 0 then some 0
    else if 0 < m.load32 (slab + 16) then some slab
    else findSlab m fuel (m.load32 (slab + 8))

/-- The embedded free list: the first word of each object is the index of the next. -/
def linkObjects (m : Memory) (base objectSize maxObjs : Nat) : Memory :=
  let last := (maxObjs + 2 ^ 32 - 1) % 2 ^ 32
  (forUpto (fun i m => m.store32 (base + i * objectSize) (i + 1)) last m).store32
    (base + last * objectSize) (2 ^ 32 - 1)

/-- Make a page the first slab of a cache. The fields of `slab_header_t`, at multiples of 4:
`magic`, `cache`, `next`, `prev`, `free_objects`, `first_free`. -/
def initSlab (m : Memory) (cache slab : Nat) : Memory :=
  let m := ((m.store32 slab slabMagic).store32 (slab + 4) cache).store32 (slab + 12) 0
  let m := m.store32 (slab + 8) (m.load32 (cache + 4))
  let m := if m.load32 (cache + 4) ≠ 0 then m.store32 (m.load32 (cache + 4) + 12) slab else m
  let m := m.store32 (cache + 4) slab
  let maxObjs := (4096 - 24) / m.load32 cache
  let m := (m.store32 (slab + 16) maxObjs).store32 (slab + 20) 0
  linkObjects m (slab + 24) (m.load32 cache) maxObjs

def takeObject (m : Memory) (cache slab : Nat) : Memory × Nat :=
  let obj := slab + 24 + m.load32 (slab + 20) * m.load32 cache
  let m := m.store32 (slab + 20) (m.load32 obj)
  let m := m.store32 (slab + 16) ((m.load32 (slab + 16) + 2 ^ 32 - 1) % 2 ^ 32)
  (m.fill obj 0 (m.load32 cache), obj)

/-- The page for a new slab comes from `kmalloc_real(4096, 1)`, which is past the slab path. -/
def slabAlloc (h : Heap) (m : Memory) (size : Nat) : Option (Heap × Memory × Nat) :=
  match getSlabIndex size with
  | none => some (h, m, 0)
  | some idx =>
    let cache := h.slabCaches + 8 * idx
    (findSlab m walkFuel (m.load32 (cache + 4))).bind fun slab =>
      if slab ≠ 0 then some (h, takeObject m cache slab)
      else
        (kmallocBuddy h m 4096 1).bind fun (h, m, page) =>
          if page = 0 then some (h, m, 0)
          else if m.load32 cache = 0 then none
          else some (h, takeObject (initSlab m cache page) cache page)

def writePhys (m : Memory) (phys : Option Nat) (ptr : Nat) : Memory :=
  match phys with
  | none => m
  | some a => m.store32 a ptr

def kmallocReal (h : Heap) (m : Memory) (size : Nat) (align : Int) (phys : Option Nat) :
    Option (Heap × Memory × Nat) :=
  let slab := if h.slabIsInitialized ∧ size ≤ 2048 ∧ align = 0 then slabAlloc h m size else some (h, m, 0)
  slab.bind fun (h, m, ptr) =>
    if ptr ≠ 0 then some (h, writePhys m phys ptr, ptr)
    else
      (kmallocBuddy h m size align).map fun (h, m, ptr) =>
        (h, if ptr ≠ 0 then writePhys m phys ptr else m, ptr)

/-- The flag tells whether the pointer was handled. -/
def slabFree (m : Memory) (ptr : Nat) : Option (Memory × Bool) :=
  if ptr = 0 then some (m, false)
  else
    let slab := ptr / 4096 * 4096 + 4
    if m.load32 slab ≠ slabMagic then some (m, false)
    else
      let offset := (ptr + 2 ^ 32 - (slab + 24)) % 2 ^ 32
      let objectSize := m.load32 (m.load32 (slab + 4))
      if objectSize = 0 then none
      else if offset % objectSize ≠ 0 then some (m, false)
      else
        let m := m.store32 ptr (m.load32 (slab + 20))
        let m := m.store32 (slab + 20) (offset / objectSize)
        some (m.store32 (slab + 16) ((m.load32 (slab + 16) + 1) % 2 ^ 32), true)

def kfree (h : Heap) (m : Memory) (p : Nat) : Option (Heap × Memory) :=
  if p = 0 then some (h, m)
  else
    (if h.slabIsInitialized then slabFree m p else some (m, false)).bind fun (m, handled) =>
      if handled then some (h, m)
      else
        let block := m.load32 ((p + 2 ^ 32 - 4) % 2 ^ 32)
        if block < h.startAddress ∨ h.endAddress < block then some (h, m)
        else if m.load32 (block + 16) ≠ headerMagic then some (h, m)
        else
          let size := m.load32 (block + 8)
          let m := (m.store8 (block + 12) 0).store32 (block + 16) freedMagic
          (buddyFree h.buddy m block size).map fun (b, m) => ({ h with buddy := b }, m)

theorem kmallocReal_page (h : Heap) (m : Memory) :
    kmallocReal h m 4096 1 none = kmallocBuddy h m 4096 1 := by
  have hs : ¬ (h.slabIsInitialized ∧ 4096 ≤ 2048 ∧ (1 : Int) = 0) := by simp
  simp only [kmallocReal, if_neg hs, Option.bind_some, ne_eq, not_true_eq_false, if_false, writePhys, ite_self]
  exact Option.map_id'

end RetroOs.Kernel
