import RetroOs.Kernel.BuddyRuns
import RetroOs.Kernel.Heap

/-! What the heap accounts for, without its words in memory: free blocks, slabs with their free
objects, and for each allocation the object or block it was taken from. -/
namespace RetroOs.Kernel
open Lib Block List

def objectSize (cache : Nat) : Nat := 32 * 2 ^ cache

/-- Objects of a slab page. -/
def capacity (cache : Nat) : Nat := 4072 / objectSize cache

/-- Order of the block behind a slab page: 4096 bytes, the header and the room for aligning. -/
def slabOrder : Nat := 14

/-- A slab page, in the block at a pool-relative address. -/
structure Slab where
  addr : Nat
  cache : Nat
  free : List Nat

def Slab.block (s : Slab) : Block := ⟨s.addr, slabOrder⟩

def Slab.header (P : Pool) (s : Slab) : Nat := P.start + s.addr + 0x1004

def Slab.object (P : Pool) (s : Slab) (i : Nat) : Nat := s.header P + 24 + i * objectSize s.cache

inductive Origin where
  | object (slab index : Nat)
  | block (addr requiredSize : Nat)

def Origin.block? : Origin → Option Block
  | .object _ _ => none
  | .block addr requiredSize => some ⟨addr, blockOrder requiredSize⟩

/-- A pointer handed out, with the arguments of the call. -/
structure Allocation where
  ptr : Nat
  size : Nat
  align : Int

def Allocation.Holds (a : Allocation) (x : Nat) : Prop := a.ptr ≤ x ∧ x < a.ptr + a.size

structure Lease extends Allocation where
  origin : Origin

structure Books where
  free : List Block
  slabs : List Slab
  live : List Lease

def Books.held (B : Books) : List Block := B.slabs.map Slab.block ++ B.live.filterMap (·.origin.block?)

def requiredSize (size : Nat) (align : Int) : Nat := size + 24 + if align = 0 then 0 else 4096

def dataOffset (align : Int) : Nat := if align = 0 then 24 else 0x1004

def objectLease (P : Pool) (s : Slab) (index size : Nat) : Lease :=
  ⟨⟨s.object P index, size, 0⟩, .object s.addr index⟩

def blockLease (P : Pool) (addr size : Nat) (align : Int) : Lease :=
  ⟨⟨P.start + addr + dataOffset align, size, align⟩, .block addr (requiredSize size align)⟩

def updateFree (slabs : List Slab) (addr : Nat) (f : List Nat → List Nat) : List Slab :=
  slabs.map fun t => if t.addr = addr then { t with free := f t.free } else t

namespace Books

def split (B : Books) (r k n : Nat) : List Block := splitFree r k n (B.free.erase ⟨r, k + n⟩)

def grow (B : Books) (cache r n : Nat) : Books :=
  ⟨B.split r slabOrder n, ⟨r, cache, range (capacity cache)⟩ :: B.slabs, B.live⟩

def lendObject (P : Pool) (B : Books) (s : Slab) (index size : Nat) : Books :=
  ⟨B.free, updateFree B.slabs s.addr tail, objectLease P s index size :: B.live⟩

def lendBlock (P : Pool) (B : Books) (r n size : Nat) (align : Int) : Books :=
  ⟨B.split r (blockOrder (requiredSize size align)) n, B.slabs, blockLease P r size align :: B.live⟩

def giveBack (B : Books) (origin : Origin) (live : List Lease) : Books :=
  match origin with
  | .object slab index => ⟨B.free, updateFree B.slabs slab (index :: ·), live⟩
  | .block addr requiredSize =>
    ⟨giveBlock buddyMaxOrder ⟨addr, blockOrder requiredSize⟩ B.free, B.slabs, live⟩

end Books

inductive HeapEvent where
  | kmalloc (size : Nat) (align : Int) (ptr : Nat)
  | kfree (ptr : Nat)
  | write

inductive BooksStep (P : Pool) (B : Books) : HeapEvent → Books → Prop where
  | object {s : Slab} {index size : Nat} {rest : List Nat} (hc : getSlabIndex size = some s.cache)
      (hs : s ∈ B.slabs) (hf : s.free = index :: rest) :
      BooksStep P B (.kmalloc size 0 (s.object P index)) (B.lendObject P s index size)
  | grow {cache r n size : Nat} (hc : getSlabIndex size = some cache)
      (hn : ∀ s ∈ B.slabs, s.cache = cache → s.free = []) (hr : ⟨r, slabOrder + n⟩ ∈ B.free) :
      BooksStep P B (.kmalloc size 0 (P.start + r + 0x101C))
        ((B.grow cache r n).lendObject P ⟨r, cache, range (capacity cache)⟩ 0 size)
  /-- A block of its own, for small requests only when there is no page for a slab. -/
  | block {r n size : Nat} {align : Int} (hz : 0 < size)
      (hb : getSlabIndex size = none ∨ align ≠ 0 ∨ ∀ c ∈ B.free, c.order < slabOrder)
      (hr : ⟨r, blockOrder (requiredSize size align) + n⟩ ∈ B.free) :
      BooksStep P B (.kmalloc size align (P.start + r + dataOffset align)) (B.lendBlock P r n size align)
  | null {size : Nat} {align : Int}
      (hn : size = 0 ∨ ∀ c ∈ B.free, c.order < blockOrder (requiredSize size align)) :
      BooksStep P B (.kmalloc size align 0) B
  | kfree {before after : List Lease} {a : Lease} (ha : B.live = before ++ a :: after) :
      BooksStep P B (.kfree a.ptr) (B.giveBack a.origin (before ++ after))
  | write : BooksStep P B .write B

section
variable {P : Pool} {l l' : List Block} {c : Block} {r k n size cache i j : Nat}

theorem Tiling.splitFree (h : Tiling P (⟨r, k + n⟩ :: l)) (hk : buddyMinOrder ≤ k) :
    Tiling P (⟨r, k⟩ :: splitFree r k n l) := by
  induction n generalizing l with
  | zero => exact h
  | succ n ih => exact ih (h.split (hk.trans (Nat.le_add_right k n)))

theorem Tiling.take (h : Tiling P (l' ++ l)) (hr : ⟨r, k + n⟩ ∈ l) (hk : buddyMinOrder ≤ k) :
    Tiling P (⟨r, k⟩ :: l' ++ Lib.splitFree r k n (l.erase ⟨r, k + n⟩)) := by
  have hs : Tiling P (⟨r, k⟩ :: Lib.splitFree r k n (l.erase ⟨r, k + n⟩)) :=
    (h.of_append.perm (perm_cons_erase hr)).splitFree hk
  apply h.congr
  · intro c hc
    rcases mem_append.mp hc with hc | hc
    · rcases mem_cons.mp hc with rfl | hc
      · exact hs.good _ (.head _)
      · exact h.good c (mem_append_left _ hc)
    · exact hs.good c (.tail _ hc)
  · intro x
    have hcov := coverCount_splitFree (a := r) (k := k) (n := n) (l := l.erase ⟨r, k + n⟩) (x := x)
    rw [coverCount_erase hr, coverCount_cons] at hcov
    rw [cons_append, coverCount_cons, coverCount_append, coverCount_append]
    omega

theorem Tiling.coalesceFree (h : Tiling P (c :: l)) (hn : c.order + n ≤ buddyMaxOrder) :
    Tiling P ((coalesceFree n c l).1 :: (coalesceFree n c l).2) := by
  induction n generalizing c l with
  | zero => exact h
  | succ n ih =>
    rw [Lib.coalesceFree]
    split
    · next hb => exact ih (h.merge hb (by omega)) (by rw [parent_order]; omega)
    · exact h

theorem Tiling.give (h : Tiling P (c :: l' ++ l)) : Tiling P (l' ++ giveBlock buddyMaxOrder c l) := by
  have hcl : Tiling P (c :: l) := (h.perm perm_middle.symm).of_append
  have hg := hcl.good c (.head _)
  have hmax := hg.le_max
  have ht : Tiling P (giveBlock buddyMaxOrder c l) := hcl.coalesceFree (by omega)
  apply h.congr
  · intro d hd
    rcases mem_append.mp hd with hd | hd
    · exact h.good d (mem_append_left _ (.tail _ hd))
    · exact ht.good d hd
  · intro x
    rw [coverCount_append, coverCount_giveBlock hg.aligned, cons_append, coverCount_cons,
      coverCount_cons, coverCount_append]
    omega

theorem objectSize_pos (cache : Nat) : 0 < objectSize cache :=
  Nat.mul_pos (by omega) (Nat.two_pow_pos cache)

theorem object_le (hi : i < capacity cache) : i * objectSize cache + objectSize cache ≤ 4072 := by
  have := (Nat.le_div_iff_mul_le (objectSize_pos cache)).mp hi
  rwa [Nat.succ_mul] at this

variable (cache) in
theorem objects_apart (h : i < j) : i * objectSize cache + objectSize cache ≤ j * objectSize cache := by
  have := Nat.mul_le_mul_right (objectSize cache) h
  rwa [Nat.succ_mul] at this

theorem getSlabIndex_some (h : getSlabIndex size = some cache) : cache < 7 ∧ size ≤ objectSize cache := by
  simp only [getSlabIndex] at h
  split_ifs at h <;> obtain rfl := Option.some.inj h <;> exact ⟨by decide, by simpa [objectSize]⟩

end

end RetroOs.Kernel
