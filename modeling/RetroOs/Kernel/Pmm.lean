import Mathlib.Algebra.GroupWithZero.Nat
import Mathlib.Data.Finset.Card

/-! The physical frame allocator: a bitmap of 32-bit words, one bit for each 4096-byte frame,
and a count of the used ones. -/
namespace RetroOs.Kernel
open List Nat Function

abbrev Word := BitVec 32

/-- The 4096-byte frame a physical address lies in. -/
def frameOf (addr : Word) : Nat := addr.toNat / 4096

def frameAddr (frame : Nat) : Word := BitVec.ofNat 32 (frame * 4096)

theorem frameOf_frameAddr {f : Nat} (hf : f < 2 ^ 20) : frameOf (frameAddr f) = f := by
  rw [frameOf, frameAddr, BitVec.toNat_ofNat, mod_eq_of_lt (by omega)]
  omega

structure Pmm where
  bitmap : Nat → Word
  maxBlocks : Nat
  usedBlocks : Word
  /-- The block count is a 32-bit memory size over 4096. -/
  max_lt : maxBlocks < 2 ^ 20

namespace Pmm

theorem oneWord_lt : 32 < 2 ^ 20 := by decide

theorem twoWords_lt : 64 < 2 ^ 20 := by decide

def mmapSet (p : Pmm) (bit : Nat) : Pmm :=
  let word := p.bitmap (bit / 32) ||| BitVec.twoPow 32 (bit % 32)
  { p with bitmap := update p.bitmap (bit / 32) word }

def mmapUnset (p : Pmm) (bit : Nat) : Pmm :=
  let word := p.bitmap (bit / 32) &&& ~~~ BitVec.twoPow 32 (bit % 32)
  { p with bitmap := update p.bitmap (bit / 32) word }

def mmapTest (p : Pmm) (bit : Nat) : Bool :=
  p.bitmap (bit / 32) &&& BitVec.twoPow 32 (bit % 32) != 0

def mmapFirstFree (p : Pmm) : Option Nat :=
  (range (p.maxBlocks / 32)).findSome? fun i =>
    if p.bitmap i != 0xFFFFFFFF then
      (range 32).findSome? fun j =>
        if p.bitmap i &&& BitVec.twoPow 32 j == 0 then some (i * 32 + j) else none
    else none

def freeBlockCount (p : Pmm) : Word := BitVec.ofNat 32 p.maxBlocks - p.usedBlocks

def allocBlock (p : Pmm) : Pmm × Word :=
  if p.freeBlockCount = 0 then (p, 0)
  else
    match p.mmapFirstFree with
    | none => (p, 0)
    | some frame =>
      ({ p.mmapSet frame with usedBlocks := p.usedBlocks + 1 }, frameAddr frame)

/-- Clear the bit of the frame at an address, if it is set. -/
def freeBlock (p : Pmm) (addr : Word) : Pmm :=
  let frame := frameOf addr
  if p.mmapTest frame then { p.mmapUnset frame with usedBlocks := p.usedBlocks - 1 } else p

/-- Look for `count` clear bits in a row, from bit `i` on and with `n` bits to go. -/
def findRun (p : Pmm) (count : Nat) : Nat → Nat → Nat → Nat → Option Nat
  | 0, _, _, _ => none
  | n + 1, i, consecutive, startFrame =>
    if p.mmapTest i then findRun p count n (i + 1) 0 0
    else
      let startFrame := if consecutive = 0 then i else startFrame
      if consecutive + 1 = count then some startFrame
      else findRun p count n (i + 1) (consecutive + 1) startFrame

def allocContiguousBlocks (p : Pmm) (count : Word) : Pmm × Word :=
  if count = 0 then (p, 0)
  else if p.freeBlockCount < count then (p, 0)
  else
    match p.findRun count.toNat p.maxBlocks 0 0 0 with
    | none => (p, 0)
    | some startFrame =>
      ({ (range count.toNat).foldl (fun q k => q.mmapSet (startFrame + k)) p with
          usedBlocks := p.usedBlocks + count }, frameAddr startFrame)

def freeContiguousBlocks (p : Pmm) (addr count : Word) : Pmm :=
  (range count.toNat).foldl (fun q k =>
    let frame := frameOf addr + k
    if q.mmapTest frame then { q.mmapUnset frame with usedBlocks := q.usedBlocks - 1 } else q) p

section
variable {p q : Pmm} {f g n i c start : Nat} {fs : List Nat}

theorem mmapTest_eq (p : Pmm) (f : Nat) : p.mmapTest f = (p.bitmap (f / 32)).getLsbD (f % 32) := by
  have hlt : f % 32 < 32 := mod_lt _ (by omega)
  rw [mmapTest, BitVec.and_twoPow]
  cases (p.bitmap (f / 32)).getLsbD (f % 32) with
  | false => rfl
  | true =>
    have hne : BitVec.twoPow 32 (f % 32) ≠ 0 := fun h => by
      have := congrArg (BitVec.getLsbD · (f % 32)) h
      simp [hlt] at this
    simpa using hne

private theorem same_bit (h : f / 32 = g / 32) : f % 32 = g % 32 ↔ g = f := by omega

theorem mmapTest_mmapSet : (p.mmapSet f).mmapTest g = (p.mmapTest g || decide (g = f)) := by
  have hlt : f % 32 < 32 := mod_lt _ (by omega)
  rw [mmapTest_eq, mmapTest_eq, mmapSet]
  by_cases h : g / 32 = f / 32
  · simp only [h, Function.update_self, BitVec.getLsbD_or, BitVec.getLsbD_twoPow, same_bit h.symm, hlt,
      decide_true, Bool.true_and]
  · have hne : g ≠ f := fun he => h (he ▸ rfl)
    simp [update_of_ne h, hne]

theorem mmapTest_mmapUnset : (p.mmapUnset f).mmapTest g = (p.mmapTest g && !decide (g = f)) := by
  have hlt : f % 32 < 32 := mod_lt _ (by omega)
  have hlt' : g % 32 < 32 := mod_lt _ (by omega)
  rw [mmapTest_eq, mmapTest_eq, mmapUnset]
  by_cases h : g / 32 = f / 32
  · simp only [h, Function.update_self, BitVec.getLsbD_and, BitVec.getLsbD_not, BitVec.getLsbD_twoPow,
      same_bit h.symm, hlt, hlt', decide_true, Bool.true_and]
  · have hne : g ≠ f := fun he => h (he ▸ rfl)
    simp [update_of_ne h, hne]

/-- A clear bit in the words the allocator scans. -/
def Free (p : Pmm) (f : Nat) : Prop := f < 32 * (p.maxBlocks / 32) ∧ p.mmapTest f = false

instance (p : Pmm) (f : Nat) : Decidable (p.Free f) := inferInstanceAs (Decidable (_ ∧ _))

theorem Free.lt (h : p.Free f) : f < 2 ^ 20 := by
  have := h.1
  have := p.max_lt
  omega

theorem mmapFirstFree_some (h : p.mmapFirstFree = some f) : p.Free f := by
  obtain ⟨i, hi, hw⟩ := exists_of_findSome?_eq_some h
  rw [mem_range] at hi
  split_ifs at hw
  obtain ⟨j, hj, hb⟩ := exists_of_findSome?_eq_some hw
  rw [mem_range] at hj
  split_ifs at hb with hz
  cases hb
  have hdiv : (i * 32 + j) / 32 = i := by omega
  have hmod : (i * 32 + j) % 32 = j := by omega
  refine ⟨by omega, ?_⟩
  rw [mmapTest, hdiv, hmod, bne, hz]
  rfl

theorem mmapFirstFree_none (h : p.mmapFirstFree = none) : ¬ p.Free f := by
  rintro ⟨hlt, hf⟩
  have hw := findSome?_eq_none_iff.mp h (f / 32) (mem_range.mpr (by omega))
  have hbit := hf
  rw [mmapTest_eq] at hbit
  have hne : p.bitmap (f / 32) ≠ 0xFFFFFFFF := fun he => by
    rw [he, show (0xFFFFFFFF : Word) = BitVec.allOnes 32 from rfl, BitVec.getLsbD_allOnes] at hbit
    simp [mod_lt f (show 32 > 0 by omega)] at hbit
  rw [if_pos (by simpa using hne)] at hw
  have hj := findSome?_eq_none_iff.mp hw (f % 32) (mem_range.mpr (mod_lt _ (by omega)))
  rw [mmapTest, bne, Bool.not_eq_false'] at hf
  rw [if_pos hf] at hj
  cases hj

/-- Frames of `fs`, all free before, have been taken and nothing else changed. -/
structure Grows (p q : Pmm) (fs : List Nat) : Prop where
  nodup : fs.Nodup
  free : ∀ f ∈ fs, p.Free f
  maxBlocks : q.maxBlocks = p.maxBlocks
  mmapTest : ∀ f, q.mmapTest f = (p.mmapTest f || decide (f ∈ fs))
  usedBlocks : q.usedBlocks = p.usedBlocks + BitVec.ofNat 32 fs.length

theorem Grows.refl (p : Pmm) : Grows p p [] :=
  ⟨.nil, by simp, rfl, by simp, by simp⟩

theorem Grows.free_iff (h : Grows p q fs) : q.Free f ↔ p.Free f ∧ f ∉ fs := by
  simp only [Free, h.maxBlocks, h.mmapTest, Bool.or_eq_false_iff, decide_eq_false_iff_not, and_assoc]

theorem Grows.trans {r : Pmm} {gs : List Nat} (h : Grows p q fs) (h' : Grows q r gs) :
    Grows p r (fs ++ gs) where
  nodup := List.nodup_append.mpr ⟨h.nodup, h'.nodup, fun a ha b hb hab =>
    (h.free_iff.mp (h'.free b hb)).2 (hab ▸ ha)⟩
  free f hf := by
    rcases List.mem_append.mp hf with hf | hf
    · exact h.free f hf
    · exact (h.free_iff.mp (h'.free f hf)).1
  maxBlocks := h'.maxBlocks.trans h.maxBlocks
  mmapTest f := by
    rw [h'.mmapTest, h.mmapTest, Bool.or_assoc]
    simp
  usedBlocks := by
    rw [h'.usedBlocks, h.usedBlocks, List.length_append, BitVec.ofNat_add, BitVec.add_assoc]

/-- The free frames among those the allocator scans. -/
def freeFrames (p : Pmm) : Finset Nat := (Finset.range (32 * (p.maxBlocks / 32))).filter fun f => p.mmapTest f = false

theorem mem_freeFrames : f ∈ p.freeFrames ↔ p.Free f := by
  simp [freeFrames, Free]

def CanAlloc (p : Pmm) (n : Nat) : Prop := n ≤ p.freeBlockCount.toNat ∧ n ≤ p.freeFrames.card

theorem CanAlloc.mono (h : p.CanAlloc n) {k : Nat} (hk : k ≤ n) : p.CanAlloc k :=
  ⟨hk.trans h.1, hk.trans h.2⟩

theorem CanAlloc.grows (h : p.CanAlloc (fs.length + n)) (hg : Grows p q fs) :
    q.CanAlloc n := by
  constructor
  · have hlen : fs.length < 2 ^ 32 := by
      have := h.1
      omega
    have he : q.freeBlockCount = p.freeBlockCount - BitVec.ofNat 32 fs.length := by
      rw [freeBlockCount, freeBlockCount, hg.maxBlocks, hg.usedBlocks, BitVec.sub_sub]
    have hle : (BitVec.ofNat 32 fs.length) ≤ p.freeBlockCount := by
      rw [BitVec.le_def, BitVec.toNat_ofNat, mod_eq_of_lt hlen]
      have := h.1
      omega
    rw [he, BitVec.toNat_sub_of_le hle, BitVec.toNat_ofNat, mod_eq_of_lt hlen]
    have := h.1
    omega
  · have he : q.freeFrames = p.freeFrames \ fs.toFinset := by
      ext f
      rw [Finset.mem_sdiff, mem_freeFrames, mem_freeFrames, hg.free_iff, List.mem_toFinset]
    have hsub : fs.toFinset ⊆ p.freeFrames := fun f hf =>
      mem_freeFrames.mpr (hg.free f (List.mem_toFinset.mp hf))
    rw [he, Finset.card_sdiff_of_subset hsub, List.toFinset_card_of_nodup hg.nodup]
    have := h.2
    omega

theorem allocBlock_spec (h : p.CanAlloc (n + 1)) :
    ∃ f q, p.allocBlock = (q, frameAddr f) ∧ Grows p q [f] ∧ q.CanAlloc n := by
  obtain ⟨hc, hf⟩ := h
  obtain ⟨f, hff⟩ := Finset.card_pos.mp (lt_of_lt_of_le (succ_pos n) hf)
  rw [mem_freeFrames] at hff
  cases hm : p.mmapFirstFree with
  | none => exact absurd hff (mmapFirstFree_none hm)
  | some g =>
    have hcount : p.freeBlockCount ≠ 0 := fun he => by
      rw [he] at hc
      simp at hc
    have hg : Grows p { p.mmapSet g with usedBlocks := p.usedBlocks + 1 } [g] :=
      ⟨by simp, by simpa using mmapFirstFree_some hm, rfl,
        fun x => (mmapTest_mmapSet (p := p) (f := g) (g := x)).trans (by simp), rfl⟩
    refine ⟨g, _, ?_, hg, CanAlloc.grows (show p.CanAlloc ([g].length + n) from ⟨?_, ?_⟩) hg⟩
    · rw [allocBlock, if_neg hcount, hm]
    · simpa [add_comm] using hc
    · simpa [add_comm] using hf

theorem allocBlock_mono (h : p.mmapTest f = true) : p.allocBlock.1.mmapTest f = true := by
  rw [allocBlock]
  split
  · exact h
  · split
    · exact h
    · exact (mmapTest_mmapSet (p := p)).trans (by rw [h]; rfl)

theorem mmapTest_freeBlock (addr : Word) :
    (p.freeBlock addr).mmapTest g = (p.mmapTest g && !decide (g = frameOf addr)) := by
  rw [freeBlock]
  by_cases ht : p.mmapTest (frameOf addr) = true
  · rw [if_pos ht]
    exact mmapTest_mmapUnset
  · rw [if_neg ht]
    by_cases he : g = frameOf addr
    · subst he
      simp [Bool.not_eq_true _ ▸ ht]
    · simp [he]

def release (p : Pmm) (fs : List Nat) : Pmm := fs.foldl (fun p f => p.freeBlock (frameAddr f)) p

@[simp] theorem release_nil : p.release [] = p := rfl

theorem release_append (fs gs : List Nat) : p.release (fs ++ gs) = (p.release fs).release gs :=
  foldl_append

theorem freeBlock_eq_release {addr : Word} (h : frameOf addr = f) : p.freeBlock addr = p.release [f] := by
  have hf : f < 2 ^ 20 := by
    rw [← h, frameOf]
    omega
  simp only [release, foldl_cons, foldl_nil, freeBlock, frameOf_frameAddr hf, h]

theorem maxBlocks_release (fs : List Nat) : (p.release fs).maxBlocks = p.maxBlocks := by
  induction fs generalizing p with
  | nil => rfl
  | cons f fs ih =>
    rw [release, foldl_cons, ← release, ih, freeBlock]
    split <;> rfl

theorem mmapTest_release (hfs : ∀ f ∈ fs, f < 2 ^ 20) :
    (p.release fs).mmapTest g = (p.mmapTest g && !decide (g ∈ fs)) := by
  induction fs generalizing p with
  | nil => simp
  | cons f fs ih =>
    rw [release, foldl_cons, ← release, ih fun x hx => hfs x (.tail _ hx),
      mmapTest_freeBlock, frameOf_frameAddr (hfs f mem_cons_self), Bool.and_assoc]
    congr 1
    simp [Bool.not_or]

private theorem usedBlocks_release (hn : fs.Nodup) (hfs : ∀ f ∈ fs, f < 2 ^ 20)
    (hu : ∀ f ∈ fs, p.mmapTest f = true) :
    (p.release fs).usedBlocks = p.usedBlocks - BitVec.ofNat 32 fs.length := by
  induction fs generalizing p with
  | nil => simp
  | cons f fs ih =>
    obtain ⟨hnf, hn⟩ := List.nodup_cons.mp hn
    have hf := frameOf_frameAddr (hfs f List.mem_cons_self)
    rw [release, List.foldl_cons, ← release, ih hn fun x hx => hfs x (List.mem_cons_of_mem _ hx)]
    · rw [freeBlock, hf, if_pos (hu f List.mem_cons_self), List.length_cons, Nat.add_comm,
        BitVec.ofNat_add, ← BitVec.sub_sub]
      rfl
    · intro x hx
      have hne : x ≠ f := fun he => hnf (he ▸ hx)
      rw [mmapTest_freeBlock, hu x (List.mem_cons_of_mem _ hx), hf]
      simp [hne]

private theorem ext_mmapTest (hm : p.maxBlocks = q.maxBlocks) (hu : p.usedBlocks = q.usedBlocks)
    (ht : ∀ f, p.mmapTest f = q.mmapTest f) : p = q := by
  have hb : p.bitmap = q.bitmap := by
    funext i
    refine BitVec.eq_of_getLsbD_eq fun j hj => ?_
    have hbit := ht (i * 32 + j)
    rw [mmapTest_eq, mmapTest_eq, show (i * 32 + j) / 32 = i by omega,
      show (i * 32 + j) % 32 = j by omega] at hbit
    exact hbit
  cases p
  cases q
  simp_all

theorem Grows.release_perm {gs : List Nat} (h : Grows p q fs) (hp : gs.Perm fs) : q.release gs = p := by
  have hlt : ∀ f ∈ gs, f < 2 ^ 20 := fun f hf => (h.free f (hp.mem_iff.mp hf)).lt
  have htest : ∀ f ∈ gs, q.mmapTest f = true := fun f hf => by simp [h.mmapTest, hp.mem_iff.mp hf]
  refine ext_mmapTest ((maxBlocks_release gs).trans h.maxBlocks) ?_ fun f => ?_
  · rw [usedBlocks_release (hp.nodup_iff.mpr h.nodup) hlt htest, h.usedBlocks, hp.length_eq,
      BitVec.add_sub_cancel]
  · rw [mmapTest_release hlt, h.mmapTest]
    by_cases hf : f ∈ fs
    · simp [hf, hp.mem_iff, (h.free f hf).2]
    · simp [hf, hp.mem_iff]

end
end Pmm
end RetroOs.Kernel
