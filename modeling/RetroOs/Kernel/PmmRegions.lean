import RetroOs.Kernel.PmmContiguous
import RetroOs.Lib.Census

/-! Setting up the frame allocator: `pmm_init` over whatever the memory of the bitmap holds, and regions that are marked
used or free. -/
namespace RetroOs.Kernel
open Lib List List

namespace Pmm

def clearBytes (bytes i : ℕ) (word : Word) : Word :=
  (List.range 4).foldl (fun word j => if 4 * i + j < bytes then word &&& ~~~(BitVec.ofNat 32 (0xFF <<< (8 * j))) else word) word

def init (memSize : Word) (bitmap : ℕ → Word) : Pmm where
  bitmap i := clearBytes (memSize.toNat / 4096 / 8) i (bitmap i)
  maxBlocks := memSize.toNat / 4096
  usedBlocks := 0
  max_lt := by
    have := memSize.isLt
    omega

/-- The frames of a region, the last one counted when it is there in part. -/
def regionBlocks (size : Word) : ℕ := size.toNat / 4096 + if size.toNat % 4096 = 0 then 0 else 1

def takeFrame (p : Pmm) (frame : ℕ) : Pmm :=
  if p.mmapTest frame then p else { p.mmapSet frame with usedBlocks := p.usedBlocks + 1 }

def giveFrame (p : Pmm) (frame : ℕ) : Pmm :=
  if p.mmapTest frame then { p.mmapUnset frame with usedBlocks := p.usedBlocks - 1 } else p

def markRegionUsed (p : Pmm) (base size : Word) : Pmm :=
  (range (regionBlocks size)).foldl (fun q k => q.takeFrame (frameOf base + k)) p

def markRegionFree (p : Pmm) (base size : Word) : Pmm :=
  (range (regionBlocks size)).foldl (fun q k => q.giveFrame (frameOf base + k)) p

/-- What the counter says is used, with `drift` more than it says, are the set bits of the frames. -/
def Drift (p : Pmm) (drift : ℕ) : Prop :=
  p.usedBlocks + BitVec.ofNat 32 drift = BitVec.ofNat 32 (census p.mmapTest p.maxBlocks)

/-- The counter is the number of set bits. -/
def Accounts (p : Pmm) : Prop := p.usedBlocks = BitVec.ofNat 32 (census p.mmapTest p.maxBlocks)

variable {p q : Pmm} {f g k n i start d bytes : ℕ} {fs : List ℕ} {memSize : Word}
  {bitmap : ℕ → Word}

private theorem clearBytes_getLsbD (hk : k < 32) (word : Word) :
    (clearBytes bytes i word).getLsbD k = (word.getLsbD k && !decide (4 * i + k / 8 < bytes)) := by
  have hmask : ∀ j < 4, (~~~(BitVec.ofNat 32 (0xFF <<< (8 * j)))).getLsbD k = !decide (k / 8 = j) := by
    intro j hj
    rw [BitVec.getLsbD_not, BitVec.getLsbD_ofNat, decide_eq_true hk, Bool.true_and, Bool.true_and, Nat.testBit_shiftLeft]
    congr 1
    rw [show (0xFF : ℕ) = 2 ^ 8 - 1 from rfl, Nat.testBit_two_pow_sub_one, ← Bool.decide_and]
    exact decide_eq_decide.mpr (by omega)
  have hstep : ∀ n ≤ 4, ((range n).foldl (fun word j =>
      if 4 * i + j < bytes then word &&& ~~~(BitVec.ofNat 32 (0xFF <<< (8 * j))) else word) word).getLsbD k =
      (word.getLsbD k && !decide (4 * i + k / 8 < bytes ∧ k / 8 < n)) := by
    intro n hn
    induction n with
    | zero => simp
    | succ n ih =>
      rw [range_succ, foldl_append, foldl_cons, foldl_nil]
      by_cases hb : 4 * i + n < bytes
      · rw [if_pos hb, BitVec.getLsbD_and, ih (by omega), hmask n (by omega), Bool.and_assoc, ← Bool.not_or, ← Bool.decide_or]
        congr 2
        exact decide_eq_decide.mpr (by omega)
      · rw [if_neg hb, ih (by omega)]
        congr 2
        exact decide_eq_decide.mpr (by omega)
  rw [clearBytes, hstep 4 le_rfl]
  congr 2
  exact decide_eq_decide.mpr (by omega)

theorem mmapTest_init : (init memSize bitmap).mmapTest f =
    ((bitmap (f / 32)).getLsbD (f % 32) && !decide (f < memSize.toNat / 4096 / 8 * 8)) := by
  rw [mmapTest_eq, init, clearBytes_getLsbD (Nat.mod_lt _ (by omega))]
  congr 2
  exact decide_eq_decide.mpr (by omega)

structure Takes (p q : Pmm) (fs : List ℕ) : Prop where
  nodup : fs.Nodup
  lt : ∀ f ∈ fs, f < p.maxBlocks
  clear : ∀ f ∈ fs, p.mmapTest f = false
  maxBlocks : q.maxBlocks = p.maxBlocks
  mmapTest : ∀ f, q.mmapTest f = (p.mmapTest f || decide (f ∈ fs))
  usedBlocks : q.usedBlocks = p.usedBlocks + BitVec.ofNat 32 fs.length

theorem Takes.refl (p : Pmm) : Takes p p [] := ⟨.nil, by simp, by simp, rfl, by simp, by simp⟩

theorem Takes.snoc (h : Takes p q fs) (hf : f < p.maxBlocks) : ∃ gs, Takes p (q.takeFrame f) gs := by
  rw [takeFrame]
  by_cases ht : q.mmapTest f = true
  · rw [if_pos ht]
    exact ⟨fs, h⟩
  · rw [if_neg ht]
    rw [Bool.not_eq_true, h.mmapTest, Bool.or_eq_false_iff, decide_eq_false_iff_not] at ht
    refine ⟨f :: fs, nodup_cons.mpr ⟨ht.2, h.nodup⟩, forall_mem_cons.mpr ⟨hf, h.lt⟩,
      List.forall_mem_cons.mpr ⟨ht.1, h.clear⟩, h.maxBlocks, fun g => ?_, ?_⟩
    · have hset : (q.mmapSet f).mmapTest g = (p.mmapTest g || decide (g ∈ f :: fs)) := by
        rw [mmapTest_mmapSet, h.mmapTest, Bool.or_assoc, ← Bool.decide_or]
        congr 1
        exact decide_eq_decide.mpr (or_comm.trans mem_cons.symm)
      exact hset
    · rw [h.usedBlocks, length_cons, Nat.add_comm, BitVec.ofNat_add, BitVec.add_assoc, BitVec.add_comm (BitVec.ofNat 32 1)]
      rfl

theorem Takes.drift (h : Takes p q fs) (hd : p.Drift d) : q.Drift d := by
  rw [Drift, h.maxBlocks, census_or h.nodup h.lt h.clear fun f _ => h.mmapTest f, BitVec.ofNat_add, ← hd, h.usedBlocks]
  ac_rfl

private theorem giveFrame_takes (hf : f < p.maxBlocks) : p.giveFrame f = p ∨ Takes (p.giveFrame f) p [f] := by
  rw [giveFrame]
  by_cases ht : p.mmapTest f = true
  · rw [if_pos ht]
    have hclear : (p.mmapUnset f).mmapTest f = false := by simp [mmapTest_mmapUnset]
    refine .inr ⟨nodup_singleton f, forall_mem_singleton.mpr hf, forall_mem_singleton.mpr hclear, rfl,
      fun g => ?_, ?_⟩
    · have hback : ((p.mmapUnset f).mmapTest g || decide (g ∈ [f])) = p.mmapTest g := by
        rw [mmapTest_mmapUnset]
        by_cases hg : g = f
        · simp [hg, ht]
        · simp [hg]
      exact hback.symm
    · exact (BitVec.sub_add_cancel p.usedBlocks 1).symm
  · rw [if_neg ht]
    exact .inl rfl

theorem giveFrame_maxBlocks : (p.giveFrame f).maxBlocks = p.maxBlocks := by
  rw [giveFrame]
  split <;> rfl

theorem giveFrame_drift (hf : f < p.maxBlocks) (hd : p.Drift d) : (p.giveFrame f).Drift d := by
  rcases giveFrame_takes hf with h | h
  · rwa [h]
  · have hcount := census_or h.nodup h.lt h.clear fun f _ => h.mmapTest f
    rw [Drift, h.usedBlocks, h.maxBlocks, hcount, BitVec.ofNat_add, BitVec.add_assoc, BitVec.add_comm (BitVec.ofNat 32 _),
      ← BitVec.add_assoc, BitVec.add_left_inj] at hd
    exact hd

theorem takeFrames_takes (hlt : ∀ f ∈ frameRange start n, f < p.maxBlocks) :
    ∃ fs, Takes p ((range n).foldl (fun q k => q.takeFrame (start + k)) p) fs := by
  induction n with
  | zero => exact ⟨[], Takes.refl p⟩
  | succ n ih =>
    obtain ⟨fs, h⟩ := ih fun f hf => hlt f (by rw [mem_frameRange] at hf ⊢; omega)
    rw [range_succ, foldl_append]
    exact h.snoc (hlt (start + n) (by rw [mem_frameRange]; omega))

private theorem takeFrame_mmapTest (q : Pmm) (f : ℕ) : (q.takeFrame f).mmapTest g = (q.mmapTest g || decide (g = f)) := by
  rw [takeFrame]
  by_cases ht : q.mmapTest f = true
  · rw [if_pos ht]
    by_cases hg : g = f
    · rw [hg, ht, Bool.true_or]
    · rw [decide_eq_false hg, Bool.or_false]
  · rw [if_neg ht]
    exact mmapTest_mmapSet

theorem takeFrames_mmapTest (p : Pmm) (start n : ℕ) :
    ((range n).foldl (fun q k => q.takeFrame (start + k)) p).mmapTest g =
      (p.mmapTest g || decide (g ∈ frameRange start n)) :=
  mmapTest_frames takeFrame or takeFrame_mmapTest (by decide) (by decide) p start n

theorem giveFrames_keeps (hlt : ∀ f ∈ frameRange start n, f < p.maxBlocks) (hd : p.Drift d) :
    ((range n).foldl (fun q k => q.giveFrame (start + k)) p).maxBlocks = p.maxBlocks ∧
      ((range n).foldl (fun q k => q.giveFrame (start + k)) p).Drift d := by
  induction n with
  | zero => exact ⟨rfl, hd⟩
  | succ n ih =>
    obtain ⟨hmax, hdn⟩ := ih fun f hf => hlt f (by rw [mem_frameRange] at hf ⊢; omega)
    rw [range_succ, foldl_append, foldl_cons, foldl_nil]
    refine ⟨giveFrame_maxBlocks.trans hmax, giveFrame_drift ?_ hdn⟩
    rw [hmax]
    exact hlt _ (by rw [mem_frameRange]; omega)

theorem giveFrames_mmapTest (p : Pmm) (start n : ℕ) :
    ((range n).foldl (fun q k => q.giveFrame (start + k)) p).mmapTest g =
      (p.mmapTest g && !decide (g ∈ frameRange start n)) :=
  mmapTest_frames giveFrame (fun x y => x && !y) mmapTest_given (by decide) (by decide) p start n

theorem Drift.accounts_zero_iff (hd : p.Drift d) (hlt : d < 2 ^ 32) : p.Accounts ↔ d = 0 := by
  rw [Accounts, ← hd]
  constructor
  · intro h
    have hzero : BitVec.ofNat 32 d = 0 := BitVec.self_eq_add_right.mp h
    have hnat := congrArg BitVec.toNat hzero
    rw [BitVec.toNat_ofNat, Nat.mod_eq_of_lt hlt] at hnat
    exact hnat
  · rintro rfl
    exact (BitVec.add_zero _).symm

theorem Drift.freeBlockCount (hd : p.Drift d) (hlt : d < 2 ^ 20) :
    p.freeBlockCount.toNat = p.maxBlocks - census p.mmapTest p.maxBlocks + d := by
  have hle := census_le p.mmapTest p.maxBlocks
  have hmax := p.max_lt
  have hused : p.usedBlocks = BitVec.ofNat 32 (census p.mmapTest p.maxBlocks) - BitVec.ofNat 32 d :=
    BitVec.eq_sub_iff_add_eq.mpr hd
  have hfree : p.freeBlockCount = BitVec.ofNat 32 (p.maxBlocks - census p.mmapTest p.maxBlocks + d) := by
    apply BitVec.eq_of_toNat_eq
    rw [Pmm.freeBlockCount, hused]
    simp only [BitVec.toNat_sub, BitVec.toNat_ofNat]
    omega
  rw [hfree, BitVec.toNat_ofNat, Nat.mod_eq_of_lt (by omega)]

end Pmm
end RetroOs.Kernel
