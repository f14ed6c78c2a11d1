import RetroOs.Kernel.Pmm
import RetroOs.Lib.Loop

/-! What the frame allocator may hand out in any state, and first fit on a bitmap that is full up to
some frame. -/
namespace RetroOs.Kernel
open Lib List BitVec

namespace Pmm

variable {p q : Pmm} {f g m n i c k start : Nat} {addr count : Word}

def frameRange (start n : Nat) : List Nat := (range n).map (start + ·)

theorem mem_frameRange : f ∈ frameRange start n ↔ start ≤ f ∧ f < start + n := by
  simp only [frameRange, mem_map, mem_range]
  constructor
  · rintro ⟨k, hk, rfl⟩
    omega
  · rintro ⟨h1, h2⟩
    exact ⟨f - start, by omega, by omega⟩

@[simp] theorem length_frameRange : (frameRange start n).length = n := by simp [frameRange]

theorem frameRange_nodup : (frameRange start n).Nodup :=
  nodup_range.map fun a b h => by simpa using h

theorem allocBlock_cases (p : Pmm) :
    p.allocBlock = (p, 0) ∨ ∃ f, p.mmapFirstFree = some f ∧ p.allocBlock.2 = frameAddr f ∧ Grows p p.allocBlock.1 [f] := by
  rw [allocBlock]
  split
  · exact .inl rfl
  · cases hm : p.mmapFirstFree with
    | none => exact .inl rfl
    | some f =>
      exact .inr ⟨f, rfl, rfl, by simp, by simpa using mmapFirstFree_some hm, rfl,
        fun x => (mmapTest_mmapSet (p := p)).trans (by simp), rfl⟩

theorem findRun_some (hc : c < n) (hs : 0 < c → start + c = i) (hf : ∀ k < c, p.mmapTest (start + k) = false)
    (h : p.findRun n m i c start = some f) :
    f + n ≤ i + m ∧ ∀ k < n, p.mmapTest (f + k) = false := by
  induction m generalizing i c start with
  | zero => cases h
  | succ m ih =>
    rw [findRun] at h
    by_cases ht : p.mmapTest i = true
    · rw [if_pos ht] at h
      have := ih (by omega) (by omega) (by omega) h
      exact ⟨by omega, this.2⟩
    · rw [if_neg ht] at h
      rw [Bool.not_eq_true] at ht
      simp only at h
      have hclear : ∀ k < c + 1, p.mmapTest ((if c = 0 then i else start) + k) = false := by
        intro k hk
        by_cases hc0 : c = 0
        · rw [if_pos hc0, show k = 0 by omega]
          exact ht
        · rw [if_neg hc0]
          by_cases hkc : k < c
          · exact hf k hkc
          · rw [show start + k = i by omega]
            exact ht
      have hend : (if c = 0 then i else start) + (c + 1) = i + 1 := by
        split <;> omega
      by_cases hn : c + 1 = n
      · rw [if_pos hn] at h
        cases h
        exact ⟨by omega, by rwa [← hn]⟩
      · rw [if_neg hn] at h
        have := ih (by omega) (fun _ => hend) hclear h
        exact ⟨by omega, this.2⟩

theorem foldl_mmapSet (p : Pmm) (start n : Nat) :
    ((range n).foldl (fun q k => q.mmapSet (start + k)) p).maxBlocks = p.maxBlocks ∧
      ∀ g, ((range n).foldl (fun q k => q.mmapSet (start + k)) p).mmapTest g =
        (p.mmapTest g || decide (g ∈ frameRange start n)) := by
  induction n with
  | zero => simp [frameRange]
  | succ n ih =>
    simp only [range_succ, foldl_append, foldl_cons, foldl_nil]
    refine ⟨ih.1, fun g => ?_⟩
    rw [mmapTest_mmapSet, ih.2, Bool.or_assoc, ← Bool.decide_or]
    congr 2
    simp only [mem_frameRange, eq_iff_iff]
    omega

theorem allocContiguousBlocks_cases (p : Pmm) (count : Word) :
    p.allocContiguousBlocks count = (p, 0) ∨ ∃ start q,
      p.allocContiguousBlocks count = (q, frameAddr start) ∧ start + count.toNat ≤ p.maxBlocks ∧
      q.maxBlocks = p.maxBlocks ∧ (∀ f ∈ frameRange start count.toNat, p.mmapTest f = false) ∧
      ∀ g, q.mmapTest g = (p.mmapTest g || decide (g ∈ frameRange start count.toNat)) := by
  rw [allocContiguousBlocks]
  split
  · exact .inl rfl
  · next hz =>
    split
    · exact .inl rfl
    · cases hr : p.findRun count.toNat p.maxBlocks 0 0 0 with
      | none => exact .inl rfl
      | some start =>
        have hpos : 0 < count.toNat := by
          refine Nat.pos_of_ne_zero fun h => hz (eq_of_toNat_eq ?_)
          simpa using h
        obtain ⟨hle, hclear⟩ := findRun_some hpos (by omega) (by omega) hr
        obtain ⟨hmax, htest⟩ := foldl_mmapSet p start count.toNat
        refine .inr ⟨start, _, rfl, by omega, hmax, fun f hf => ?_, htest⟩
        rw [mem_frameRange] at hf
        rw [show f = start + (f - start) by omega]
        exact hclear _ (by omega)

theorem mmapTest_frames (step : Pmm → ℕ → Pmm) (op : Bool → Bool → Bool)
    (hstep : ∀ q f, (step q f).mmapTest g = op (q.mmapTest g) (decide (g = f))) (hnone : ∀ x, op x false = x)
    (hor : ∀ x y z, op (op x y) z = op x (y || z)) (p : Pmm) (start n : ℕ) :
    ((range n).foldl (fun q k => step q (start + k)) p).mmapTest g = op (p.mmapTest g) (decide (g ∈ frameRange start n)) := by
  induction n with
  | zero => exact (hnone _).symm
  | succ n ih =>
    rw [range_succ, foldl_append, foldl_cons, foldl_nil, hstep, ih, hor, ← Bool.decide_or]
    congr 1
    simp only [mem_frameRange]
    exact decide_eq_decide.mpr (by omega)

theorem mmapTest_given (q : Pmm) (f : ℕ) :
    (if q.mmapTest f then { q.mmapUnset f with usedBlocks := q.usedBlocks - 1 } else q).mmapTest g =
      (q.mmapTest g && !decide (g = f)) := by
  split
  · exact mmapTest_mmapUnset
  · next ht =>
    by_cases hg : g = f
    · subst hg
      simp [Bool.not_eq_true _ ▸ ht]
    · simp [hg]

theorem mmapTest_freeContiguousBlocks (p : Pmm) (addr count : Word) :
    (p.freeContiguousBlocks addr count).mmapTest g =
      (p.mmapTest g && !decide (g ∈ frameRange (frameOf addr) count.toNat)) :=
  mmapTest_frames (fun q f => if q.mmapTest f then { q.mmapUnset f with usedBlocks := q.usedBlocks - 1 } else q)
    (fun x y => x && !y) mmapTest_given (by decide) (by decide) p (frameOf addr) count.toNat

/-- The frames below `n` are in use and the others are not. -/
def Filled (p : Pmm) (n : Nat) : Prop := ∀ f < p.maxBlocks, p.mmapTest f = decide (f < n)

theorem mmapFirstFree_first (h : p.mmapFirstFree = some f) (hg : g < f) : p.mmapTest g = true := by
  obtain ⟨i, hi, hw, hmin⟩ := findSome?_range h
  split_ifs at hw
  obtain ⟨j, hj, hb, hminj⟩ := findSome?_range hw
  split_ifs at hb
  cases hb
  have hmod : g % 32 < 32 := Nat.mod_lt _ (by omega)
  rw [mmapTest]
  by_cases hgi : g / 32 < i
  · have hfull := hmin _ hgi
    by_cases hne : p.bitmap (g / 32) = 0xFFFFFFFF
    · rw [hne, show (0xFFFFFFFF : Word) = allOnes 32 from rfl, allOnes_and, bne_iff_ne]
      intro h0
      have := congrArg (getLsbD · (g % 32)) h0
      simp [hmod] at this
    · rw [if_pos (by simpa using hne), findSome?_eq_none_iff] at hfull
      have := hfull (g % 32) (mem_range.mpr hmod)
      split_ifs at this with hz
      simpa [bne] using hz
  · have hlast := hminj (g % 32) (by omega)
    rw [show g / 32 = i by omega]
    split_ifs at hlast with hz
    simpa [bne] using hz

theorem Filled.allocBlock (h : p.Filled n) : ∃ m, n ≤ m ∧ p.allocBlock.1.Filled m := by
  rcases p.allocBlock_cases with ha | ⟨f, hf, -, hg⟩
  · exact ⟨n, le_rfl, by rwa [ha]⟩
  have hfree := mmapFirstFree_some hf
  have hfn : f = n := by
    have hfm : f < p.maxBlocks := by
      have := hfree.1
      omega
    have hge : ¬ f < n := by simpa [hfree.2] using (h f hfm).symm
    by_contra hne
    have hn := h n (by omega)
    rw [mmapFirstFree_first hf (by omega)] at hn
    simp at hn
  refine ⟨n + 1, Nat.le_succ n, fun x hx => ?_⟩
  rw [hg.maxBlocks] at hx
  rw [hg.mmapTest, h x hx, hfn, Bool.eq_iff_iff]
  simp
  omega

theorem Filled.findRun (h : p.Filled n) (hs : c = 0 ∧ i ≤ n ∨ 0 < c ∧ start = n ∧ n + c = i) (hc : c < k)
    (hk : n + k ≤ i + m) (hm : i + m ≤ p.maxBlocks) : p.findRun k m i c start = some n := by
  induction m generalizing i c start with
  | zero => omega
  | succ m ih =>
    rw [Pmm.findRun, h i (by omega)]
    by_cases hi : i < n
    · rw [if_pos (by simpa using hi)]
      exact ih (by omega) (by omega) (by omega) (by omega)
    · rw [if_neg (by simpa using hi)]
      simp only
      have hstart : (if c = 0 then i else start) = n := by
        split <;> omega
      rw [hstart]
      split
      · rfl
      · exact ih (by omega) (by omega) (by omega) (by omega)

theorem Filled.allocContiguousBlocks (h : p.Filled n) (hk : n + count.toNat ≤ 32 * (p.maxBlocks / 32))
    (hz : count ≠ 0) (hc : count.toNat ≤ p.freeBlockCount.toNat) :
    ∃ q, p.allocContiguousBlocks count = (q, frameAddr n) ∧ Grows p q (frameRange n count.toNat) := by
  have hpos : 0 < count.toNat := by
    refine Nat.pos_of_ne_zero fun h => hz (BitVec.eq_of_toNat_eq ?_)
    simpa using h
  have hclear : ∀ f ∈ frameRange n count.toNat, p.Free f := fun f hf => by
    rw [mem_frameRange] at hf
    refine ⟨by omega, ?_⟩
    rw [h f (by omega)]
    simp only [decide_eq_false_iff_not]
    omega
  rw [Pmm.allocContiguousBlocks, if_neg hz, if_neg (by rw [BitVec.lt_def]; omega),
    h.findRun (.inl ⟨rfl, Nat.zero_le n⟩) hpos (by omega) (by omega)]
  obtain ⟨hmax, htest⟩ := foldl_mmapSet p n count.toNat
  refine ⟨_, rfl, frameRange_nodup, hclear, hmax, htest, ?_⟩
  rw [frameRange, length_map, length_range, BitVec.ofNat_toNat, BitVec.setWidth_eq]

end Pmm
end RetroOs.Kernel
