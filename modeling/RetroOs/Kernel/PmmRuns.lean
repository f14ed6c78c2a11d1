import RetroOs.Kernel.PmmRegions
import RetroOs.Lib.Runs

/-! Runs of the frame allocator from `pmm_init` on, with any memory size and any old content of the bitmap: what the
counter counts, what an allocation marks and when it gives null. -/
namespace RetroOs.Kernel
open Lib

inductive PmmCall where
  | markUsed (base size : Word)
  | markFree (base size : Word)
  | alloc
  | allocContiguous (count : Word)
  | free (addr : Word)
  | freeContiguous (addr count : Word)

namespace Pmm

def exec (p : Pmm) : PmmCall → Pmm
  | .markUsed base size => p.markRegionUsed base size
  | .markFree base size => p.markRegionFree base size
  | .alloc => p.allocBlock.1
  | .allocContiguous count => (p.allocContiguousBlocks count).1
  | .free addr => p.freeBlock addr
  | .freeContiguous addr count => p.freeContiguousBlocks addr count

def named : PmmCall → List ℕ
  | .markUsed base size => frameRange (frameOf base) (regionBlocks size)
  | .markFree base size => frameRange (frameOf base) (regionBlocks size)
  | .alloc => []
  | .allocContiguous _ => []
  | .free addr => frameRange (frameOf addr) 1
  | .freeContiguous addr count => frameRange (frameOf addr) count.toNat

def Proper (p : Pmm) (e : PmmCall) : Prop := ∀ f ∈ named e, f < p.maxBlocks

instance (p : Pmm) (e : PmmCall) : Decidable (p.Proper e) := inferInstanceAs (Decidable (∀ _ ∈ _, _))

/-- The bits of the frames that a `memset` of whole bytes does not reach are clear in the old content. -/
def CleanTail (memSize : Word) (bitmap : ℕ → Word) : Prop :=
  ∀ f, memSize.toNat / 4096 / 8 * 8 ≤ f → f < memSize.toNat / 4096 → (bitmap (f / 32)).getLsbD (f % 32) = false

/-- Frames that were free are marked, and no others. -/
def Marks (p q : Pmm) (fs : List ℕ) : Prop :=
  (∀ f ∈ fs, p.mmapTest f = false) ∧ ∀ g, q.mmapTest g = (p.mmapTest g || decide (g ∈ fs))

/-- An allocation gives null and does nothing, or the address of `count` frames below `maxBlocks` that it marks. -/
def Gives (p : Pmm) (result : Pmm × Word) (count : ℕ) : Prop :=
  result = (p, 0) ∨ result.2 ≠ 0 ∧ ∃ start, result.2 = frameAddr start ∧ start + count ≤ p.maxBlocks ∧
    Marks p result.1 (frameRange start count)

/-- `count` free frames in a row. -/
def HasRun (p : Pmm) (count : ℕ) : Prop := ∃ start, start + count ≤ p.maxBlocks ∧ ∀ f ∈ frameRange start count, p.mmapTest f = false

/-- What a call is to do to the bits, and what an allocation is to give. -/
def Correct (p : Pmm) : PmmCall → Prop
  | .markUsed base size => ∀ g, (p.markRegionUsed base size).mmapTest g =
      (p.mmapTest g || decide (g ∈ frameRange (frameOf base) (regionBlocks size)))
  | .markFree base size => ∀ g, (p.markRegionFree base size).mmapTest g =
      (p.mmapTest g && !decide (g ∈ frameRange (frameOf base) (regionBlocks size)))
  | .alloc => p.Gives p.allocBlock 1
  | .allocContiguous count => p.Gives (p.allocContiguousBlocks count) count.toNat ∧
      (0 < count.toNat → ((p.allocContiguousBlocks count).2 = 0 ↔ ¬ p.HasRun count.toNat))
  | .free addr => ∀ g, (p.freeBlock addr).mmapTest g = (p.mmapTest g && !decide (g = frameOf addr))
  | .freeContiguous addr count => ∀ g, (p.freeContiguousBlocks addr count).mmapTest g =
      (p.mmapTest g && !decide (g ∈ frameRange (frameOf addr) count.toNat))

/-- An allocation does not take frame 0, whose address is null. -/
def SparesNull (p : Pmm) : PmmCall → Prop
  | .alloc => ¬ (32 ≤ p.maxBlocks ∧ p.mmapTest 0 = false)
  | .allocContiguous count => ¬ (0 < count.toNat ∧ count.toNat ≤ p.maxBlocks ∧ ∀ f < count.toNat, p.mmapTest f = false)
  | _ => True

variable {p q : Pmm} {f g k n i m c start d : ℕ} {count memSize : Word} {e : PmmCall} {es : List PmmCall} {bitmap : ℕ → Word}

theorem Grows.takes {fs : List ℕ} (h : Grows p q fs) : Takes p q fs :=
  ⟨h.nodup, fun f hf => by
    have := (h.free f hf).1
    omega, fun f hf => (h.free f hf).2, h.maxBlocks, h.mmapTest, h.usedBlocks⟩

private theorem allocContiguousBlocks_takes (p : Pmm) (count : Word) :
    p.allocContiguousBlocks count = (p, 0) ∧ (count = 0 ∨ p.freeBlockCount < count ∨
        p.findRun count.toNat p.maxBlocks 0 0 0 = none) ∨ ∃ start, (p.allocContiguousBlocks count).2 = frameAddr start ∧
      start + count.toNat ≤ p.maxBlocks ∧ 0 < count.toNat ∧ p.findRun count.toNat p.maxBlocks 0 0 0 = some start ∧
      Takes p (p.allocContiguousBlocks count).1 (frameRange start count.toNat) := by
  rw [allocContiguousBlocks]
  split_ifs with hz hc
  · exact .inl ⟨rfl, .inl hz⟩
  · exact .inl ⟨rfl, .inr (.inl hc)⟩
  · cases hr : p.findRun count.toNat p.maxBlocks 0 0 0 with
    | none => exact .inl ⟨rfl, .inr (.inr rfl)⟩
    | some start =>
      have hpos : 0 < count.toNat := by
        refine Nat.pos_of_ne_zero fun h => hz (BitVec.eq_of_toNat_eq ?_)
        simpa using h
      obtain ⟨hle, hclear⟩ := findRun_some hpos (by omega) (by omega) hr
      obtain ⟨hmax, htest⟩ := foldl_mmapSet p start count.toNat
      refine .inr ⟨start, rfl, by omega, hpos, rfl, frameRange_nodup, fun f hf => ?_, fun f hf => ?_, hmax, htest, ?_⟩
      · rw [mem_frameRange] at hf
        omega
      · rw [mem_frameRange] at hf
        rw [show f = start + (f - start) by omega]
        exact hclear _ (by omega)
      · rw [length_frameRange, BitVec.ofNat_toNat, BitVec.setWidth_eq]

private theorem exec_keeps (hp : p.Proper e) (hd : p.Drift d) : (p.exec e).maxBlocks = p.maxBlocks ∧ (p.exec e).Drift d := by
  cases e with
  | markUsed base size =>
    obtain ⟨fs, h⟩ : ∃ fs, Takes p (p.markRegionUsed base size) fs := takeFrames_takes hp
    exact ⟨h.maxBlocks, h.drift hd⟩
  | markFree base size => exact giveFrames_keeps hp hd
  | alloc =>
    rw [exec]
    rcases p.allocBlock_cases with h | ⟨f, -, -, h⟩
    · rw [h]
      exact ⟨rfl, hd⟩
    · exact ⟨h.maxBlocks, h.takes.drift hd⟩
  | allocContiguous count =>
    rw [exec]
    rcases p.allocContiguousBlocks_takes count with ⟨h, -⟩ | ⟨start, -, -, -, -, h⟩
    · rw [h]
      exact ⟨rfl, hd⟩
    · exact ⟨h.maxBlocks, h.drift hd⟩
  | free addr =>
    have hlt : frameOf addr < p.maxBlocks := hp _ (by rw [named, mem_frameRange]; omega)
    exact ⟨giveFrame_maxBlocks, giveFrame_drift hlt hd⟩
  | freeContiguous addr count => exact giveFrames_keeps hp hd

private theorem findRun_none (hc : c < n) (h : p.findRun n m i c start = none) {s : ℕ} (hs : i ≤ s + c) (hle : s + n ≤ i + m) :
    ∃ k < n, p.mmapTest (s + k) = true := by
  induction m generalizing i c start with
  | zero => omega
  | succ m ih =>
    rw [findRun] at h
    by_cases ht : p.mmapTest i = true
    · by_cases hsi : s ≤ i
      · exact ⟨i - s, by omega, by rwa [show s + (i - s) = i by omega]⟩
      · rw [if_pos ht] at h
        exact ih (by omega) h (by omega) (by omega)
    · rw [if_neg ht] at h
      split_ifs at h with h0 hn hn
      · exact ih (by omega) h (by omega) (by omega)
      · exact ih (by omega) h (by omega) (by omega)

private theorem findRun_zero (hc : c < n) (hle : n ≤ c + m) (hclear : ∀ k < n, p.mmapTest k = false) :
    p.findRun n m c c 0 = some 0 := by
  induction m generalizing c with
  | zero => omega
  | succ m ih =>
    have hstart : (if c = 0 then c else 0) = 0 := by
      split <;> omega
    rw [findRun, hclear c hc, if_neg Bool.false_ne_true]
    simp only
    rw [hstart]
    split_ifs with hn
    · rfl
    · exact ih (by omega) (by omega)

theorem frameAddr_eq_zero (hf : f < 2 ^ 20) : frameAddr f = 0 ↔ f = 0 := by
  constructor
  · intro h
    rw [← frameOf_frameAddr hf, h]
    rfl
  · rintro rfl
    rfl

theorem HasRun.le_freeBlockCount (h : p.HasRun n) (hd : p.Drift d) (hlt : d < 2 ^ 20) : n ≤ p.freeBlockCount.toNat := by
  obtain ⟨start, hle, hclear⟩ := h
  have hfit := census_add_le (P := p.mmapTest) hle fun j hj => hclear (start + j) (mem_frameRange.mpr (by omega))
  rw [hd.freeBlockCount hlt]
  omega

private theorem allocContiguousBlocks_outcome (hd : p.Drift d) (hlt : d < 2 ^ 20) (hz : 0 < count.toNat) :
    p.allocContiguousBlocks count = (p, 0) ∧ ¬ p.HasRun count.toNat ∨
      p.HasRun count.toNat ∧ ∃ start, (p.allocContiguousBlocks count).2 = frameAddr start ∧ start + count.toNat ≤ p.maxBlocks ∧
        (start = 0 ↔ count.toNat ≤ p.maxBlocks ∧ ∀ f < count.toNat, p.mmapTest f = false) ∧
        Takes p (p.allocContiguousBlocks count).1 (frameRange start count.toNat) := by
  rcases p.allocContiguousBlocks_takes count with ⟨h, hwhy⟩ | ⟨start, haddr, hle, -, hfind, h⟩
  · refine .inl ⟨h, fun hrun => ?_⟩
    have hcount := hrun.le_freeBlockCount hd hlt
    obtain ⟨s, hs, hclear⟩ := hrun
    rcases hwhy with rfl | hfew | hnone
    · exact absurd hz (by decide)
    · rw [BitVec.lt_def] at hfew
      omega
    · obtain ⟨k, hk, hset⟩ := findRun_none hz hnone (s := s) (by omega) (by omega)
      rw [hclear (s + k) (mem_frameRange.mpr (by omega))] at hset
      cases hset
  · refine .inr ⟨⟨start, hle, h.clear⟩, start, haddr, hle, ⟨fun h0 => ?_, fun hall => ?_⟩, h⟩
    · rw [h0] at hle h
      exact ⟨by omega, fun f hf => h.clear f (mem_frameRange.mpr (by omega))⟩
    · rw [findRun_zero hz (by omega) hall.2] at hfind
      exact (Option.some.inj hfind).symm

private theorem allocBlock_outcome (hd : p.Drift d) (hlt : d < 2 ^ 20) :
    p.allocBlock = (p, 0) ∧ (∀ f < 32 * (p.maxBlocks / 32), p.mmapTest f = true) ∨
      ∃ f, p.allocBlock.2 = frameAddr f ∧ p.Free f ∧ (f = 0 ↔ p.mmapTest 0 = false) ∧ Takes p p.allocBlock.1 [f] := by
  cases hm : p.mmapFirstFree with
  | none =>
    refine .inl ⟨?_, fun f hf => ?_⟩
    · rw [allocBlock, hm]
      simp only [ite_self]
    · by_contra hclear
      exact mmapFirstFree_none hm ⟨hf, eq_false_of_ne_true hclear⟩
  | some f =>
    have hfree := mmapFirstFree_some hm
    have hcount : p.freeBlockCount ≠ 0 := by
      have hrun : p.HasRun 1 := ⟨f, by have := hfree.1; omega, fun g hg => by
        rw [mem_frameRange] at hg
        rw [show g = f by omega]
        exact hfree.2⟩
      have hle := hrun.le_freeBlockCount hd hlt
      rintro h0
      rw [h0] at hle
      exact absurd hle (by decide)
    rcases p.allocBlock_cases with h | ⟨g, hg, haddr, h⟩
    · rw [allocBlock, if_neg hcount, hm] at h
      have hset : (p.mmapSet f).mmapTest f = p.mmapTest f := congrArg (fun r : Pmm × Word => r.1.mmapTest f) h
      rw [mmapTest_mmapSet, hfree.2, decide_eq_true rfl] at hset
      cases hset
    · cases hm.symm.trans hg
      refine .inr ⟨f, haddr, hfree, ⟨fun h0 => h0 ▸ hfree.2, fun hzero => ?_⟩, h.takes⟩
      by_contra hne
      rw [mmapFirstFree_first hm (Nat.pos_of_ne_zero hne)] at hzero
      cases hzero

theorem not_gives_of_null {result : Pmm × Word} (hnull : result.2 = 0) (hset : result.1.mmapTest f = true)
    (hclear : p.mmapTest f = false) : ¬ p.Gives result n := by
  rintro (h | ⟨hne, -⟩)
  · rw [h, hclear] at hset
    cases hset
  · exact hne hnull

theorem Takes.marks {fs : List ℕ} (h : Takes p q fs) : Marks p q fs := ⟨h.clear, h.mmapTest⟩

private theorem alloc_correct_iff (hd : p.Drift d) (hlt : d < 2 ^ 20) : p.Correct .alloc ↔ p.SparesNull .alloc := by
  have hmax := p.max_lt
  rw [Correct, SparesNull]
  rcases allocBlock_outcome hd hlt with ⟨h, hfull⟩ | ⟨f, haddr, hfree, hzero, h⟩
  · refine iff_of_true (.inl h) fun hn => ?_
    have hused := hfull 0 (by omega)
    rw [hn.2] at hused
    cases hused
  · have hf := hfree.1
    have hnull := frameAddr_eq_zero (f := f) (by omega)
    constructor
    · rintro hg ⟨hword, hclear⟩
      have h0 := hzero.mpr hclear
      refine not_gives_of_null (f := f) (by rw [haddr, hnull.mpr h0]) ?_ hfree.2 hg
      rw [h.mmapTest, decide_eq_true List.mem_cons_self, Bool.or_true]
    · intro hn
      have hne : f ≠ 0 := fun h0 => hn ⟨by omega, hzero.mp h0⟩
      refine .inr ⟨by rwa [haddr, Ne, hnull], f, haddr, by omega, ?_⟩
      exact h.marks

private theorem allocContiguous_correct_iff (hd : p.Drift d) (hlt : d < 2 ^ 20) :
    p.Correct (.allocContiguous count) ↔ p.SparesNull (.allocContiguous count) := by
  have hmax := p.max_lt
  rw [Correct, SparesNull]
  by_cases hz : 0 < count.toNat
  · rcases allocContiguousBlocks_outcome hd hlt hz with ⟨h, hrun⟩ | ⟨hrun, start, haddr, hle, hzero, h⟩
    · refine iff_of_true ⟨.inl h, fun _ => iff_of_true (by rw [h]) hrun⟩ fun hn => hrun ?_
      exact ⟨0, by omega, fun f hf => hn.2.2 f (by rw [mem_frameRange] at hf; omega)⟩
    · have hnull := frameAddr_eq_zero (f := start) (by omega)
      have hmem : start ∈ frameRange start count.toNat := mem_frameRange.mpr (by omega)
      constructor
      · rintro ⟨hg, -⟩ ⟨-, hall⟩
        refine not_gives_of_null (f := start) (by rw [haddr, hnull.mpr (hzero.mpr hall)]) ?_ (h.clear start hmem) hg
        rw [h.mmapTest, decide_eq_true hmem, Bool.or_true]
      · intro hn
        have hne : start ≠ 0 := fun h0 => hn ⟨hz, hzero.mp h0⟩
        have haddr' : (p.allocContiguousBlocks count).2 ≠ 0 := by rwa [haddr, Ne, hnull]
        exact ⟨.inr ⟨haddr', start, haddr, hle, h.marks⟩, fun _ => iff_of_false haddr' (not_not.mpr hrun)⟩
  · have hcount : count = 0 := BitVec.eq_of_toNat_eq (by simpa using hz)
    refine iff_of_true ⟨.inl ?_, fun h => absurd h hz⟩ fun h => hz h.1
    rw [allocContiguousBlocks, if_pos hcount]

private theorem correct_iff (hd : p.Drift d) (hlt : d < 2 ^ 20) (e : PmmCall) : p.Correct e ↔ p.SparesNull e := by
  cases e with
  | markUsed base size => exact iff_of_true (fun g => takeFrames_mmapTest ..) trivial
  | markFree base size => exact iff_of_true (fun g => giveFrames_mmapTest ..) trivial
  | alloc => exact alloc_correct_iff hd hlt
  | allocContiguous count => exact allocContiguous_correct_iff hd hlt
  | free addr => exact iff_of_true (fun g => mmapTest_freeBlock addr) trivial
  | freeContiguous addr count => exact iff_of_true (fun g => mmapTest_freeContiguousBlocks ..) trivial

private theorem run_keeps (hrun : Along exec Proper p es) (hd : p.Drift d) :
    (es.foldl exec p).maxBlocks = p.maxBlocks ∧ (es.foldl exec p).Drift d := by
  refine hrun.relates (R := fun p q => p.Drift d → q.maxBlocks = p.maxBlocks ∧ q.Drift d) (fun _ h => ⟨rfl, h⟩)
    (fun hpq hqr h => ?_) (fun _ _ hp h => exec_keeps hp h) hd
  obtain ⟨hmax, hq⟩ := hpq h
  obtain ⟨hmax', hr⟩ := hqr hq
  exact ⟨hmax'.trans hmax, hr⟩

private theorem init_drift (memSize : Word) (bitmap : ℕ → Word) :
    (init memSize bitmap).Drift (census (init memSize bitmap).mmapTest (memSize.toNat / 4096)) :=
  BitVec.zero_add _

private theorem init_drift_lt : census (init memSize bitmap).mmapTest (memSize.toNat / 4096) < 2 ^ 20 := by
  have hle := census_le (init memSize bitmap).mmapTest (memSize.toNat / 4096)
  omega

private theorem cleanTail_iff : CleanTail memSize bitmap ↔ ∀ f < memSize.toNat / 4096, (init memSize bitmap).mmapTest f = false := by
  constructor
  · intro h f hf
    rw [mmapTest_init]
    by_cases hb : f < memSize.toNat / 4096 / 8 * 8
    · rw [decide_eq_true hb, Bool.not_true, Bool.and_false]
    · rw [h f (by omega) hf, Bool.false_and]
  · intro h f hle hf
    have hclear := h f hf
    rwa [mmapTest_init, decide_eq_false (by omega), Bool.not_false, Bool.and_true] at hclear

/-- In every state that is reached, the counter counts the set bits of the frames if `pmm_init` met no set bit behind its last
whole byte, and only then; and each call does what it is to do if it does not take frame 0, and only then. -/
theorem pmm_runs (hrun : Along exec Proper (init memSize bitmap) es) :
    let p := es.foldl exec (init memSize bitmap)
    (p.Accounts ↔ CleanTail memSize bitmap) ∧ ∀ e, p.Correct e ↔ p.SparesNull e := by
  intro p
  have hd : p.Drift _ := (run_keeps hrun (init_drift memSize bitmap)).2
  have hlt : census (init memSize bitmap).mmapTest (memSize.toNat / 4096) < 2 ^ 20 := init_drift_lt
  refine ⟨?_, correct_iff hd hlt⟩
  rw [hd.accounts_zero_iff (hlt.trans (by decide)), census_eq_zero, cleanTail_iff]

theorem nineFrames_counted :
    let p := [PmmCall.markUsed 0 0x2001, .alloc, .free 0x1000].foldl exec (init 0x9000 fun _ => 0xFFFFFFFF)
    (p.Accounts ↔ CleanTail 0x9000 fun _ => 0xFFFFFFFF) ∧ ∀ e, p.Correct e ↔ p.SparesNull e :=
  pmm_runs (by decide +kernel)

/-- The byte with the bit of frame 8 is not cleared, and the counter starts at 0 all the same; and the first page of a machine
with 32 frames is handed out as null. -/
theorem pmm_miscounts : (¬ ∀ memSize bitmap es, Along exec Proper (init memSize bitmap) es →
      (es.foldl exec (init memSize bitmap)).Accounts) ∧
    ¬ ∀ memSize bitmap es, Along exec Proper (init memSize bitmap) es → ∀ e,
      (es.foldl exec (init memSize bitmap)).Proper e → (es.foldl exec (init memSize bitmap)).Correct e := by
  constructor
  · intro h
    have hcount : (0 : Word) = BitVec.ofNat 32 (census (init 0x9000 fun _ => 0xFFFFFFFF).mmapTest 9) :=
      h 0x9000 (fun _ => 0xFFFFFFFF) [] trivial
    exact absurd hcount (by decide +kernel)
  · intro h
    obtain ⟨hgives, -⟩ := h 0x20000 (fun _ => 0) [] trivial (.allocContiguous 1) (by decide)
    refine not_gives_of_null (f := 0) ?_ ?_ ?_ hgives
    · decide +kernel
    · decide +kernel
    · decide +kernel

/-- In every state that is reached, a single allocation gives null exactly where no frame is free, if no frame is free or
frame 0 is in use and a frame in a whole word of the bitmap is free, and only then. All frames are free at first if the
bitmap held no set bit behind the last whole byte, and only then. -/
theorem allocBlock_null_runs (hrun : Along exec Proper (init memSize bitmap) es) :
    let p := es.foldl exec (init memSize bitmap)
    ((p.allocBlock.2 = 0 ↔ ∀ f < p.maxBlocks, p.mmapTest f = true) ↔
      (∀ f < p.maxBlocks, p.mmapTest f = true) ∨
        p.mmapTest 0 = true ∧ ∃ f < 32 * (p.maxBlocks / 32), p.mmapTest f = false) ∧
    ((∀ f < (init memSize bitmap).maxBlocks, (init memSize bitmap).mmapTest f = false) ↔ CleanTail memSize bitmap) := by
  intro p
  have hd : p.Drift _ := (run_keeps hrun (init_drift memSize bitmap)).2
  have hmax := p.max_lt
  refine ⟨?_, cleanTail_iff.symm⟩
  rcases allocBlock_outcome hd init_drift_lt with ⟨h, hfull⟩ | ⟨f, haddr, hfree, hzero, h⟩
  · -- No whole word has a free frame.
    have hnone : ¬ ∃ f < 32 * (p.maxBlocks / 32), p.mmapTest f = false := by
      rintro ⟨f, hf, hclear⟩
      rw [hfull f hf] at hclear
      cases hclear
    rw [h]
    constructor
    · exact fun hiff => .inl (hiff.mp rfl)
    · exact fun hcond => iff_of_true rfl (hcond.resolve_right fun hright => hnone hright.2)
  · have hf := hfree.1
    have hnull := frameAddr_eq_zero (f := f) (by omega)
    have hsome : ¬ ∀ f < p.maxBlocks, p.mmapTest f = true := fun hall => by
      have hused := hall f (by omega)
      rw [hfree.2] at hused
      cases hused
    rw [haddr, hnull, hzero]
    constructor
    · intro hiff
      refine .inr ⟨eq_true_of_ne_false fun hclear => hsome (hiff.mp hclear), f, hf, hfree.2⟩
    · rintro (hall | ⟨hused, -⟩)
      · exact absurd hall hsome
      · exact iff_of_false (fun hclear => Bool.false_ne_true (hclear.symm.trans hused)) hsome

theorem nineFrames_null :
    let p := [PmmCall.markUsed 0 0x8000].foldl exec (init 0x9000 fun _ => 0)
    ((p.allocBlock.2 = 0 ↔ ∀ f < p.maxBlocks, p.mmapTest f = true) ↔
      (∀ f < p.maxBlocks, p.mmapTest f = true) ∨
        p.mmapTest 0 = true ∧ ∃ f < 32 * (p.maxBlocks / 32), p.mmapTest f = false) ∧
    ((∀ f < (init 0x9000 fun _ => 0).maxBlocks, (init 0x9000 fun _ => 0).mmapTest f = false) ↔ CleanTail 0x9000 fun _ => 0) :=
  allocBlock_null_runs (by decide +kernel)

/-- Of 33 frames the last is free, and null is given. -/
theorem allocBlock_misses_last : ¬ ∀ memSize bitmap es, Along exec Proper (init memSize bitmap) es →
    let p := es.foldl exec (init memSize bitmap)
    (p.allocBlock.2 = 0 ↔ ∀ f < p.maxBlocks, p.mmapTest f = true) := by
  intro h
  have hiff := h 0x21000 (fun _ => 0) [.markUsed 0 0x20000] (by decide +kernel)
  have hused := hiff.mp (by decide +kernel) 32 (by decide +kernel)
  exact absurd hused (by decide +kernel)

end Pmm
end RetroOs.Kernel
