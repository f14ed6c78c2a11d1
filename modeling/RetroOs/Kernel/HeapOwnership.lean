import Mathlib.Data.List.Pairwise
import Mathlib.Tactic.IntervalCases
import RetroOs.Kernel.HeapBooks

/-! The invariant of the books: blocks in use and free ones do not meet, every allocation owns the
object or block it was taken from, and no two own the same. -/
namespace RetroOs.Kernel
open Lib Block Slab

inductive LeaseOk (P : Pool) (slabs : List Slab) : Lease → Prop where
  | object {s : Slab} {index size : Nat} (hs : s ∈ slabs) (hi : index < capacity s.cache)
      (hf : index ∉ s.free) (hz : size ≤ objectSize s.cache) : LeaseOk P slabs (objectLease P s index size)
  | block {addr size : Nat} {align : Int} (hz : 0 < size) : LeaseOk P slabs (blockLease P addr size align)

structure Books.Ok (P : Pool) (B : Books) : Prop where
  tiling : Tiling P (B.held ++ B.free)
  cache_lt : ∀ s ∈ B.slabs, s.cache < 7
  index_lt : ∀ s ∈ B.slabs, ∀ i ∈ s.free, i < capacity s.cache
  nodup : ∀ s ∈ B.slabs, s.free.Nodup
  leases : ∀ a ∈ B.live, LeaseOk P B.slabs a
  origins : (B.live.map Lease.origin).Nodup

variable {P : Pool} {B : Books} {s t : Slab} {slabs : List Slab} {a b : Lease} {live : List Lease}
  {addr cache i index r n x size : Nat} {align : Int} {f : List Nat → List Nat} {c : Block} {e : HeapEvent}

variable (size align) in
theorem requiredSize_room : dataOffset align + size ≤ requiredSize size align := by
  simp only [dataOffset, requiredSize]
  split <;> omega

variable (size align) in
theorem dataOffset_le_block : dataOffset align ≤ 2 ^ blockOrder (requiredSize size align) :=
  ((Nat.le_add_right _ _).trans (requiredSize_room _ _)).trans (size_le_blockOrder _)

theorem capacity_pos (h : cache < 7) : 0 < capacity cache := by
  interval_cases cache <;> decide

theorem mem_updateFree (h : s ∈ updateFree slabs addr f) :
    (s ∈ slabs ∧ s.addr ≠ addr) ∨ ∃ t ∈ slabs, t.addr = addr ∧ s = { t with free := f t.free } := by
  obtain ⟨t, ht, rfl⟩ := List.mem_map.mp h
  split
  · next he => exact .inr ⟨t, ht, he, rfl⟩
  · next he => exact .inl ⟨ht, he⟩

private theorem updateFree_block : (updateFree slabs addr f).map block = slabs.map block := by
  rw [updateFree, List.map_map]
  apply List.map_congr_left
  intro s _
  simp only [Function.comp_apply]
  split <;> rfl

theorem LeaseOk.update (h : LeaseOk P slabs a)
    (hf : ∀ s ∈ slabs, s.addr = addr → ∀ i, a.origin = .object addr i → i ∉ s.free → i ∉ f s.free) :
    LeaseOk P (updateFree slabs addr f) a := by
  cases h with
  | @object s index size hs hi hn hz =>
    have hm := List.mem_map_of_mem (f := fun t : Slab => if t.addr = addr then { t with free := f t.free } else t) hs
    by_cases he : s.addr = addr
    · rw [if_pos he] at hm
      refine LeaseOk.object (s := { s with free := f s.free }) hm hi ?_ hz
      exact hf s hs he index (by rw [← he]; rfl) hn
    · rw [if_neg he] at hm
      exact .object hm hi hn hz
  | block hz => exact .block hz

theorem LeaseOk.mono (h : LeaseOk P slabs a) : LeaseOk P (s :: slabs) a := by
  cases h with
  | object hs hi hn hz => exact .object (.tail _ hs) hi hn hz
  | block hz => exact .block hz

namespace Books.Ok

theorem slab_mem (hs : s ∈ B.slabs) : s.block ∈ B.held :=
  List.mem_append_left _ (List.mem_map_of_mem hs)

theorem lease_mem (ha : a ∈ B.live) (hc : a.origin.block? = some c) : c ∈ B.held :=
  List.mem_append_right _ (List.mem_filterMap.mpr ⟨a, ha, hc⟩)

theorem held_pairwise (h : B.Ok P) : B.held.Pairwise Disjoint :=
  (List.pairwise_append.mp (pairwise_disjoint h.tiling.disjoint)).1

theorem held_free (h : B.Ok P) (hc : c ∈ B.held) {d : Block} (hd : d ∈ B.free) : c.Disjoint d :=
  (List.pairwise_append.mp (pairwise_disjoint h.tiling.disjoint)).2.2 c hc d hd

theorem slab_good (h : B.Ok P) (hs : s ∈ B.slabs) : GoodBlock P s.block :=
  h.tiling.good _ (List.mem_append_left _ (slab_mem hs))

private theorem slabs_disjoint (h : B.Ok P) (hs : s ∈ B.slabs) (ht : t ∈ B.slabs) (hne : s ≠ t) :
    s.block.Disjoint t.block := by
  have hsymm : Std.Symm fun s t : Slab => s.block.Disjoint t.block := ⟨fun _ _ h x hx hy => h x hy hx⟩
  exact (List.pairwise_map.mp (List.pairwise_append.mp h.held_pairwise).1).forall hs ht hne

theorem slab_unique (h : B.Ok P) (hs : s ∈ B.slabs) (ht : t ∈ B.slabs) (ha : s.addr = t.addr) : s = t := by
  by_contra hne
  exact h.slabs_disjoint hs ht hne s.addr (covers_addr s.block) (ha ▸ covers_addr t.block)

theorem slabs_apart (h : B.Ok P) (hs : s ∈ B.slabs) (ht : t ∈ B.slabs) (hne : s ≠ t) :
    s.addr + 16384 ≤ t.addr ∨ t.addr + 16384 ≤ s.addr := by
  have hd := h.slabs_disjoint hs ht hne (max s.addr t.addr)
  simp only [Covers, block, slabOrder] at hd
  omega

theorem slab_block_apart (h : B.Ok P) (hs : s ∈ B.slabs) (ha : a ∈ B.live)
    (hc : a.origin.block? = some c) : s.block.Disjoint c :=
  (List.pairwise_append.mp h.held_pairwise).2.2 _ (List.mem_map_of_mem hs) c
    (List.mem_filterMap.mpr ⟨a, ha, hc⟩)

private theorem leases_pairwise (h : B.Ok P) : B.live.Pairwise fun a b => a.origin ≠ b.origin ∧
    ∀ c, a.origin.block? = some c → ∀ d, b.origin.block? = some d → c.Disjoint d :=
  (List.pairwise_map.mp h.origins).and
    (List.pairwise_filterMap.mp (List.pairwise_append.mp h.held_pairwise).2.1)

private theorem leases_disjoint (h : B.Ok P) (ha : a ∈ B.live) (hb : b ∈ B.live) (hne : a ≠ b) {d : Block}
    (hc : a.origin.block? = some c) (hd : b.origin.block? = some d) : c.Disjoint d := by
  have hsymm : Std.Symm fun a b : Lease => ∀ c, a.origin.block? = some c →
      ∀ d, b.origin.block? = some d → c.Disjoint d :=
    ⟨fun _ _ h c hc d hd x hx hy => h d hd c hc x hy hx⟩
  exact (h.leases_pairwise.imp And.right).forall ha hb hne c hc d hd

theorem objectLease_holds (hz : size ≤ objectSize s.cache)
    (hx : (objectLease P s index size).Holds x) :
    s.object P index ≤ x ∧ x < s.object P index + objectSize s.cache := by
  simp only [objectLease, Allocation.Holds] at hx
  omega

theorem blockLease_holds (hx : (blockLease P addr size align).Holds x) :
    P.start + addr + dataOffset align ≤ x ∧
      x < P.start + addr + 2 ^ blockOrder (requiredSize size align) := by
  have hle : requiredSize size align ≤ 2 ^ blockOrder (requiredSize size align) := size_le_blockOrder _
  have hroom := requiredSize_room size align
  simp only [blockLease, Allocation.Holds] at hx
  omega

theorem object_in_block (hi : index < capacity s.cache)
    (hx : s.object P index ≤ x ∧ x < s.object P index + objectSize s.cache) :
    P.start ≤ x ∧ s.block.Covers (x - P.start) := by
  have := object_le hi
  simp only [object, header, block, Covers, slabOrder] at *
  omega

theorem disjoint (h : B.Ok P) :
    B.live.Pairwise fun a b => ∀ x, a.Holds x → ¬ b.Holds x := by
  apply h.leases_pairwise.imp_of_mem
  rintro a b ha hb ⟨hne, hdis⟩ x hx hy
  cases h.leases a ha with
  | @object s i size hs hi hf hz =>
    have hx' := objectLease_holds hz hx
    obtain ⟨hle, hcov⟩ := object_in_block hi hx'
    cases h.leases b hb with
    | @object t j size' ht hj _ hz' =>
      have hy' := objectLease_holds hz' hy
      by_cases hst : s = t
      · subst hst
        have hij : i ≠ j := fun he => hne (by rw [he]; rfl)
        have hl := objects_apart s.cache (i := i) (j := j)
        have hr := objects_apart s.cache (i := j) (j := i)
        simp only [object] at hx' hy'
        omega
      · obtain ⟨_, hcov'⟩ := object_in_block hj hy'
        have hap := h.slabs_apart hs ht hst
        simp only [Covers, block, slabOrder] at hcov hcov'
        omega
    | @block addr size' align hz' =>
      have hy' := blockLease_holds hy
      refine h.slab_block_apart hs hb rfl _ hcov ?_
      simp only [Covers]
      omega
  | @block addr size align hz =>
    have hx' := blockLease_holds hx
    cases h.leases b hb with
    | @object t j size' ht hj _ hz' =>
      obtain ⟨hle, hcov⟩ := object_in_block hj (objectLease_holds hz' hy)
      refine h.slab_block_apart ht ha rfl _ hcov ?_
      simp only [Covers]
      omega
    | @block addr' size' align' hz' =>
      have hy' := blockLease_holds hy
      refine hdis _ rfl _ rfl (x - P.start) ?_ ?_ <;> simp only [Covers] <;> omega

theorem grow (h : B.Ok P) (hc : cache < 7) (hr : ⟨r, slabOrder + n⟩ ∈ B.free) : (B.grow cache r n).Ok P where
  tiling := h.tiling.take hr (by decide)
  cache_lt := List.forall_mem_cons.mpr ⟨hc, h.cache_lt⟩
  index_lt := List.forall_mem_cons.mpr ⟨fun i hi => List.mem_range.mp hi, h.index_lt⟩
  nodup := List.forall_mem_cons.mpr ⟨List.nodup_range, h.nodup⟩
  leases a ha := (h.leases a ha).mono
  origins := h.origins

private theorem held_update (B : Books) :
    Books.held ⟨B.free, updateFree B.slabs addr f, live⟩ =
      B.slabs.map block ++ live.filterMap (·.origin.block?) := by
  rw [held, updateFree_block]

theorem lendObject (h : B.Ok P) (hs : s ∈ B.slabs) (hi : index ∈ s.free.head?) (hz : size ≤ objectSize s.cache) :
    (B.lendObject P s index size).Ok P := by
  obtain ⟨rest, hf⟩ : ∃ rest, s.free = index :: rest := List.head?_eq_some_iff.mp hi
  have hnot : index ∉ rest := (List.nodup_cons.mp (hf ▸ h.nodup s hs)).1
  have hmem : index ∈ s.free := hf ▸ (.head _)
  refine ⟨?_, ?_, ?_, ?_, ?_, ?_⟩
  · rw [Books.lendObject, held_update]
    exact h.tiling
  · intro t ht
    rcases mem_updateFree ht with ⟨ht, -⟩ | ⟨u, hu, -, rfl⟩
    · exact h.cache_lt t ht
    · exact h.cache_lt u hu
  · intro t ht i hi
    rcases mem_updateFree ht with ⟨ht, -⟩ | ⟨u, hu, -, rfl⟩
    · exact h.index_lt t ht i hi
    · exact h.index_lt u hu i (List.mem_of_mem_tail hi)
  · intro t ht
    rcases mem_updateFree ht with ⟨ht, -⟩ | ⟨u, hu, -, rfl⟩
    · exact h.nodup t ht
    · exact (h.nodup u hu).tail
  · refine List.forall_mem_cons.mpr ⟨?_, ?_⟩
    · have hm := List.mem_map_of_mem
        (f := fun t : Slab => if t.addr = s.addr then { t with free := t.free.tail } else t) hs
      rw [if_pos rfl] at hm
      exact LeaseOk.object (s := { s with free := s.free.tail }) hm (h.index_lt s hs index hmem)
        (by rwa [hf]) hz
    · intro a ha
      exact (h.leases a ha).update fun t _ _ i _ hn ht => hn (List.mem_of_mem_tail ht)
  · apply List.nodup_cons.mpr
    refine ⟨fun hm => ?_, h.origins⟩
    -- A lease of the same object would contradict that the object was free.
    obtain ⟨a, ha, he⟩ := List.mem_map.mp hm
    cases h.leases a ha with
    | @object t j size' ht hj hn _ =>
      simp only [objectLease, Origin.object.injEq] at he
      obtain ⟨hat, rfl⟩ := he
      exact hn (h.slab_unique ht hs hat ▸ hmem)
    | block => cases he

theorem lendBlock (h : B.Ok P) (hz : 0 < size) (hr : ⟨r, blockOrder (requiredSize size align) + n⟩ ∈ B.free) :
    (B.lendBlock P r n size align).Ok P where
  tiling := (h.tiling.take hr (min_le_blockOrder _)).perm (List.perm_middle.symm.append_right _)
  cache_lt := h.cache_lt
  index_lt := h.index_lt
  nodup := h.nodup
  leases := List.forall_mem_cons.mpr ⟨.block hz, h.leases⟩
  origins := by
    apply List.nodup_cons.mpr
    refine ⟨fun hm => ?_, h.origins⟩
    obtain ⟨a, ha, he⟩ := List.mem_map.mp hm
    -- A lease of the same block would make it both held and free.
    have hheld : (⟨r, blockOrder (requiredSize size align)⟩ : Block) ∈ B.held :=
      lease_mem ha (by rw [he]; rfl)
    refine h.held_free hheld hr r (covers_addr _) ⟨le_rfl, ?_⟩
    exact Nat.lt_add_of_pos_right (Nat.two_pow_pos _)

theorem giveBack {before after : List Lease} (h : B.Ok P) (ha : B.live = before ++ a :: after) :
    (B.giveBack a.origin (before ++ after)).Ok P := by
  have hperm : B.live.Perm (a :: (before ++ after)) := ha ▸ List.perm_middle
  have hnodup := (hperm.map Lease.origin).nodup_iff.mp h.origins
  have hleases : ∀ b ∈ before ++ after, LeaseOk P B.slabs b :=
    fun b hb => h.leases b (hperm.mem_iff.mpr (.tail _ hb))
  cases h.leases a (hperm.mem_iff.mpr (.head _)) with
  | @object s index size hs hi hf hz =>
    have hheld : B.held.Perm (B.slabs.map block ++ (before ++ after).filterMap (·.origin.block?)) :=
      (hperm.filterMap _).append_left _
    refine ⟨?_, ?_, ?_, ?_, ?_, (List.nodup_cons.mp hnodup).2⟩
    · simp only [objectLease, Books.giveBack]
      rw [held_update]
      exact h.tiling.perm (hheld.append_right _)
    · intro t ht
      rcases mem_updateFree ht with ⟨ht, -⟩ | ⟨u, hu, -, rfl⟩
      · exact h.cache_lt t ht
      · exact h.cache_lt u hu
    · intro t ht i hit
      rcases mem_updateFree ht with ⟨ht, -⟩ | ⟨u, hu, hau, rfl⟩
      · exact h.index_lt t ht i hit
      · rcases List.mem_cons.mp hit with rfl | hit
        · exact (h.slab_unique hu hs hau) ▸ hi
        · exact h.index_lt u hu i hit
    · intro t ht
      rcases mem_updateFree ht with ⟨ht, -⟩ | ⟨u, hu, hau, rfl⟩
      · exact h.nodup t ht
      · obtain rfl := h.slab_unique hu hs hau
        exact List.nodup_cons.mpr ⟨hf, h.nodup _ hu⟩
    · intro b hb
      apply (hleases b hb).update
      intro t ht _ i hbi hn hti
      rcases List.mem_cons.mp hti with rfl | hti
      · exact (List.nodup_cons.mp hnodup).1 (List.mem_map.mpr ⟨b, hb, hbi⟩)
      · exact hn hti
  | @block addr size align hz =>
    refine ⟨?_, h.cache_lt, h.index_lt, h.nodup, hleases, (List.nodup_cons.mp hnodup).2⟩
    have hheld : B.held.Perm (⟨addr, blockOrder (requiredSize size align)⟩ ::
        (B.slabs.map block ++ (before ++ after).filterMap (·.origin.block?))) :=
      ((hperm.filterMap _).append_left _).trans List.perm_middle
    exact (h.tiling.perm (hheld.append_right _)).give

end Books.Ok

theorem BooksStep.ok {B' : Books} (hs : BooksStep P B e B') (h : B.Ok P) : B'.Ok P := by
  cases hs with
  | object hc hs hf => exact h.lendObject hs (by rw [hf]; rfl) (getSlabIndex_some hc).2
  | @grow cache r n size hc hn hr =>
    obtain ⟨hlt, hz⟩ := getSlabIndex_some hc
    have hcap := capacity_pos hlt
    refine (h.grow hlt hr).lendObject (.head _) ?_ hz
    rw [List.head?_range, if_neg hcap.ne']
    rfl
  | block hz hb hr => exact h.lendBlock hz hr
  | null hn => exact h
  | kfree ha => exact h.giveBack ha
  | write => exact h

inductive Bookkeeping (P : Pool) (caches : Nat) (B : Books) (x : Nat) : Prop where
  | cache (hl : caches ≤ x) (hu : x < caches + 56)
  | free {c : Block} (hc : c ∈ B.free) (hl : P.start ≤ x) (hx : c.Covers (x - P.start))
  | slab {s : Slab} (hs : s ∈ B.slabs) (hl : P.start + s.addr ≤ x) (hu : x < s.object P 0)
  | object {s : Slab} {i : Nat} (hs : s ∈ B.slabs) (hi : i ∈ s.free)
      (hl : s.object P i ≤ x) (hu : x < s.object P i + objectSize s.cache)
  | block {addr size : Nat} {align : Int} (ha : blockLease P addr size align ∈ B.live)
      (hl : P.start + addr ≤ x) (hu : x < P.start + addr + dataOffset align)

theorem Books.Ok.not_bookkeeping {caches : Nat} (h : B.Ok P)
    (hcaches : caches + 56 ≤ P.start ∨ P.stop ≤ caches) (ha : a ∈ B.live) (hx : a.Holds x) :
    ¬ Bookkeeping P caches B x := by
  intro hb
  -- Every byte of `a` is in a block of the pool that is not free.
  have hblock : ∃ c ∈ B.held, P.start ≤ x ∧ c.Covers (x - P.start) := by
    cases h.leases a ha with
    | object hs hi hf hz =>
      exact ⟨_, slab_mem hs, object_in_block hi (objectLease_holds hz hx)⟩
    | block hz =>
      have := blockLease_holds hx
      exact ⟨_, lease_mem ha rfl, by omega, by simp only [Covers]; omega⟩
  obtain ⟨c, hc, hle, hcov⟩ := hblock
  have hin := (h.tiling.good c (List.mem_append_left _ hc)).inside
  cases hb with
  | cache hl hu =>
    simp only [Covers] at hcov
    omega
  | free hd _ hx' => exact h.held_free hc hd _ hcov hx'
  | @slab s hs hl hu =>
    simp only [object, header, Nat.zero_mul] at hu
    cases h.leases a ha with
    | @object t i size ht hi hf hz =>
      have hx' := objectLease_holds hz hx
      by_cases hst : t = s
      · subst hst
        simp only [object, header] at hx'
        omega
      · have := h.slabs_apart ht hs hst
        have := object_le hi
        simp only [object, header] at hx'
        omega
    | block hz =>
      have := blockLease_holds hx
      refine h.slab_block_apart hs ha rfl (x - P.start) ?_ ?_ <;>
        simp only [Covers, block, slabOrder] <;> omega
  | @object s i hs hi hl hu =>
    have hlt := h.index_lt s hs i hi
    cases h.leases a ha with
    | @object t j size ht hj hf hz =>
      have hx' := objectLease_holds hz hx
      by_cases hst : t = s
      · subst hst
        have hne : i ≠ j := fun he => hf (he ▸ hi)
        have hij := objects_apart t.cache (i := i) (j := j)
        have hji := objects_apart t.cache (i := j) (j := i)
        simp only [object] at hx' hl hu
        omega
      · have := h.slabs_apart ht hs hst
        have := object_le hj
        have := object_le hlt
        simp only [object, header] at hx' hl hu
        omega
    | block hz =>
      have := blockLease_holds hx
      refine h.slab_block_apart hs ha rfl (x - P.start) (object_in_block hlt ⟨hl, hu⟩).2 ?_
      simp only [Covers]
      omega
  | @block addr size align hb hl hu =>
    have hle' : dataOffset align ≤ 2 ^ blockOrder (requiredSize size align) :=
      ((Nat.le_add_right _ _).trans (requiredSize_room _ _)).trans (size_le_blockOrder _)
    have hown : (⟨addr, blockOrder (requiredSize size align)⟩ : Block).Covers (x - P.start) := by
      simp only [Covers]
      omega
    cases h.leases a ha with
    | @object t j size' ht hj hf hz =>
      exact h.slab_block_apart ht hb rfl (x - P.start) (object_in_block hj (objectLease_holds hz hx)).2 hown
    | @block addr' size' align' hz =>
      have hx' := blockLease_holds hx
      have hne : blockLease P addr' size' align' ≠ blockLease P addr size align := fun he => by
        have hp := congrArg (·.ptr) he
        simp only [blockLease] at hp
        omega
      refine h.leases_disjoint ha hb hne rfl rfl (x - P.start) ?_ hown
      simp only [Covers]
      omega

end RetroOs.Kernel
