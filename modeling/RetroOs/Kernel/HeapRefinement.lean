import RetroOs.Kernel.HeapOwnership

/-! The words in memory that spell out the books of the heap, and the memory they depend on. -/
namespace RetroOs.Kernel
open Lib Block Memory Slab

/-- The pool and, outside it, the cache table. -/
structure HeapLayout where
  pool : Pool
  slabCaches : Nat
  caches_lt : slabCaches + 56 ≤ 2 ^ 32
  apart : slabCaches + 56 ≤ pool.start ∨ pool.stop ≤ slabCaches

/-- The end mark of an embedded free list. -/
def noObject (i : Nat) : Prop := i = 2 ^ 32 - 1

structure SlabWords (L : HeapLayout) (m : Memory) (s : Slab) : Prop where
  magic : m.load32 (s.header L.pool) = slabMagic
  cache : m.load32 (s.header L.pool + 4) = L.slabCaches + 8 * s.cache
  count : m.load32 (s.header L.pool + 16) = s.free.length
  objects : Chain noObject (fun i => m.load32 (s.object L.pool i)) (m.load32 (s.header L.pool + 20)) s.free

def slabHeaders (P : Pool) (slabs : List Slab) (cache : Nat) : List Nat :=
  (slabs.filter (·.cache = cache)).map (header P)

structure CacheWords (L : HeapLayout) (m : Memory) (slabs : List Slab) (cache : Nat) : Prop where
  size : m.load32 (L.slabCaches + 8 * cache) = objectSize cache
  list : Chain (· = 0) (fun a => m.load32 (a + 8)) (m.load32 (L.slabCaches + 8 * cache + 4))
    (slabHeaders L.pool slabs cache)

structure BlockWords (P : Pool) (m : Memory) (addr size : Nat) (align : Int) : Prop where
  back : m.load32 (P.start + addr + dataOffset align - 4) = P.start + addr
  size : m.load32 (P.start + addr + 8) = requiredSize size align
  magic : m.load32 (P.start + addr + 16) = headerMagic
  prev : align = 0 → m.load32 (P.start + addr + 4) = 0

structure Words (L : HeapLayout) (b : Buddy) (m : Memory) (B : Books) : Prop where
  lists : FreeLists L.pool b m B.free
  caches : ∀ i < 7, CacheWords L m B.slabs i
  slabs : ∀ s ∈ B.slabs, SlabWords L m s
  blocks : ∀ addr size align, blockLease L.pool addr size align ∈ B.live → BlockWords L.pool m addr size align

variable {L : HeapLayout} {P : Pool} {b : Buddy} {m m' : Memory} {B : Books} {s t : Slab} {slabs : List Slab}
  {live : List Lease} {addr cache i index r size x : Nat} {align : Int} {f : List Nat → List Nat}
  {l : List Block}

theorem dataOffset_le (align : Int) : 24 ≤ dataOffset align := by
  simp only [dataOffset]
  split <;> omega

theorem SlabWords.frame (h : SlabWords L m s) (hh : AgreeOn m m' (s.header L.pool) 8)
    (hc : AgreeOn m m' (s.header L.pool + 16) 8)
    (ho : ∀ i ∈ s.free, AgreeOn m m' (s.object L.pool i) 4) : SlabWords L m' s where
  magic := (hh.mono le_rfl (by omega)).load32.trans h.magic
  cache := (hh.mono (by omega) (by omega)).load32.trans h.cache
  count := (hc.mono le_rfl (by omega)).load32.trans h.count
  objects := by
    rw [show m'.load32 (s.header L.pool + 20) = m.load32 (s.header L.pool + 20) from
      (hc.mono (by omega) (by omega)).load32]
    exact h.objects.congr fun i hi => (ho i hi).load32

theorem CacheWords.frame (h : CacheWords L m slabs cache) (hc : AgreeOn m m' (L.slabCaches + 8 * cache) 8)
    (hs : ∀ s ∈ slabs, s.cache = cache → AgreeOn m m' (s.header L.pool + 8) 4) :
    CacheWords L m' slabs cache where
  size := (hc.mono le_rfl (by omega)).load32.trans h.size
  list := by
    rw [show m'.load32 (L.slabCaches + 8 * cache + 4) = m.load32 (L.slabCaches + 8 * cache + 4) from
      (hc.mono (by omega) (by omega)).load32]
    apply h.list.congr
    intro a ha
    obtain ⟨s, hs', rfl⟩ := List.mem_map.mp ha
    obtain ⟨hm, he⟩ := List.mem_filter.mp hs'
    exact (hs s hm (of_decide_eq_true he)).load32

theorem BlockWords.frame (h : BlockWords P m addr size align)
    (hm : AgreeOn m m' (P.start + addr) (dataOffset align)) : BlockWords P m' addr size align := by
  have hle := dataOffset_le align
  exact ⟨(hm.mono (by omega) (by omega)).load32.trans h.back,
    (hm.mono (by omega) (by omega)).load32.trans h.size,
    (hm.mono (by omega) (by omega)).load32.trans h.magic,
    fun ha => (hm.mono (by omega) (by omega)).load32.trans (h.prev ha)⟩

theorem Words.frame_used {b' : Buddy} (h : Words L b m B) (hl : FreeLists L.pool b' m' l)
    (hm : ∀ x, Bookkeeping L.pool L.slabCaches ⟨[], B.slabs, B.live⟩ x → m' x = m x) :
    Words L b' m' ⟨l, B.slabs, B.live⟩ where
  lists := hl
  caches i hi := by
    apply (h.caches i hi).frame
    · exact fun x hl hu => hm x (.cache (by omega) (by omega))
    · exact fun s hs _ x hl hu => hm x (.slab hs (by simp only [header] at hl; omega)
        (by simp only [object]; omega))
  slabs s hs := by
    apply (h.slabs s hs).frame
    · exact fun x hl hu => hm x (.slab hs (by simp only [header] at hl; omega)
        (by simp only [object]; omega))
    · exact fun x hl hu => hm x (.slab hs (by simp only [header] at hl; omega)
        (by simp only [object]; omega))
    · intro i hi x hl hu
      have hsize : 32 ≤ objectSize s.cache := Nat.le_mul_of_pos_right 32 (Nat.two_pow_pos _)
      exact hm x (.object hs hi hl (by omega))
  blocks addr size align ha := by
    apply (h.blocks addr size align ha).frame
    exact fun x hl hu => hm x (.block ha hl hu)

theorem Words.frame (h : Words L b m B) (ho : B.Ok L.pool)
    (hm : ∀ x, Bookkeeping L.pool L.slabCaches B x → m' x = m x) : Words L b m' B := by
  apply h.frame_used
  · refine h.lists.frame fun c hc x hl hu => hm x (.free hc (by omega) ?_)
    have hp := Nat.pow_le_pow_right (show 0 < 2 by omega) (ho.tiling.of_append.good c hc).min_le
    simp only [buddyMinOrder] at hp
    simp only [Covers]
    omega
  · intro x hx
    apply hm
    cases hx with
    | cache hl hu => exact .cache hl hu
    | free hc => cases hc
    | slab hs hl hu => exact .slab hs hl hu
    | object hs hi hl hu => exact .object hs hi hl hu
    | block ha hl hu => exact .block ha hl hu

theorem outside_of_held (ho : B.Ok L.pool) {c : Block} (hc : c ∈ B.held) (hx : c.Covers (x - L.pool.start)) :
    Outside L.pool B.free x := by
  apply Or.inr
  by_contra hn
  obtain ⟨d, hd, hdx⟩ := coverCount_pos.mp (Nat.pos_of_ne_zero hn)
  exact ho.held_free hc hd _ hx hdx

theorem Bookkeeping.outside (hb : Bookkeeping L.pool L.slabCaches ⟨[], B.slabs, B.live⟩ x) (ho : B.Ok L.pool) :
    Outside L.pool B.free x := by
  cases hb with
  | cache hl hu =>
    rcases L.apart with ha | ha
    · exact .inl (by omega)
    · apply Or.inr
      by_contra hn
      obtain ⟨d, hd, hdx⟩ := coverCount_pos.mp (Nat.pos_of_ne_zero hn)
      have := (ho.tiling.of_append.good d hd).inside
      simp only [Covers] at hdx
      omega
  | free hc => cases hc
  | slab hs hl hu =>
    apply outside_of_held ho (Books.Ok.slab_mem hs)
    simp only [Slab.object, Slab.header] at hu
    simp only [Covers, Slab.block, slabOrder]
    omega
  | object hs hi hl hu =>
    exact outside_of_held ho (Books.Ok.slab_mem hs) (Books.Ok.object_in_block (ho.index_lt _ hs _ hi) ⟨hl, hu⟩).2
  | @block addr size align ha hl hu =>
    have hroom := dataOffset_le_block size align
    apply outside_of_held ho (Books.Ok.lease_mem ha rfl)
    simp only [Covers]
    omega

private theorem slabHeaders_update (P : Pool) :
    slabHeaders P (updateFree slabs addr f) cache = slabHeaders P slabs cache := by
  simp only [slabHeaders, updateFree]
  induction slabs with
  | nil => rfl
  | cons s slabs ih =>
    by_cases ha : s.addr = addr <;> by_cases hc : s.cache = cache <;>
      simp only [List.map_cons, ha, if_true, if_false, List.filter_cons, hc, decide_true, decide_false,
        List.map_cons, ih, header] <;> simp [ih]

theorem Words.update_slab (h : Words L b m B) (ho : B.Ok L.pool) (hs : s ∈ B.slabs)
    (hm : ∀ x, x < s.header L.pool + 16 ∨ s.header L.pool + 4096 ≤ x → m' x = m x)
    (hw : SlabWords L m' { s with free := f s.free })
    (hlive : ∀ addr size align, blockLease L.pool addr size align ∈ live →
      blockLease L.pool addr size align ∈ B.live) :
    Words L b m' ⟨B.free, updateFree B.slabs s.addr f, live⟩ := by
  have hin := (ho.slab_good hs).inside
  have hapart := L.apart
  -- Outside the block of the slab nothing changes.
  have hout : ∀ x, x < L.pool.start ∨ ¬ s.block.Covers (x - L.pool.start) → m' x = m x := by
    intro x hx
    apply hm
    simp only [Covers, block, slabOrder] at hx
    simp only [header]
    omega
  simp only [block, slabOrder] at hin
  have hother : ∀ t ∈ B.slabs, t ≠ s → ∀ x, t.header L.pool ≤ x → x < t.header L.pool + 4096 → m' x = m x := by
    intro t ht hne x hl hu
    have := ho.slabs_apart ht hs hne
    simp only [header] at hl hu
    apply hm
    simp only [header]
    omega
  refine ⟨h.lists.frame fun c hc x hl hu => hout x ?_, fun i hi => ?_, fun t ht => ?_, fun addr size align ha => ?_⟩
  · have hp := Nat.pow_le_pow_right (show 0 < 2 by omega) (ho.tiling.of_append.good c hc).min_le
    simp only [buddyMinOrder] at hp
    refine .inr fun hcov => ho.held_free (Books.Ok.slab_mem hs) hc _ hcov ?_
    simp only [Covers]
    omega
  · have hc := h.caches i hi
    have hc' : CacheWords L m' B.slabs i := by
      apply hc.frame
      · intro x hl hu
        apply hout
        simp only [Covers, block, slabOrder]
        omega
      · intro t ht _ x hl hu
        by_cases hts : t = s
        · exact hm x (by rw [← hts]; omega)
        · exact hother t ht hts x (by omega) (by omega)
    exact ⟨hc'.size, by rw [slabHeaders_update]; exact hc'.list⟩
  · rcases mem_updateFree ht with ⟨ht, hne⟩ | ⟨u, hu, hau, rfl⟩
    · have hts : t ≠ s := fun he => hne (he ▸ rfl)
      apply (h.slabs t ht).frame
      · exact fun x hl hu => hother t ht hts x hl (by omega)
      · exact fun x hl hu => hother t ht hts x (by omega) (by omega)
      · intro i hi x hl hu
        have := object_le (ho.index_lt t ht i hi)
        have : 32 ≤ objectSize t.cache := Nat.le_mul_of_pos_right 32 (Nat.two_pow_pos _)
        simp only [object] at hl hu
        exact hother t ht hts x (by omega) (by omega)
    · rw [ho.slab_unique hu hs hau]
      exact hw
  · have hb := hlive addr size align ha
    apply (h.blocks addr size align hb).frame
    intro x hl hu
    refine hout x (.inr fun hcov => ho.slab_block_apart hs hb rfl _ hcov ?_)
    have hroom := dataOffset_le_block size align
    simp only [Covers]
    omega

end RetroOs.Kernel
