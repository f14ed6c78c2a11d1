import RetroOs.Kernel.HeapSlab

/-! Each call of `kmalloc_real` is one step of the books. -/
namespace RetroOs.Kernel
open Lib Block Memory List Option Nat

variable {L : HeapLayout} {P : Pool} {hp : Heap} {b : Buddy} {m m' : Memory} {B : Books} {s t : Slab}
  {slabs : List Slab} {cache fuel head i n p r size x : Nat} {align : Int}

structure HeapConfig (L : HeapLayout) (h : Heap) : Prop where
  startAddress : h.startAddress = L.pool.start
  endAddress : h.endAddress = L.pool.stop
  initialized : h.slabIsInitialized = true
  slabCaches : h.slabCaches = L.slabCaches

private theorem findSlab_spec (hw : ∀ s ∈ slabs, SlabWords L m s)
    (hc : Chain (· = 0) (fun a => m.load32 (a + 8)) head (slabs.map (Slab.header L.pool)))
    (hf : slabs.length < fuel) :
    (∃ s ∈ slabs, s.free ≠ [] ∧ findSlab m fuel head = some (s.header L.pool)) ∨
      (findSlab m fuel head = some 0 ∧ ∀ s ∈ slabs, s.free = []) := by
  induction slabs generalizing fuel head with
  | nil =>
    obtain ⟨fuel, rfl⟩ := exists_eq_add_one_of_ne_zero (ne_zero_of_lt hf)
    rw [map_nil, chain_nil] at hc
    exact .inr ⟨by rw [findSlab, if_pos hc], by simp⟩
  | cons s slabs ih =>
    obtain ⟨fuel, rfl⟩ := exists_eq_add_one_of_ne_zero (ne_zero_of_lt hf)
    obtain ⟨rfl, hne, hc⟩ := chain_cons.mp hc
    have hcount := (hw s (.head _)).count
    rw [findSlab, if_neg hne, hcount]
    cases hs : s.free with
    | nil =>
      rw [length_nil, if_neg (lt_irrefl 0)]
      rw [length_cons] at hf
      have hlt : slabs.length < fuel := by omega
      rcases ih (fun t ht => hw t (.tail _ ht)) hc hlt with ⟨t, ht, hfree, hcall⟩ | ⟨hcall, hall⟩
      · exact .inl ⟨t, .tail _ ht, hfree, hcall⟩
      · exact .inr ⟨hcall, forall_mem_cons.mpr ⟨hs, hall⟩⟩
    | cons index rest =>
      rw [if_pos (by rw [length_cons]; omega)]
      exact .inl ⟨s, .head _, by rw [hs]; exact cons_ne_nil _ _, rfl⟩

theorem Words.findSlab (h : Words L b m B) (ho : B.Ok L.pool) (hc : cache < 7) :
    (∃ s ∈ B.slabs, s.cache = cache ∧ s.free ≠ [] ∧
      findSlab m walkFuel (m.load32 (L.slabCaches + 8 * cache + 4)) = some (s.header L.pool)) ∨
      (findSlab m walkFuel (m.load32 (L.slabCaches + 8 * cache + 4)) = some 0 ∧
        ∀ s ∈ B.slabs, s.cache = cache → s.free = []) := by
  have hlen := ho.tiling.length_lt
  have hle : (B.slabs.filter (·.cache = cache)).length ≤ B.slabs.length := length_filter_le _ _
  have hfuel : (B.slabs.filter (·.cache = cache)).length < walkFuel := by
    simp only [Books.held, length_append, length_map] at hlen
    simp only [walkFuel]
    omega
  have hmem : ∀ s, s ∈ B.slabs.filter (·.cache = cache) ↔ s ∈ B.slabs ∧ s.cache = cache := fun s => by
    simp [mem_filter]
  rcases findSlab_spec (fun s hs => h.slabs s ((hmem s).mp hs).1) (h.caches cache hc).list hfuel with
    ⟨s, hs, hfree, hcall⟩ | ⟨hcall, hall⟩
  · exact .inl ⟨s, ((hmem s).mp hs).1, ((hmem s).mp hs).2, hfree, hcall⟩
  · exact .inr ⟨hcall, fun s hs he => hall s ((hmem s).mpr ⟨hs, he⟩)⟩

theorem blockOrder_page : blockOrder (requiredSize 4096 1) = slabOrder := by
  have hle : clog 2 8216 ≤ 14 := clog_le_of_le_pow (by decide)
  have hgt : ¬ clog 2 8216 ≤ 13 := fun h => absurd ((clog_le_iff_le_pow (by omega)).mp h) (by decide)
  have hc : clog 2 8216 = 14 := by omega
  change max (clog 2 8216) buddyMinOrder = slabOrder
  rw [hc]
  rfl

inductive TakesObject (P : Pool) (B : Books) (cache size : Nat) : Nat → Books → Prop where
  | object {s : Slab} {index : Nat} {rest : List Nat} (hs : s ∈ B.slabs) (hc : s.cache = cache) (hf : s.free = index :: rest) :
      TakesObject P B cache size (s.object P index) (B.lendObject P s index size)
  | grow {r n : Nat} (hn : ∀ s ∈ B.slabs, s.cache = cache → s.free = []) (hr : ⟨r, slabOrder + n⟩ ∈ B.free) :
      TakesObject P B cache size (P.start + r + 0x101C)
        ((B.grow cache r n).lendObject P ⟨r, cache, range (capacity cache)⟩ 0 size)

theorem TakesObject.step {B' : Books} (h : TakesObject P B cache size p B') (hs : getSlabIndex size = some cache) :
    BooksStep P B (.kmalloc size 0 p) B' := by
  cases h with
  | object hm hc hf => exact .object (hc ▸ hs) hm hf
  | grow hn hr => exact .grow hs hn hr

theorem slabAlloc_refines (h : Words L hp.buddy m B) (ho : B.Ok L.pool) (hcfg : HeapConfig L hp)
    (hs : getSlabIndex size = some cache) :
    ∃ b' m' p, slabAlloc hp m size = some ({ hp with buddy := b' }, m', p) ∧
      ((p = 0 ∧ b' = hp.buddy ∧ m' = m ∧ (∀ s ∈ B.slabs, s.cache = cache → s.free = []) ∧
          ∀ c ∈ B.free, c.order < slabOrder) ∨
        p ≠ 0 ∧ (∀ x, p ≤ x → x < p + objectSize cache → m' x = 0) ∧
          ∃ B', TakesObject L.pool B cache size p B' ∧ Words L b' m' B') := by
  obtain ⟨hlt, hz⟩ := getSlabIndex_some hs
  have hcache : hp.slabCaches + 8 * cache = L.slabCaches + 8 * cache := by rw [hcfg.slabCaches]
  rw [slabAlloc, hs]
  simp only [hcache]
  rcases h.findSlab ho hlt with ⟨s, hm, rfl, hfree, hcall⟩ | ⟨hcall, hnone⟩
  · obtain ⟨index, rest, hf⟩ := exists_cons_of_ne_nil hfree
    obtain ⟨m', htake, hzero, hw⟩ := takeObject_words size h ho hm hf
    have hne : s.header L.pool ≠ 0 := by
      simp only [Slab.header]
      omega
    refine ⟨hp.buddy, m', s.object L.pool index, ?_, .inr ⟨?_, hzero, _, .object hm rfl hf, hw⟩⟩
    · rw [hcall, Option.bind_some, if_pos hne, htake]
    · simp only [Slab.object]
      omega
  · rw [hcall, Option.bind_some, if_neg (not_not.mpr rfl)]
    by_cases hex : ∃ c ∈ B.free, slabOrder ≤ c.order
    · rw [← blockOrder_page] at hex
      obtain ⟨r, n, b', m₁, hr, hbuddy, hl, hm₁, -⟩ :=
        kmallocBuddy_some 1 h.lists ho.tiling.of_append (by decide) (by decide) hex
      rw [blockOrder_page] at hr hl
      have hw := h.grow ho hlt hr hl hm₁
      have ho' := ho.grow hlt hr
      have hsize : m₁.load32 (L.slabCaches + 8 * cache) = objectSize cache :=
        ((h.frame_used hl fun x hx => hm₁ x (hx.outside ho)).caches cache hlt).size
      obtain ⟨rest, hrange⟩ : ∃ rest, range (capacity cache) = 0 :: rest := by
        obtain ⟨k, hk⟩ := Nat.exists_eq_add_one_of_ne_zero (capacity_pos hlt).ne'
        exact ⟨_, by rw [hk, range_succ_eq_map]⟩
      obtain ⟨m', htake, hzero, hw'⟩ := takeObject_words size (s := ⟨r, cache, range (capacity cache)⟩)
        hw ho' (.head _) hrange
      have hpage : L.pool.start + r + dataOffset 1 = L.pool.start + r + 0x1004 := rfl
      have hptr : Slab.object L.pool ⟨r, cache, range (capacity cache)⟩ 0 = L.pool.start + r + 0x101C := by
        simp only [Slab.object, Slab.header, Nat.zero_mul]
      refine ⟨b', m', L.pool.start + r + 0x101C, ?_, .inr ⟨by omega, hptr ▸ hzero, _, .grow hnone hr, hw'⟩⟩
      rw [hbuddy, Option.bind_some]
      simp only [hpage]
      rw [if_neg (by omega), if_neg (by rw [hsize]; exact (objectSize_pos cache).ne'), ← hptr, ← htake]
      rfl
    · have hno : ∀ c ∈ B.free, c.order < slabOrder := fun c hc => by
        by_contra hn
        exact hex ⟨c, hc, by omega⟩
      refine ⟨hp.buddy, m, 0, ?_, .inl ⟨rfl, rfl, rfl, hnone, hno⟩⟩
      rw [kmallocBuddy_none h.lists (by decide) (.inr (by rwa [blockOrder_page]))]
      rfl

theorem getSlabIndex_isSome : (getSlabIndex size).isSome ↔ size ≤ 2048 := by
  simp only [getSlabIndex]
  split_ifs <;> simp <;> omega

theorem Words.lendBlock {b' : Buddy} (h : Words L b m B) (ho : B.Ok L.pool)
    (hl : FreeLists L.pool b' m' (B.split r (blockOrder (requiredSize size align)) n))
    (hm : ∀ x, Outside L.pool B.free x → m' x = m x) (hb : BlockWords L.pool m' r size align) :
    Words L b' m' (B.lendBlock L.pool r n size align) := by
  have hw : Words L b' m' ⟨_, B.slabs, B.live⟩ := h.frame_used hl fun x hx => hm x (hx.outside ho)
  refine ⟨hl, hw.caches, hw.slabs, fun addr size' align' ha => ?_⟩
  rcases mem_cons.mp ha with he | ha
  · have hsize := congrArg (·.size) he
    have halign := congrArg (·.align) he
    have hptr := congrArg (·.ptr) he
    simp only [blockLease] at hsize halign hptr
    obtain rfl : addr = r := by
      rw [halign] at hptr
      omega
    rw [hsize, halign]
    exact hb
  · exact hw.blocks addr size' align' ha

variable (align) in
private theorem kmallocBuddy_refines (h : Words L hp.buddy m B) (ho : B.Ok L.pool) (hs : requiredSize size align ≤ 2 ^ 31)
    (hslab : getSlabIndex size = none ∨ align ≠ 0 ∨ ∀ c ∈ B.free, c.order < slabOrder) :
    ∃ b' m' p B', kmallocBuddy hp m size align = some ({ hp with buddy := b' }, m', p) ∧
      BooksStep L.pool B (.kmalloc size align p) B' ∧ Words L b' m' B' := by
  by_cases hex : 0 < size ∧ ∃ c ∈ B.free, blockOrder (requiredSize size align) ≤ c.order
  · obtain ⟨r, n, b', m', hr, hcall, hl, hm, hb⟩ :=
      kmallocBuddy_some align h.lists ho.tiling.of_append hex.1 hs hex.2
    exact ⟨b', m', _, _, hcall, .block hex.1 hslab hr, h.lendBlock ho hl hm hb⟩
  · have hn : size = 0 ∨ ∀ c ∈ B.free, c.order < blockOrder (requiredSize size align) := by
      by_contra hn
      simp only [not_or, not_forall, not_lt] at hn
      obtain ⟨hz, c, hc, hle⟩ := hn
      exact hex ⟨pos_of_ne_zero hz, c, hc, hle⟩
    exact ⟨hp.buddy, m, 0, B, kmallocBuddy_none h.lists hs hn, .null hn, h⟩

variable (align) in
theorem kmallocReal_refines (h : Words L hp.buddy m B) (ho : B.Ok L.pool) (hcfg : HeapConfig L hp)
    (hs : requiredSize size align ≤ 2 ^ 31) (phys : Option Nat) :
    ∃ b' m' p B', kmallocReal hp m size align phys =
        some ({ hp with buddy := b' }, if p = 0 then m' else writePhys m' phys p, p) ∧
      BooksStep L.pool B (.kmalloc size align p) B' ∧ Words L b' m' B' := by
  rw [kmallocReal]
  by_cases hslab : hp.slabIsInitialized = true ∧ size ≤ 2048 ∧ align = 0
  · rw [if_pos hslab]
    obtain ⟨_, hle, rfl⟩ := hslab
    obtain ⟨cache, hcache⟩ := isSome_iff_exists.mp (getSlabIndex_isSome.mpr hle)
    obtain ⟨b', m', p, hcall, hcase⟩ := slabAlloc_refines h ho hcfg hcache
    rw [hcall, bind_some]
    rcases hcase with ⟨rfl, rfl, rfl, -, hno⟩ | ⟨hne, -, B', htake, hw⟩
    · obtain ⟨b', m', p, B', hcall', hstep, hw⟩ :=
        kmallocBuddy_refines 0 h ho hs (.inr (.inr hno))
      refine ⟨b', m', p, B', ?_, hstep, hw⟩
      simp only [ne_eq, not_true_eq_false, if_false]
      rw [hcall', map_some]
      simp only [ite_not]
    · exact ⟨b', m', p, B', by simp only [ne_eq, hne, not_false_eq_true, if_true, if_false], htake.step hcache, hw⟩
  · have hnone : getSlabIndex size = none ∨ align ≠ 0 ∨ ∀ c ∈ B.free, c.order < slabOrder := by
      by_cases ha : align = 0
      · left
        apply not_isSome_iff_eq_none.mp
        intro hsome
        exact hslab ⟨hcfg.initialized, getSlabIndex_isSome.mp hsome, ha⟩
      · exact .inr (.inl ha)
    obtain ⟨b', m', p, B', hcall, hstep, hw⟩ := kmallocBuddy_refines align h ho hs hnone
    refine ⟨b', m', p, B', ?_, hstep, hw⟩
    rw [if_neg hslab, bind_some]
    simp only [ne_eq, not_true_eq_false, if_false]
    rw [hcall, map_some]
    simp only [ite_not]

end RetroOs.Kernel
