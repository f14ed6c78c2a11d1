import RetroOs.Kernel.HeapAlloc

/-! A new slab: its page is linked into the cache and all its objects are free. -/
namespace RetroOs.Kernel
open Lib Block Memory Slab

variable {L : HeapLayout} {P : Pool} {h : Heap} {b : Buddy} {m m' : Memory} {B : Books} {s t : Slab}
  {base cache first i index j n page r size x : Nat}

theorem store32_other {a v : Nat} (hx : x < a ∨ a + 4 ≤ x) : m.store32 a v x = m x :=
  store32_agreeOn (a := x) (n := 1) m v (by omega) x le_rfl (by omega)

variable (base) in
/-- The words and the reach of a loop that stores one word in each of `n` objects. -/
theorem linkLoop_spec (hsize : 4 ≤ size) (hn : n ≤ 2 ^ 31) :
    (∀ j < n, (forUpto (fun i m => store32 m (base + i * size) (i + 1)) n m).load32 (base + j * size) = j + 1) ∧
      ∀ x, x < base ∨ base + n * size ≤ x →
        forUpto (fun i m => store32 m (base + i * size) (i + 1)) n m x = m x := by
  apply forUpto_invariant (fun n m' => (∀ j < n, load32 m' (base + j * size) = j + 1) ∧
    ∀ x, x < base ∨ base + n * size ≤ x → m' x = m x)
  · exact ⟨fun j hj => absurd hj (by omega), fun _ _ => rfl⟩
  · rintro i hi m' ⟨hw, hout⟩
    constructor
    · intro j hj
      rcases Nat.lt_succ_iff_lt_or_eq.mp hj with hj | rfl
      · have := Nat.mul_le_mul_right size hj
        rw [Nat.succ_mul] at this
        rw [load32_store32_other _ _ (by omega)]
        exact hw j hj
      · exact load32_store32 _ _ (by omega)
    · intro x hx
      rw [Nat.succ_mul] at hx
      rw [store32_other (by omega)]
      exact hout x (by omega)

variable (base) in
private theorem linkObjects_spec (hsize : 4 ≤ size) (h0 : 0 < n) (hn : n ≤ 2 ^ 31) :
    (∀ j, j + 1 < n → (linkObjects m base size n).load32 (base + j * size) = j + 1) ∧
      (linkObjects m base size n).load32 (base + (n - 1) * size) = 2 ^ 32 - 1 ∧
      ∀ x, x < base ∨ base + n * size ≤ x → linkObjects m base size n x = m x := by
  have hlast : (n + 2 ^ 32 - 1) % 2 ^ 32 = n - 1 := by omega
  obtain ⟨hw, hout⟩ := linkLoop_spec base (m := m) (n := n - 1) hsize (by omega)
  have hmul := Nat.sub_one_mul n size
  have hle : size ≤ n * size := Nat.le_mul_of_pos_left size h0
  simp only [linkObjects, hlast]
  refine ⟨fun j hj => ?_, load32_store32 _ _ (by decide), fun x hx => ?_⟩
  · have hj' : j < n - 1 := by omega
    have := Nat.mul_le_mul_right size hj'
    rw [Nat.succ_mul] at this
    rw [load32_store32_other _ _ (by omega)]
    exact hw j hj'
  · rw [store32_other (by omega)]
    exact hout x (by omega)

private theorem chain_range {next : Nat → Nat} (h0 : 0 < n) (hn : n < 2 ^ 32)
    (hnext : ∀ j, j + 1 < n → next j = j + 1) (hlast : next (n - 1) = 2 ^ 32 - 1) :
    Chain noObject next 0 (List.range n) := by
  have hsuffix : ∀ k, k < n → Chain noObject next (n - 1 - k) (List.range' (n - 1 - k) (k + 1)) := by
    intro k hk
    induction k with
    | zero =>
      rw [Nat.sub_zero, List.range'_one, chain_cons, chain_nil, hlast]
      exact ⟨rfl, by simp only [noObject]; omega, rfl⟩
    | succ k ih =>
      rw [List.range'_succ, chain_cons, hnext _ (by omega), show n - 1 - (k + 1) + 1 = n - 1 - k by omega]
      exact ⟨rfl, by simp only [noObject]; omega, ih (by omega)⟩
  have := hsuffix (n - 1) (by omega)
  rwa [Nat.sub_self, show n - 1 + 1 = n by omega, ← List.range_eq_range'] at this

def linkPrev (m : Memory) (first slab : Nat) : Memory := if first ≠ 0 then m.store32 (first + 12) slab else m

private theorem linkPrev_agreeOn {a : Nat} (ha : first = 0 ∨ a + n ≤ first + 12 ∨ first + 16 ≤ a) :
    AgreeOn m (linkPrev m first page) a n := by
  rw [linkPrev]
  split
  · exact store32_agreeOn _ _ (by omega)
  · exact AgreeOn.refl

structure NewSlab (m m' : Memory) (cache first page size n : Nat) : Prop where
  magic : m'.load32 page = slabMagic
  back : m'.load32 (page + 4) = cache
  next : m'.load32 (page + 8) = first
  count : m'.load32 (page + 16) = n
  firstFree : m'.load32 (page + 20) = 0
  links : ∀ j, j + 1 < n → m'.load32 (page + 24 + j * size) = j + 1
  last : m'.load32 (page + 24 + (n - 1) * size) = 2 ^ 32 - 1
  head : m'.load32 (cache + 4) = page
  other : ∀ x, x < page ∨ page + 4096 ≤ x → x < cache + 4 ∨ cache + 8 ≤ x →
    (first = 0 ∨ x < first + 12 ∨ first + 16 ≤ x) → m' x = m x

private theorem initSlab_spec (hfirst : m.load32 (cache + 4) = first) (hsize : m.load32 cache = size)
    (hcap : (4096 - 24) / size = n) (hn : 0 < n) (h4 : 4 ≤ size)
    (hpage : page < 2 ^ 32) (hcache : cache < 2 ^ 32) (hap : cache + 8 ≤ page ∨ page + 4096 ≤ cache)
    (hap₁ : first = 0 ∨ first + 16 ≤ page ∨ page + 4096 ≤ first)
    (hap₂ : first = 0 ∨ first + 16 ≤ cache ∨ cache + 8 ≤ first) :
    NewSlab m (initSlab m cache page) cache first page size n := by
  have hroom : n * size ≤ 4072 := hcap ▸ Nat.div_mul_le_self _ _
  have hn' : n ≤ 4072 := hcap ▸ Nat.div_le_self _ _
  let m₁ := ((m.store32 page slabMagic).store32 (page + 4) cache).store32 (page + 12) 0
  let m₂ := linkPrev (m₁.store32 (page + 8) first) first page
  let m₃ := m₂.store32 (cache + 4) page
  let m₄ := (m₃.store32 (page + 16) n).store32 (page + 20) 0
  have hkeep₂ : ∀ a k, (a + k ≤ page ∨ page + 4096 ≤ a) → (first = 0 ∨ a + k ≤ first + 12 ∨ first + 16 ≤ a) →
      AgreeOn m m₂ a k := fun a k ha hb =>
    (((store32_agreeOn _ _ (by omega)).trans (store32_agreeOn _ _ (by omega))).trans
      ((store32_agreeOn _ _ (by omega)).trans (store32_agreeOn _ _ (by omega)))).trans (linkPrev_agreeOn hb)
  have hfirst₁ : m₁.load32 (cache + 4) = first := by
    rw [load32_store32_other _ _ (by omega), load32_store32_other _ _ (by omega),
      load32_store32_other _ _ (by omega), hfirst]
  have hfirst₂ : (m₁.store32 (page + 8) first).load32 (cache + 4) = first := by
    rw [load32_store32_other _ _ (by omega), hfirst₁]
  have hsize₃ : m₃.load32 cache = size := by
    rw [load32_store32_other _ _ (by omega), (hkeep₂ cache 4 (by omega) (by omega)).load32, hsize]
  have hsize₄ : m₄.load32 cache = size := by
    rw [load32_store32_other _ _ (by omega), load32_store32_other _ _ (by omega), hsize₃]
  have heq : initSlab m cache page = linkObjects m₄ (page + 24) size n := by
    have hprev : initSlab m cache page =
        (let m := m₃
         let m := (m.store32 (page + 16) ((4096 - 24) / m.load32 cache)).store32 (page + 20) 0
         linkObjects m (page + 24) (m.load32 cache) ((4096 - 24) / m₃.load32 cache)) := by
      simp only [initSlab]
      rw [show load32 (((m.store32 page slabMagic).store32 (page + 4) cache).store32 (page + 12) 0) (cache + 4) =
        first from hfirst₁, hfirst₂]
      rfl
    rw [hprev]
    simp only [hsize₃, hcap]
    rw [show load32 (store32 (store32 m₃ (page + 16) n) (page + 20) 0) cache = size from hsize₄]
  obtain ⟨hlinks, hlast, hout⟩ := linkObjects_spec (page + 24) (m := m₄) h4 hn (by omega)
  have hword : ∀ a, page ≤ a → a + 4 ≤ page + 24 →
      (linkObjects m₄ (page + 24) size n).load32 a = m₄.load32 a := fun a _ ha =>
    AgreeOn.load32 fun x hl hu => hout x (by omega)
  have hfirst_lt : first < 2 ^ 32 := hfirst ▸ load32_lt _ _
  have hheader : ∀ a, page ≤ a → a + 4 ≤ page + 12 → m₄.load32 a = (m₁.store32 (page + 8) first).load32 a := by
    intro a hl hu
    rw [load32_store32_other _ _ (by omega), load32_store32_other _ _ (by omega),
      load32_store32_other _ _ (by omega)]
    exact (linkPrev_agreeOn (by omega)).load32
  rw [heq]
  constructor
  · rw [hword _ le_rfl (by omega), hheader _ le_rfl (by omega), load32_store32_other _ _ (by omega),
      load32_store32_other _ _ (by omega), load32_store32_other _ _ (by omega), load32_store32 _ _ (by decide)]
  · rw [hword _ (by omega) (by omega), hheader _ (by omega) (by omega), load32_store32_other _ _ (by omega),
      load32_store32_other _ _ (by omega), load32_store32 _ _ hcache]
  · rw [hword _ (by omega) (by omega), hheader _ (by omega) (by omega), load32_store32 _ _ hfirst_lt]
  · rw [hword _ (by omega) (by omega), load32_store32_other _ _ (by omega), load32_store32 _ _ (by omega)]
  · rw [hword _ (by omega) (by omega), load32_store32 _ _ (by decide)]
  · exact hlinks
  · exact hlast
  · have hc : (linkObjects m₄ (page + 24) size n).load32 (cache + 4) = m₄.load32 (cache + 4) :=
      AgreeOn.load32 fun x hl hu => hout x (by omega)
    rw [hc, load32_store32_other _ _ (by omega), load32_store32_other _ _ (by omega), load32_store32 _ _ hpage]
  · intro x hx hc hf
    have h₃ : m₄ x = m₃ x := (store32_other (by omega)).trans (store32_other (by omega))
    have h₂ : m₃ x = m₂ x := store32_other (by omega)
    rw [hout x (by omega), h₃, h₂]
    exact hkeep₂ x 1 (by omega) (by omega) x le_rfl (by omega)

private theorem slabHeaders_cons (P : Pool) (s : Slab) (slabs : List Slab) (cache : Nat) :
    slabHeaders P (s :: slabs) cache =
      if s.cache = cache then s.header P :: slabHeaders P slabs cache else slabHeaders P slabs cache := by
  by_cases hc : s.cache = cache <;> simp [slabHeaders, hc]

theorem CacheWords.head_cases {slabs : List Slab} (hw : CacheWords L m slabs cache) :
    m.load32 (L.slabCaches + 8 * cache + 4) = 0 ∨
      ∃ s ∈ slabs, m.load32 (L.slabCaches + 8 * cache + 4) = s.header L.pool := by
  have hc := hw.list
  cases hs : slabHeaders L.pool slabs cache with
  | nil =>
    rw [hs, chain_nil] at hc
    exact .inl hc
  | cons a l =>
    rw [hs] at hc
    obtain ⟨s, hm, rfl⟩ := List.mem_map.mp (show a ∈ slabHeaders L.pool slabs cache from hs ▸ (.head _))
    exact .inr ⟨s, (List.mem_filter.mp hm).1, (chain_cons.mp hc).1⟩

theorem Books.Ok.slab_apart_free (ho : B.Ok P) (hc : cache < 7) (hr : ⟨r, slabOrder + n⟩ ∈ B.free) (ht : t ∈ B.slabs) :
    t.addr + 16384 ≤ r ∨ r + 16384 ≤ t.addr := by
  let s : Slab := ⟨r, cache, List.range (capacity cache)⟩
  have hs : s ∈ (B.grow cache r n).slabs := .head _
  apply (ho.grow hc hr).slabs_apart (.tail _ ht) hs
  rintro rfl
  have hfree : (⟨r, slabOrder + n⟩ : Block).Covers r := ⟨le_rfl, Nat.lt_add_of_pos_right (Nat.two_pow_pos _)⟩
  exact ho.held_free (Books.Ok.slab_mem ht) hr r (covers_addr s.block) hfree

/-- What the words of a new slab at `r` leave alone: the pages of the `slabs`, the `prev` fields of
their headers apart, the pool outside all of them and the cache table outside one list head. -/
structure SlabsKept (L : HeapLayout) (slabs : List Slab) (cache r : Nat) (m m' : Memory) : Prop where
  slab : ∀ t ∈ slabs, ∀ x, t.header L.pool ≤ x → x < t.header L.pool + 4096 →
    x < t.header L.pool + 12 ∨ t.header L.pool + 16 ≤ x → m' x = m x
  pool : ∀ x, L.pool.start ≤ x → x < L.pool.stop → ¬ (⟨r, slabOrder⟩ : Block).Covers (x - L.pool.start) →
    (∀ t ∈ slabs, ¬ t.block.Covers (x - L.pool.start)) → m' x = m x
  caches : ∀ x, L.slabCaches ≤ x → x < L.slabCaches + 56 →
    x < L.slabCaches + 8 * cache + 4 ∨ L.slabCaches + 8 * cache + 8 ≤ x → m' x = m x

theorem CacheWords.newSlab (hw : CacheWords L m B.slabs cache) (ho : B.Ok L.pool) (hc : cache < 7)
    (hr : ⟨r, slabOrder + n⟩ ∈ B.free) :
    NewSlab m (initSlab m (L.slabCaches + 8 * cache) (L.pool.start + r + 0x1004)) (L.slabCaches + 8 * cache)
      (m.load32 (L.slabCaches + 8 * cache + 4)) (L.pool.start + r + 0x1004) (objectSize cache) (capacity cache) := by
  have hin := ((ho.grow hc hr).slab_good (s := ⟨r, cache, List.range (capacity cache)⟩) (.head _)).inside
  have hstop := L.pool.stop_lt
  have hlt := L.caches_lt
  have hapart := L.apart
  have h32 : 32 ≤ objectSize cache := Nat.le_mul_of_pos_right 32 (Nat.two_pow_pos _)
  simp only [block, slabOrder] at hin
  apply initSlab_spec rfl hw.size rfl (capacity_pos hc) (by omega) (by omega) (by omega) (by omega)
  · obtain hf | ⟨t, ht, hf⟩ := hw.head_cases
    · exact .inl hf
    · have := ho.slab_apart_free hc hr ht
      simp only [header] at hf
      omega
  · obtain hf | ⟨t, ht, hf⟩ := hw.head_cases
    · exact .inl hf
    · have hint := (ho.slab_good ht).inside
      simp only [block, slabOrder] at hint
      simp only [header] at hf
      omega

theorem NewSlab.kept (hnew : NewSlab m m' (L.slabCaches + 8 * cache) (m.load32 (L.slabCaches + 8 * cache + 4))
      (L.pool.start + r + 0x1004) (objectSize cache) (capacity cache))
    (hw : CacheWords L m B.slabs cache) (ho : B.Ok L.pool) (hc : cache < 7) (hr : ⟨r, slabOrder + n⟩ ∈ B.free) :
    SlabsKept L B.slabs cache r m m' := by
  have hin := ((ho.grow hc hr).slab_good (s := ⟨r, cache, List.range (capacity cache)⟩) (.head _)).inside
  have hapart := L.apart
  simp only [block, slabOrder] at hin
  have hinold : ∀ t ∈ B.slabs, L.pool.start + t.addr + 16384 ≤ L.pool.stop := fun t ht =>
    (ho.slab_good ht).inside
  constructor
  · intro t ht x hl hu hp
    have := ho.slab_apart_free hc hr ht
    have := hinold t ht
    simp only [header] at hl hu hp
    apply hnew.other x (by omega) (by omega)
    -- Only the first slab of the cache has its `prev` field written.
    obtain hf | ⟨u, hu', hf⟩ := hw.head_cases
    · exact .inl hf
    · by_cases hut : u = t
      · rw [hf, hut]
        simp only [header]
        omega
      · have := ho.slabs_apart hu' ht hut
        simp only [header] at hf
        omega
  · intro x hl hu hx ht
    simp only [Covers, block, slabOrder] at hx ht
    apply hnew.other x (by omega) (by omega)
    obtain hf | ⟨u, hu', hf⟩ := hw.head_cases
    · exact .inl hf
    · have := ht u hu'
      simp only [header] at hf
      omega
  · intro x hl hu hx
    apply hnew.other x (by omega) hx
    obtain hf | ⟨u, hu', hf⟩ := hw.head_cases
    · exact .inl hf
    · have := hinold u hu'
      simp only [header] at hf
      omega

theorem CacheWords.grow (hw : CacheWords L m B.slabs i) (hi : i < 7)
    (hnew : NewSlab m m' (L.slabCaches + 8 * cache) (m.load32 (L.slabCaches + 8 * cache + 4))
      (L.pool.start + r + 0x1004) (objectSize cache) (capacity cache))
    (hkept : SlabsKept L B.slabs cache r m m') : CacheWords L m' (B.grow cache r n).slabs i := by
  have hchain : Chain (· = 0) (fun a => m'.load32 (a + 8)) (m.load32 (L.slabCaches + 8 * i + 4))
      (slabHeaders L.pool B.slabs i) := hw.list.congr fun a ha => by
    obtain ⟨t, ht, rfl⟩ := List.mem_map.mp ha
    have htm := (List.mem_filter.mp ht).1
    exact AgreeOn.load32 fun x hl hu => hkept.slab t htm x (by omega) (by omega) (by omega)
  constructor
  · rw [show m'.load32 (L.slabCaches + 8 * i) = m.load32 (L.slabCaches + 8 * i) from
      AgreeOn.load32 fun x hl hu => hkept.caches x (by omega) (by omega) (by omega)]
    exact hw.size
  · rw [Books.grow, slabHeaders_cons]
    by_cases hci : cache = i
    · subst hci
      rw [if_pos rfl, hnew.head, chain_cons]
      refine ⟨rfl, by simp only [Slab.header]; omega, ?_⟩
      change Chain _ _ (m'.load32 (L.pool.start + r + 0x1004 + 8)) _
      rw [hnew.next]
      exact hchain
    · rw [if_neg hci, show m'.load32 (L.slabCaches + 8 * i + 4) = m.load32 (L.slabCaches + 8 * i + 4) from
        AgreeOn.load32 fun x hl hu => hkept.caches x (by omega) (by omega) (by omega)]
      exact hchain

theorem NewSlab.slabWords (hnew : NewSlab m m' (L.slabCaches + 8 * cache) first
      (L.pool.start + r + 0x1004) (objectSize cache) (capacity cache)) (hc : cache < 7) :
    SlabWords L m' ⟨r, cache, List.range (capacity cache)⟩ := by
  refine ⟨hnew.magic, hnew.back, ?_, ?_⟩
  · rw [List.length_range]
    exact hnew.count
  · change Chain _ _ (m'.load32 (L.pool.start + r + 0x1004 + 20)) _
    rw [hnew.firstFree]
    exact chain_range (capacity_pos hc) ((Nat.div_le_self _ _).trans_lt (by decide)) hnew.links hnew.last

theorem Words.grow {b' : Buddy} {m₁ : Memory} (h : Words L b m B) (ho : B.Ok L.pool) (hc : cache < 7)
    (hr : ⟨r, slabOrder + n⟩ ∈ B.free) (hl : FreeLists L.pool b' m₁ (B.split r slabOrder n))
    (hm : ∀ x, Outside L.pool B.free x → m₁ x = m x) :
    Words L b' (initSlab m₁ (L.slabCaches + 8 * cache) (L.pool.start + r + 0x1004)) (B.grow cache r n) := by
  have ho' : (B.grow cache r n).Ok L.pool := ho.grow hc hr
  have hs : ⟨r, cache, List.range (capacity cache)⟩ ∈ (B.grow cache r n).slabs := .head _
  have hw : Words L b' m₁ ⟨B.split r slabOrder n, B.slabs, B.live⟩ :=
    h.frame_used hl fun x hx => hm x (hx.outside ho)
  have hcw : ∀ i < 7, CacheWords L m₁ B.slabs i := hw.caches
  have hnew := (hcw cache hc).newSlab ho hc hr
  have hkept := hnew.kept (hcw cache hc) ho hc hr
  refine ⟨hl.frame fun c hcf x hlo hhi => ?_, fun i hi => (hcw i hi).grow hi hnew hkept, ?_,
    fun addr size align ha => ?_⟩
  · have hg := ho'.tiling.of_append.good c hcf
    have hgin := hg.inside
    have hp := Nat.pow_le_pow_right (show 0 < 2 by omega) hg.min_le
    simp only [buddyMinOrder] at hp
    have hcov : c.Covers (x - L.pool.start) := by
      simp only [Covers]
      omega
    exact hkept.pool x (by omega) (by omega) (fun hx => ho'.held_free (Books.Ok.slab_mem hs) hcf _ hx hcov)
      fun t ht hx => ho'.held_free (Books.Ok.slab_mem (.tail _ ht)) hcf _ hx hcov
  · refine List.forall_mem_cons.mpr ⟨hnew.slabWords hc, fun t ht => ?_⟩
    apply (hw.slabs t ht).frame
    · exact fun x hl hu => hkept.slab t ht x hl (by omega) (by omega)
    · exact fun x hl hu => hkept.slab t ht x (by omega) (by omega) (by omega)
    · intro i hi x hl hu
      have := object_le (ho.index_lt t ht i hi)
      have : 32 ≤ objectSize t.cache := Nat.le_mul_of_pos_right 32 (Nat.two_pow_pos _)
      simp only [object] at hl hu
      exact hkept.slab t ht x (by omega) (by omega) (by omega)
  · apply (hw.blocks addr size align ha).frame
    intro x hlo hhi
    have hroom := dataOffset_le_block size align
    have hgin := (ho.tiling.good _ (List.mem_append_left _ (Books.Ok.lease_mem ha rfl))).inside
    have hcov : (⟨addr, blockOrder (requiredSize size align)⟩ : Block).Covers (x - L.pool.start) := by
      simp only [Covers]
      omega
    exact hkept.pool x (by omega) (by simp only at hgin; omega)
      (fun hx => ho'.slab_block_apart hs ha rfl _ hx hcov)
      fun t ht hx => ho.slab_block_apart ht ha rfl _ hx hcov

end RetroOs.Kernel
