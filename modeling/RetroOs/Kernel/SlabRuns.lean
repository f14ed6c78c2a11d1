import RetroOs.Kernel.HeapRuns

/-! Runs of the slab allocator by itself: `slab_alloc` and `slab_free` of live objects in any order, and writes of the
callers. A caller holds the whole object, whatever size was asked for. -/
namespace RetroOs.Kernel
open Lib Block Memory List

inductive SlabEvent where
  | alloc (size ptr : Nat)
  | free (ptr : Nat)
  | write

def slabObject (size ptr : Nat) : Allocation := ⟨ptr, (getSlabIndex size).elim 0 objectSize, 0⟩

inductive SlabStep (L : HeapLayout) (s : HeapState) : SlabEvent → HeapState → Prop where
  | alloc {size p : Nat} {h : Heap} {m : Memory} (hcall : slabAlloc s.heap s.mem size = some (h, m, p)) :
      SlabStep L s (.alloc size p) ⟨h, m, if p = 0 then s.live else slabObject size p :: s.live⟩
  | free {before after : List Allocation} {a : Allocation} {m : Memory} {handled : Bool} (ha : s.live = before ++ a :: after)
      (hcall : slabFree s.mem a.ptr = some (m, handled)) : SlabStep L s (.free a.ptr) ⟨s.heap, m, before ++ after⟩
  | write {m : Memory} (hm : ∀ x, m x ≠ s.mem x → Callers L s.live x) : SlabStep L s .write { s with mem := m }

structure SlabsSound (L : HeapLayout) (s : HeapState) (slabs : List Slab) : Prop where
  caches : ∀ i < 7, CacheWords L s.mem slabs i
  words : ∀ t ∈ slabs, SlabWords L s.mem t
  cache_lt : ∀ t ∈ slabs, t.cache < 7
  acyclic : ∀ t ∈ slabs, t.free.Nodup
  below : ∀ t ∈ slabs, ∀ i ∈ t.free, i < capacity t.cache
  inside : ∀ t ∈ slabs, ∀ i < capacity t.cache, ∀ x, t.object L.pool i ≤ x → x < t.object L.pool i + objectSize t.cache →
    x / 4096 = t.header L.pool / 4096
  apart : ∀ t ∈ slabs, ∀ i ∈ t.free, ∀ a ∈ s.live, ∀ x, a.Holds x →
    ¬ (t.object L.pool i ≤ x ∧ x < t.object L.pool i + objectSize t.cache)
  live : ∀ a ∈ s.live, ∃ t ∈ slabs, ∃ i < capacity t.cache, a = ⟨t.object L.pool i, objectSize t.cache, 0⟩
  /-- Every object is on the free list of its slab or live. -/
  cover : ∀ t ∈ slabs, ∀ i < capacity t.cache, i ∈ t.free ∨ ⟨t.object L.pool i, objectSize t.cache, 0⟩ ∈ s.live
  disjoint : s.live.Pairwise fun a b => ∀ x, a.Holds x → ¬ b.Holds x

/-- No object is lost: what is not on the free list of its slab is lent. -/
def Books.Lent (B : Books) : Prop :=
  ∀ t ∈ B.slabs, ∀ i < capacity t.cache, i ∈ t.free ∨ .object t.addr i ∈ B.live.map Lease.origin

structure SlabBooks (L : HeapLayout) (s : HeapState) (B : Books) : Prop extends Represents L s B where
  whole : ∀ a ∈ B.live, ∃ t ∈ B.slabs, ∃ i, a.origin = .object t.addr i ∧ a.size = objectSize t.cache
  lent : B.Lent

variable {L : HeapLayout} {P : Pool} {B B' : Books} {s t : HeapState} {m m₀ : Memory} {e : SlabEvent} {a : Allocation} {c : Lease}
  {addr cache index p size size' : Nat} {slabs : List Slab} {before after : List Allocation} {f : List Nat → List Nat}

private theorem slabAlloc_congr (h : Heap) (m : Memory) (hs : getSlabIndex size = getSlabIndex size') :
    slabAlloc h m size = slabAlloc h m size' := by
  rw [slabAlloc, slabAlloc, hs]

private theorem getSlabIndex_objectSize (h : cache < 7) : getSlabIndex (objectSize cache) = some cache := by
  interval_cases cache <;> rfl

private theorem object_end (hc : cache < 7) (hi : index < capacity cache) : index * objectSize cache + objectSize cache ≤ 4064 := by
  have hroom : capacity cache * objectSize cache ≤ 4064 := by
    interval_cases cache <;> decide
  have hle := Nat.mul_le_mul_right (objectSize cache) hi
  rw [Nat.succ_mul] at hle
  exact hle.trans hroom

theorem updateFree_mem (addr : Nat) (f : List Nat → List Nat) {t : Slab} (h : t ∈ slabs) :
    ∃ u ∈ updateFree slabs addr f, u.addr = t.addr ∧ u.cache = t.cache := by
  refine ⟨_, mem_map_of_mem h, ?_⟩
  split <;> exact ⟨rfl, rfl⟩

theorem TakesObject.slab (h : TakesObject P B cache size p B') {t : Slab} (ht : t ∈ B.slabs) :
    ∃ u ∈ B'.slabs, u.addr = t.addr ∧ u.cache = t.cache := by
  cases h with
  | object _ _ _ => exact updateFree_mem _ _ ht
  | grow _ _ => exact updateFree_mem _ _ (.tail _ ht)

theorem TakesObject.live (h : TakesObject P B cache size p B') :
    ∃ t ∈ B'.slabs, ∃ i, t.cache = cache ∧ B'.live = objectLease P t i size :: B.live := by
  cases h with
  | @object t i rest hs hc hf =>
    obtain ⟨u, hu, haddr, hcache⟩ := updateFree_mem t.addr tail hs
    refine ⟨u, hu, i, hcache.trans hc, ?_⟩
    simp only [Books.lendObject, objectLease, Slab.object, Slab.header, haddr, hcache]
  | @grow r n hn hr =>
    have hnew : ⟨r, cache, range (capacity cache)⟩ ∈ (B.grow cache r n).slabs := .head _
    obtain ⟨u, hu, haddr, hcache⟩ := updateFree_mem r tail hnew
    refine ⟨u, hu, 0, hcache, ?_⟩
    simp only [Books.lendObject, Books.grow, objectLease, Slab.object, Slab.header, haddr, hcache]

private theorem Books.Lent.update {live : List Lease} (h : B.Lent)
    (hf : ∀ t ∈ B.slabs, t.addr = addr → ∀ i ∈ t.free, i ∈ f t.free ∨ .object addr i ∈ live.map Lease.origin)
    (hl : ∀ o ∈ B.live.map Lease.origin, o ∈ live.map Lease.origin ∨
      ∃ i, o = .object addr i ∧ ∀ t ∈ B.slabs, i ∈ f t.free) :
    Books.Lent ⟨B.free, updateFree B.slabs addr f, live⟩ := by
  intro t ht i hi
  rcases mem_updateFree ht with ⟨hs, hne⟩ | ⟨u, hu, rfl, rfl⟩
  · refine (h t hs i hi).imp_right fun ho => (hl _ ho).resolve_right ?_
    rintro ⟨j, he, -⟩
    exact hne (Origin.object.inj he).1
  · rcases h u hu i hi with hfree | ho
    · exact hf u hu rfl i hfree
    · rcases hl _ ho with ho | ⟨j, he, hj⟩
      · exact .inr ho
      · exact .inl ((Origin.object.inj he).2 ▸ hj u hu)

private theorem Books.Lent.lend (h : B.Lent) (hok : B.Ok P) {t : Slab} (ht : t ∈ B.slabs)
    (hi : index ∈ t.free.head?) : (B.lendObject P t index size).Lent := by
  obtain ⟨rest, hrest⟩ := head?_eq_some_iff.mp hi
  refine h.update (fun u hu haddr i hfree => ?_) fun o ho => .inl (.tail _ ho)
  obtain rfl := hok.slab_unique hu ht haddr
  rw [hrest] at hfree ⊢
  rcases mem_cons.mp hfree with rfl | hfree
  · exact .inr (.head _)
  · exact .inl hfree

private theorem TakesObject.lent (h : TakesObject P B cache size p B') (hok : B.Ok P) (hc : cache < 7)
    (hl : B.Lent) : B'.Lent := by
  cases h with
  | object hs _ hf => exact hl.lend hok hs (by rw [hf]; rfl)
  | @grow r n hn hr =>
    have hgrow : (B.grow cache r n).Lent :=
      forall_mem_cons.mpr ⟨fun i hi => .inl (mem_range.mpr hi), hl⟩
    refine hgrow.lend (hok.grow hc hr) (.head _) ?_
    rw [head?_range, if_neg (capacity_pos hc).ne']
    rfl

theorem SlabBooks.write (h : SlabBooks L s B) (hm : ∀ x, m x ≠ s.mem x → Callers L s.live x) :
    SlabBooks L { s with mem := m } B := ⟨h.toRepresents.write hm, h.whole, h.lent⟩

theorem SlabBooks.object (h : SlabBooks L s B) (hc : c ∈ B.live) :
    ∃ t ∈ B.slabs, ∃ i < capacity t.cache, i ∉ t.free ∧ c = objectLease L.pool t i (objectSize t.cache) := by
  obtain ⟨t, ht, i, ho, hs⟩ := h.whole c hc
  cases h.ok.leases c hc with
  | @object u j size hu hj hf hz =>
    have haddr : u.addr = t.addr := (Origin.object.inj ho).1
    obtain rfl := h.ok.slab_unique hu ht haddr
    exact ⟨u, hu, j, hj, hf, by rw [show size = objectSize u.cache from hs]⟩
  | block => cases ho

theorem SlabBooks.alloc (h : SlabBooks L s B) (hs : getSlabIndex size = some cache) :
    (slabAlloc s.heap s.mem size = some (s.heap, s.mem, 0) ∧ (∀ t ∈ B.slabs, t.cache = cache → t.free = []) ∧
        kmallocReal s.heap s.mem 4096 1 none = some (s.heap, s.mem, 0)) ∨
      ∃ h' m p B', slabAlloc s.heap s.mem size = some (h', m, p) ∧ p ≠ 0 ∧
        (∀ x, p ≤ x → x < p + objectSize cache → m x = 0) ∧ SlabBooks L ⟨h', m, slabObject size p :: s.live⟩ B' := by
  have hlt := (getSlabIndex_some hs).1
  have hindex := getSlabIndex_objectSize hlt
  obtain ⟨b', m', p, hcall, hcase⟩ := slabAlloc_refines h.words h.ok h.config hindex
  rw [slabAlloc_congr s.heap s.mem (hs.trans hindex.symm), hcall]
  rcases hcase with ⟨rfl, rfl, rfl, hfull, hno⟩ | ⟨hne, hzero, B', htake, hw⟩
  · refine .inl ⟨rfl, hfull, ?_⟩
    rw [kmallocReal_page]
    exact kmallocBuddy_none h.words.lists (by decide) (.inr (by rwa [blockOrder_page]))
  · obtain ⟨t, ht, i, hc, hlive⟩ := htake.live
    have hstep := htake.step hindex
    have hallocs := hstep.live_kmalloc
    rw [if_neg hne, ← h.live] at hallocs
    refine .inr ⟨_, m', p, B', rfl, hne, hzero, ⟨hstep.ok h.ok, ⟨h.config.startAddress, h.config.endAddress,
      h.config.initialized, h.config.slabCaches⟩, hw, ?_⟩, ?_, htake.lent h.ok hlt h.lent⟩
    · rw [hallocs, slabObject, hs]
      rfl
    · rw [hlive]
      refine forall_mem_cons.mpr ⟨⟨t, ht, i, rfl, by rw [hc]; rfl⟩, fun a ha => ?_⟩
      obtain ⟨u, hu, j, ho, hz⟩ := h.whole a ha
      obtain ⟨v, hv, haddr, hcache⟩ := htake.slab hu
      exact ⟨v, hv, j, by rw [ho, haddr], by rw [hz, hcache]⟩

theorem SlabBooks.free (h : SlabBooks L s B) (ha : s.live = before ++ a :: after) :
    ∃ m B', slabFree s.mem a.ptr = some (m, true) ∧ SlabBooks L ⟨s.heap, m, before ++ after⟩ B' := by
  have hmap : B.live.map Lease.toAllocation = before ++ a :: after := h.live ▸ ha
  obtain ⟨before', rest, hlive, rfl, hrest⟩ := map_eq_append_iff.mp hmap
  obtain ⟨c, after', rfl, rfl, rfl⟩ := map_eq_cons_iff.mp hrest
  have hc : c ∈ B.live := by
    rw [hlive]
    exact mem_append_right _ (.head _)
  have hsub : ∀ d ∈ before' ++ after', d ∈ B.live := fun d hd => by
    rw [hlive]
    exact perm_middle.mem_iff.mpr (.tail _ hd)
  obtain ⟨t, ht, i, hi, hf, rfl⟩ := h.object hc
  obtain ⟨m, hcall, hw⟩ := slabFree_object (before' ++ after') h.words h.ok ht hi hf fun _ _ _ hb => hsub _ hb
  refine ⟨m, _, hcall, ⟨h.ok.giveBack hlive, ⟨h.config.startAddress, h.config.endAddress, h.config.initialized,
    h.config.slabCaches⟩, hw, ?_⟩, fun d hd => ?_, h.lent.update (fun _ _ _ _ hfree => .inl (.tail _ hfree))
      fun o ho => ?_⟩
  · exact (map_append).symm
  · obtain ⟨u, hu, j, ho, hz⟩ := h.whole d (hsub d hd)
    obtain ⟨v, hv, haddr, hcache⟩ := updateFree_mem t.addr (i :: ·) hu
    exact ⟨v, hv, j, by rw [ho, haddr], by rw [hz, hcache]⟩
  · obtain ⟨d, hd, rfl⟩ := mem_map.mp ho
    rw [hlive] at hd
    rcases mem_cons.mp (perm_middle.mem_iff.mp hd) with rfl | hd
    · exact .inr ⟨i, rfl, fun _ _ => .head _⟩
    · exact .inl (mem_map_of_mem hd)

theorem SlabBooks.step (h : SlabBooks L s B) (hs : SlabStep L s e t) : ∃ B', SlabBooks L t B' := by
  cases hs with
  | @alloc size p h' m hcall =>
    cases hindex : getSlabIndex size with
    | none =>
      rw [slabAlloc, hindex] at hcall
      obtain ⟨rfl, rfl, rfl⟩ : s.heap = h' ∧ s.mem = m ∧ 0 = p := by simpa using hcall
      exact ⟨B, h⟩
    | some cache =>
      rcases h.alloc hindex with ⟨hnull, -⟩ | ⟨h'', m', p', B', hsome, hne, -, hB⟩
      · obtain ⟨rfl, rfl, rfl⟩ : s.heap = h' ∧ s.mem = m ∧ 0 = p := by simpa [hnull] using hcall
        exact ⟨B, h⟩
      · obtain ⟨rfl, rfl, rfl⟩ : h'' = h' ∧ m' = m ∧ p' = p := by simpa [hsome] using hcall
        rw [if_neg hne]
        exact ⟨B', hB⟩
  | @free before after a m handled ha hcall =>
    obtain ⟨m', B', hcall', hB⟩ := h.free ha
    obtain ⟨rfl, -⟩ : m' = m ∧ true = handled := by simpa [hcall'] using hcall
    exact ⟨B', hB⟩
  | write hm => exact ⟨B, h.write hm⟩

theorem SlabBooks.sound (h : SlabBooks L s B) : SlabsSound L s B.slabs where
  caches := h.words.caches
  words := h.words.slabs
  cache_lt := h.ok.cache_lt
  acyclic := h.ok.nodup
  below := h.ok.index_lt
  inside t ht i hi x hl hu := by
    have hend := object_end (h.ok.cache_lt t ht) hi
    have hpage : (L.pool.start + t.addr) % 4096 = 0 := (h.ok.slab_good ht).page
    simp only [Slab.object, Slab.header] at hl hu ⊢
    omega
  apart t ht i hi a ha x hx hobj := by
    refine h.callers (.inl ⟨a, ha, hx⟩) (.object ht hi hobj.1 hobj.2)
  live a ha := by
    rw [h.live] at ha
    obtain ⟨c, hc, rfl⟩ := mem_map.mp ha
    obtain ⟨t, ht, i, hi, -, rfl⟩ := h.object hc
    exact ⟨t, ht, i, hi, rfl⟩
  cover t ht i hi := by
    refine (h.lent t ht i hi).imp_right fun ho => ?_
    obtain ⟨c, hc, he⟩ := mem_map.mp ho
    obtain ⟨u, hu, j, -, -, rfl⟩ := h.object hc
    obtain ⟨haddr, rfl⟩ := Origin.object.inj he
    obtain rfl := h.ok.slab_unique hu ht haddr
    rw [h.live]
    exact mem_map_of_mem hc
  disjoint := h.toRepresents.disjoint

private theorem heapBoot_slabBooks (L : HeapLayout) (m₀ : Memory) :
    ∃ s B, heapBoot L m₀ = some s ∧ SlabBooks L s B ∧ s.live = [] := by
  obtain ⟨s, l, hboot, h, -⟩ := heapBoot_represents L m₀
  exact ⟨s, _, hboot, ⟨h, forall_mem_nil _, forall_mem_nil _⟩, h.live⟩

theorem SlabBooks.run {es : List SlabEvent} (h : SlabBooks L s B) (hr : Trace (SlabStep L) s es t) :
    ∃ B', SlabBooks L t B' := by
  induction hr with
  | nil => exact ⟨B, h⟩
  | snoc _ hs ih =>
    obtain ⟨B', h'⟩ := ih
    exact h'.step hs

/-- A request that is not answered with null gets a cleared object that no live object meets, large enough for it. -/
structure FreshObject (s : HeapState) (size p : Nat) (m : Memory) : Prop where
  nonnull : p ≠ 0
  room : size ≤ (slabObject size p).size
  zeroed : ∀ x, (slabObject size p).Holds x → m x = 0
  unshared : ∀ a ∈ s.live, ∀ x, a.Holds x → ¬ (slabObject size p).Holds x

/-- In every run the pages of the slabs are sound; `slab_free` takes each live object back, and `slab_alloc` gives a fresh
object, or null where every object of the cache is in use and the heap has no page left. -/
theorem slab_runs (L : HeapLayout) (m₀ : Memory) :
    ∃ s₀, heapBoot L m₀ = some s₀ ∧ ∀ es s, Trace (SlabStep L) s₀ es s →
      ∃ slabs, SlabsSound L s slabs ∧ (∀ a ∈ s.live, ∃ m, slabFree s.mem a.ptr = some (m, true)) ∧
        ∀ size ≤ 2048, (∃ h m p, slabAlloc s.heap s.mem size = some (h, m, p) ∧ FreshObject s size p m) ∨
          slabAlloc s.heap s.mem size = some (s.heap, s.mem, 0) ∧
            (∀ t ∈ slabs, getSlabIndex size = some t.cache → t.free = []) ∧
            kmallocReal s.heap s.mem 4096 1 none = some (s.heap, s.mem, 0) := by
  obtain ⟨s₀, B₀, hboot, h₀, -⟩ := heapBoot_slabBooks L m₀
  refine ⟨s₀, hboot, fun es s hr => ?_⟩
  obtain ⟨B, h⟩ := h₀.run hr
  refine ⟨B.slabs, h.sound, fun a ha => ?_, fun size hsize => ?_⟩
  · obtain ⟨before, after, hsplit⟩ := append_of_mem ha
    obtain ⟨m, B', hcall, -⟩ := h.free hsplit
    exact ⟨m, hcall⟩
  · obtain ⟨cache, hindex⟩ := Option.isSome_iff_exists.mp (getSlabIndex_isSome.mpr hsize)
    rcases h.alloc hindex with ⟨hcall, hfull, hpage⟩ | ⟨h', m, p, B', hcall, hne, hzero, hB⟩
    · refine .inr ⟨hcall, fun t ht hc => hfull t ht ?_, hpage⟩
      exact Option.some.inj (hc.symm.trans hindex)
    · have hobj : (slabObject size p).size = objectSize cache := by
        rw [slabObject, hindex]
        rfl
      have hdis := (pairwise_cons.mp hB.toRepresents.disjoint).1
      refine .inl ⟨h', m, p, hcall, hne, ?_, ?_, fun a ha x hx hp => hdis a ha x hp hx⟩
      · rw [hobj]
        exact (getSlabIndex_some hindex).2
      · rintro x ⟨hl, hu⟩
        rw [hobj] at hu
        exact hzero x hl hu

/-- A run of `slab_alloc` and `slab_free`. -/
example : ∃ s₀ s p, heapBoot kernelHeap (fun _ => 0) = some s₀ ∧ p ≠ 0 ∧
    Trace (SlabStep kernelHeap) s₀ [.alloc 100 p, .free p] s := by
  obtain ⟨s₀, l₀, b, m, q, B, hboot, h₀, hq, hpage, -⟩ := @kernelHeap_gives 4096 1 (by decide) blockOrder_page.le
  have hbooks : SlabBooks kernelHeap s₀ ⟨l₀, [], []⟩ := ⟨h₀, forall_mem_nil _, forall_mem_nil _⟩
  rcases hbooks.alloc (show getSlabIndex 100 = some 2 by decide) with ⟨-, -, hnull⟩ | ⟨h', m', p, B', hcall, hp, -, h₁⟩
  · exact absurd (Prod.mk.inj (Prod.mk.inj (Option.some.inj (hpage.symm.trans hnull))).2).2 hq
  · have halloc : SlabStep kernelHeap s₀ (.alloc 100 p) _ := .alloc hcall
    rw [if_neg hp] at halloc
    obtain ⟨m'', -, hfree, -⟩ := h₁.free (List.nil_append _).symm
    exact ⟨s₀, _, p, hboot, hp, (Trace.nil.snoc halloc).snoc (.free (List.nil_append _).symm hfree)⟩

theorem SlabBooks.length_lt (h : SlabBooks L s B) (hl : ∀ a ∈ s.live, a.size = 2048) : s.live.length < 2 ^ 20 := by
  have hsub : B.live.map Lease.origin ⊆ B.slabs.map fun t => Origin.object t.addr 0 := by
    intro o ho
    obtain ⟨c, hc, rfl⟩ := mem_map.mp ho
    obtain ⟨t, ht, i, hi, -, rfl⟩ := h.object hc
    have hsize : objectSize t.cache = 2048 := by
      refine hl (objectLease L.pool t i (objectSize t.cache)).toAllocation ?_
      rw [h.live]
      exact mem_map_of_mem hc
    have hone : capacity t.cache = 1 := by rw [capacity, hsize]
    obtain rfl : i = 0 := by omega
    exact mem_map_of_mem ht
  have hle := (h.ok.origins.subperm hsub).length_le
  have htiles := h.ok.tiling.length_lt
  simp only [length_map] at hle
  simp only [Books.held, length_append, length_map] at htiles
  rw [h.live, length_map]
  omega

/-- A caller that goes on asking gets null in the end: `slab_alloc` does not always give an object. -/
theorem slabAlloc_null : ¬ ∀ s₀ es s, heapBoot kernelHeap (fun _ => 0) = some s₀ → Trace (SlabStep kernelHeap) s₀ es s →
    ∀ size, 1 ≤ size → size ≤ 2048 → ∃ h m p, slabAlloc s.heap s.mem size = some (h, m, p) ∧ p ≠ 0 := by
  intro hall
  obtain ⟨s₀, B₀, hboot, h₀, hlive⟩ := heapBoot_slabBooks kernelHeap fun _ => 0
  have hmany : ∀ n, ∃ es s, Trace (SlabStep kernelHeap) s₀ es s ∧ s.live.length = n ∧ ∀ a ∈ s.live, a.size = 2048 := by
    intro n
    induction n with
    | zero => exact ⟨[], s₀, .nil, by rw [hlive]; rfl, by rw [hlive]; exact fun a ha => nomatch ha⟩
    | succ n ih =>
      obtain ⟨es, s, hr, hn, hsize⟩ := ih
      obtain ⟨h, m, p, hcall, hp⟩ := hall s₀ es s hboot hr 2048 (by decide) le_rfl
      have hs := SlabStep.alloc (L := kernelHeap) hcall
      rw [if_neg hp] at hs
      exact ⟨_, _, hr.snoc hs, by rw [length_cons, hn], forall_mem_cons.mpr ⟨rfl, hsize⟩⟩
  obtain ⟨es, s, hr, hn, hsize⟩ := hmany (2 ^ 20)
  obtain ⟨B, h⟩ := h₀.run hr
  exact absurd hn (h.length_lt hsize).ne

end RetroOs.Kernel
