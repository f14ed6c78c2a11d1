import RetroOs.Kernel.HeapFree
import RetroOs.Lib.Runs

/-! Runs of the heap: any sequence of `kmalloc_real` and `kfree` calls and of writes by the callers
to the bytes they hold, matched step by step by the books. -/
namespace RetroOs.Kernel
open Lib Block Memory List

structure HeapState where
  heap : Heap
  mem : Memory
  /-- Allocations handed out and not yet freed. -/
  live : List Allocation

/-- Bytes that belong to the callers: those of their allocations, and all memory outside the heap. -/
def Callers (L : HeapLayout) (live : List Allocation) (x : Nat) : Prop :=
  (∃ a ∈ live, a.Holds x) ∨
    (x < L.pool.start ∨ L.pool.stop ≤ x) ∧ (x < L.slabCaches ∨ L.slabCaches + 56 ≤ x)

/-- A free of aligned memory needs that the data does not pass for a slab header. -/
inductive HeapStep (L : HeapLayout) (s : HeapState) : HeapEvent → HeapState → Prop where
  | kmalloc {size p : Nat} {align : Int} {phys : Option Nat} {h : Heap} {m : Memory} (hs : size ≤ 2 ^ 27)
      (hphys : ∀ a ∈ phys, ∀ x, a ≤ x → x < a + 4 → Callers L s.live x)
      (hcall : kmallocReal s.heap s.mem size align phys = some (h, m, p)) :
      HeapStep L s (.kmalloc size align p) ⟨h, m, if p = 0 then s.live else ⟨p, size, align⟩ :: s.live⟩
  | kfree {before after : List Allocation} {a : Allocation} {h : Heap} {m : Memory}
      (ha : s.live = before ++ a :: after) (hc : a.align ≠ 0 → ¬ SlabLookalike s.mem a.ptr)
      (hcall : kfree s.heap s.mem a.ptr = some (h, m)) :
      HeapStep L s (.kfree a.ptr) ⟨h, m, before ++ after⟩
  | write {m : Memory} (hm : ∀ x, m x ≠ s.mem x → Callers L s.live x) :
      HeapStep L s .write { s with mem := m }

def heapBoot (L : HeapLayout) (m : Memory) : Option HeapState :=
  (initKheap ⟨0, 0, ⟨0, 0, fun _ => 0⟩, false, L.slabCaches⟩ m L.pool.start L.pool.stop).map fun (h, m) =>
    ⟨{ h with slabIsInitialized := true }, slabInit h m, []⟩

structure Represents (L : HeapLayout) (s : HeapState) (B : Books) : Prop where
  ok : B.Ok L.pool
  config : HeapConfig L s.heap
  words : Words L s.heap.buddy s.mem B
  live : s.live = B.live.map Lease.toAllocation

variable {L : HeapLayout} {m m' : Memory} {B B' : Books} {s t : HeapState} {e : HeapEvent} {h : Heap}
  {live : List Allocation} {a : Allocation} {p size x : Nat} {align : Int}

private theorem slabInit_spec (m : Memory) (h : Heap) :
    (∀ i < 7, (slabInit h m).load32 (h.slabCaches + 8 * i) = objectSize i ∧
      (slabInit h m).load32 (h.slabCaches + 8 * i + 4) = 0) ∧
      ∀ x, x < h.slabCaches ∨ h.slabCaches + 56 ≤ x → slabInit h m x = m x := by
  apply forUpto_invariant (fun n m' => (∀ i < n, load32 m' (h.slabCaches + 8 * i) = objectSize i ∧
    load32 m' (h.slabCaches + 8 * i + 4) = 0) ∧
    ∀ x, x < h.slabCaches ∨ h.slabCaches + 56 ≤ x → m' x = m x)
  · exact ⟨fun i hi => absurd hi (by omega), fun _ _ => rfl⟩
  · rintro n hn m' ⟨hw, hout⟩
    have hsize : slabSizes.getD n 0 = objectSize n ∧ objectSize n < 2 ^ 32 := by
      interval_cases n <;> decide
    constructor
    · intro i hi
      rcases Nat.lt_succ_iff_lt_or_eq.mp hi with hi | rfl
      · rw [load32_store32_other _ _ (by omega), load32_store32_other _ _ (by omega),
          load32_store32_other _ _ (by omega), load32_store32_other _ _ (by omega)]
        exact hw i hi
      · rw [load32_store32_other _ _ (by omega), load32_store32 _ _ (by omega), load32_store32 _ _ (by decide)]
        exact ⟨hsize.1, rfl⟩
    · intro x hx
      exact (store32_other (by omega)).trans ((store32_other (by omega)).trans (hout x hx))

theorem heapBoot_represents (L : HeapLayout) (m₀ : Memory) :
    ∃ s l, heapBoot L m₀ = some s ∧ Represents L s ⟨l, [], []⟩ ∧ NoBuddies buddyMaxOrder l ∧
      (L.pool.start ≠ 0 → ∀ x < L.pool.stop - L.pool.start, ∃ c ∈ l, c.Covers x) := by
  obtain ⟨b, m, l, hinit, hl, ht, hn, hcov, -⟩ := buddyInit_refines L.pool m₀
  have hpages : ¬ (L.pool.start % 4096 ≠ 0 ∨ L.pool.stop % 4096 ≠ 0) := by
    have := Nat.mod_eq_zero_of_dvd L.pool.start_page
    have := Nat.mod_eq_zero_of_dvd L.pool.stop_page
    omega
  let h : Heap := ⟨L.pool.start, L.pool.stop, b, false, L.slabCaches⟩
  obtain ⟨hw, hout⟩ := slabInit_spec m h
  refine ⟨⟨{ h with slabIsInitialized := true }, slabInit h m, []⟩, l, ?_, ⟨?_, ⟨rfl, rfl, rfl, rfl⟩, ?_, rfl⟩, hn, hcov⟩
  · rw [heapBoot, initKheap, if_neg hpages, hinit]
    rfl
  · exact ⟨ht, by simp, by simp, by simp, by simp, nodup_nil⟩
  · refine ⟨hl.frame fun c hc x hlo hhi => hout x ?_, fun i hi => ⟨(hw i hi).1, chain_nil.mpr (hw i hi).2⟩,
      by simp, by simp⟩
    have hin := (ht.good c hc).word_le
    have := L.apart
    change x < L.slabCaches ∨ L.slabCaches + 56 ≤ x
    omega

theorem Represents.callers (h : Represents L s B) (hx : Callers L s.live x) :
    ¬ Bookkeeping L.pool L.slabCaches B x := by
  rcases hx with ⟨a, ha, hx⟩ | ⟨hpool, hcaches⟩
  · rw [h.live] at ha
    obtain ⟨c, hc, rfl⟩ := mem_map.mp ha
    exact h.ok.not_bookkeeping L.apart hc hx
  · intro hb
    have hnot : ∀ c : Block, c ∈ B.held ++ B.free → L.pool.start ≤ x → ¬ c.Covers (x - L.pool.start) := by
      intro c hc hl hcov
      have := (h.ok.tiling.good c hc).inside
      simp only [Covers] at hcov
      omega
    cases hb with
    | cache hl hu => omega
    | free hc hl hx => exact hnot _ (mem_append_right _ hc) hl hx
    | slab hs hl hu =>
      refine hnot _ (mem_append_left _ (Books.Ok.slab_mem hs)) (by omega) ?_
      simp only [Slab.object, Slab.header] at hu
      simp only [Covers, Slab.block, slabOrder]
      omega
    | object hs hi hl hu =>
      obtain ⟨hle, hcov⟩ := Books.Ok.object_in_block (h.ok.index_lt _ hs _ hi) ⟨hl, hu⟩
      exact hnot _ (mem_append_left _ (Books.Ok.slab_mem hs)) hle hcov
    | @block addr size align ha hl hu =>
      have hroom := dataOffset_le_block size align
      refine hnot _ (mem_append_left _ (Books.Ok.lease_mem ha rfl)) (by omega) ?_
      simp only [Covers]
      omega

theorem Represents.write (h : Represents L s B) (hm : ∀ x, m x ≠ s.mem x → Callers L s.live x) :
    Represents L { s with mem := m } B := by
  refine ⟨h.ok, h.config, h.words.frame h.ok fun x hx => ?_, h.live⟩
  by_contra hne
  exact h.callers (hm x hne) hx

theorem BooksStep.live_kmalloc (hs : BooksStep L.pool B (.kmalloc size align p) B') :
    B'.live.map Lease.toAllocation =
      if p = 0 then B.live.map Lease.toAllocation
      else ⟨p, size, align⟩ :: B.live.map Lease.toAllocation := by
  cases hs with
  | @object s index _ rest hc hs hf =>
    rw [if_neg (by simp only [Slab.object, Slab.header]; omega)]
    rfl
  | @grow cache r n _ hc hn hr =>
    rw [if_neg (by omega)]
    simp only [Books.lendObject, Books.grow, map_cons, objectLease, Slab.object, Slab.header, Nat.zero_mul]
  | @block r n _ _ hz hb hr =>
    have := dataOffset_le align
    rw [if_neg (by omega)]
    rfl
  | null hn => rw [if_pos rfl]

theorem BooksStep.gives {P : Pool} {c : Block} (hs : BooksStep P B (.kmalloc size align p) B') (hz : 0 < size) (hc : c ∈ B.free)
    (ho : blockOrder (requiredSize size align) ≤ c.order) : p ≠ 0 := by
  cases hs with
  | object => simp only [Slab.object, Slab.header]; omega
  | grow => omega
  | block =>
    have := dataOffset_le align
    omega
  | null hn => exact absurd ho (not_le.mpr (hn.resolve_left hz.ne' c hc))

variable (align) in
theorem Represents.kmalloc (h : Represents L s B) (hs : requiredSize size align ≤ 2 ^ 31) (phys : Option Nat)
    (hphys : ∀ a ∈ phys, ∀ x, a ≤ x → x < a + 4 → Callers L s.live x) :
    ∃ b m p B', kmallocReal s.heap s.mem size align phys = some ({ s.heap with buddy := b }, m, p) ∧
      BooksStep L.pool B (.kmalloc size align p) B' ∧
      Represents L ⟨{ s.heap with buddy := b }, m,
        if p = 0 then s.live else ⟨p, size, align⟩ :: s.live⟩ B' := by
  obtain ⟨b, m, p, B', hcall, hstep, hw⟩ :=
    kmallocReal_refines align h.words h.ok h.config hs phys
  have hlive := hstep.live_kmalloc
  rw [← h.live] at hlive
  have hcfg : HeapConfig L { s.heap with buddy := b } :=
    ⟨h.config.startAddress, h.config.endAddress, h.config.initialized, h.config.slabCaches⟩
  have hr : Represents L ⟨{ s.heap with buddy := b }, m, if p = 0 then s.live else ⟨p, size, align⟩ :: s.live⟩ B' :=
    ⟨hstep.ok h.ok, hcfg, hw, hlive.symm⟩
  refine ⟨b, _, p, B', hcall, hstep, hr.write fun x hx => ?_⟩
  by_cases hp : p = 0
  · exact absurd (by rw [if_pos hp]) hx
  · rw [if_neg hp] at hx
    cases phys with
    | none => exact absurd rfl hx
    | some a =>
      have hrange : a ≤ x ∧ x < a + 4 := by
        by_contra hn
        exact hx (store32_other (by omega))
      rcases hphys a rfl x hrange.1 hrange.2 with ⟨c, hc, hcx⟩ | hout
      · refine .inl ⟨c, ?_, hcx⟩
        simp only [if_neg hp]
        exact .tail _ hc
      · exact .inr hout

theorem Represents.kfree (h : Represents L s B) {before after : List Allocation}
    (ha : s.live = before ++ a :: after) (hc : a.align ≠ 0 → ¬ SlabLookalike s.mem a.ptr) :
    ∃ b m B', Kernel.kfree s.heap s.mem a.ptr = some ({ s.heap with buddy := b }, m) ∧
      BooksStep L.pool B (.kfree a.ptr) B' ∧
      Represents L ⟨{ s.heap with buddy := b }, m, before ++ after⟩ B' := by
  have hmap : B.live.map Lease.toAllocation = before ++ a :: after := h.live ▸ ha
  obtain ⟨before', rest, hlive, rfl, hrest⟩ := map_eq_append_iff.mp hmap
  obtain ⟨c, after', rfl, rfl, rfl⟩ := map_eq_cons_iff.mp hrest
  obtain ⟨b, m, hcall, hw⟩ := kfree_refines h.words h.ok h.config hlive hc
  have hstep : BooksStep L.pool B (.kfree c.ptr) _ := .kfree hlive
  refine ⟨b, m, _, hcall, hstep, hstep.ok h.ok, ⟨h.config.startAddress, h.config.endAddress,
    h.config.initialized, h.config.slabCaches⟩, hw, ?_⟩
  have hgive : (B.giveBack c.origin (before' ++ after')).live = before' ++ after' := by
    cases c.origin <;> rfl
  rw [hgive, map_append]

theorem Represents.step (h : Represents L s B) (hs : HeapStep L s e t) :
    ∃ B', BooksStep L.pool B e B' ∧ Represents L t B' := by
  cases hs with
  | kmalloc hs hphys hcall =>
    obtain ⟨b, m, p, B', hcall', hstep, hr⟩ := h.kmalloc _ ((requiredSize_le _ hs).trans (by decide)) _ hphys
    rw [hcall', Option.some_inj, Prod.mk.injEq, Prod.mk.injEq] at hcall
    obtain ⟨rfl, rfl, rfl⟩ := hcall
    exact ⟨B', hstep, hr⟩
  | kfree ha hc hcall =>
    obtain ⟨b, m, B', hcall', hstep, hr⟩ := h.kfree ha hc
    rw [hcall', Option.some_inj, Prod.mk.injEq] at hcall
    obtain ⟨rfl, rfl⟩ := hcall
    exact ⟨B', hstep, hr⟩
  | write hm => exact ⟨B, .write, h.write hm⟩

theorem Represents.disjoint (h : Represents L s B) :
    s.live.Pairwise fun a b => ∀ x, a.Holds x → ¬ b.Holds x := by
  rw [h.live, pairwise_map]
  exact h.ok.disjoint

theorem Represents.inside (h : Represents L s B) (ha : a ∈ s.live) (hx : a.Holds x) :
    L.pool.start ≤ x ∧ x < L.pool.stop := by
  rw [h.live] at ha
  obtain ⟨c, hc, rfl⟩ := mem_map.mp ha
  have hin : ∀ d ∈ B.held, L.pool.start + d.addr + 2 ^ d.order ≤ L.pool.stop := fun d hd =>
    (h.ok.tiling.good d (mem_append_left _ hd)).inside
  cases h.ok.leases c hc with
  | object hs hi hf hz =>
    obtain ⟨hle, hcov⟩ := Books.Ok.object_in_block hi (Books.Ok.objectLease_holds hz hx)
    have := hin _ (Books.Ok.slab_mem hs)
    simp only [Covers] at hcov
    omega
  | block hz =>
    have hx' := Books.Ok.blockLease_holds hx
    have := hin _ (Books.Ok.lease_mem hc rfl)
    simp only at this
    omega

/-- In every run the books follow event by event, `kfree` giving back the object or block that
`kmalloc_real` took; the live allocations are apart from each other and from what the allocators
use, and the calls return. -/
theorem heap_runs_account (L : HeapLayout) (m₀ : Memory) :
    ∃ s₀ l₀, heapBoot L m₀ = some s₀ ∧ ∀ es s, Trace (HeapStep L) s₀ es s →
      ∃ B, Trace (BooksStep L.pool) ⟨l₀, [], []⟩ es B ∧ Represents L s B ∧
        s.live.Pairwise (fun a b => ∀ x, a.Holds x → ¬ b.Holds x) ∧
        (∀ a ∈ s.live, ∀ x, a.Holds x → (L.pool.start ≤ x ∧ x < L.pool.stop) ∧
          ¬ Bookkeeping L.pool L.slabCaches B x) ∧
        (∀ size ≤ 2 ^ 27, ∀ align phys, (kmallocReal s.heap s.mem size align phys).isSome) ∧
        ∀ a ∈ s.live, (a.align ≠ 0 → ¬ SlabLookalike s.mem a.ptr) →
          (kfree s.heap s.mem a.ptr).isSome := by
  obtain ⟨s₀, l₀, hboot, h₀, -⟩ := heapBoot_represents L m₀
  refine ⟨s₀, l₀, hboot, fun es s hr => ?_⟩
  obtain ⟨B, hB, h⟩ := hr.simulates h₀ fun s B e t h hs => Represents.step h hs
  refine ⟨B, hB, h, h.disjoint, fun a ha x hx => ⟨h.inside ha hx, h.callers (.inl ⟨a, ha, hx⟩)⟩, ?_, ?_⟩
  · intro size hs align phys
    obtain ⟨b, m, p, B', hcall, -⟩ := kmallocReal_refines align h.words h.ok h.config ((requiredSize_le align hs).trans (by decide)) phys
    rw [hcall]
    rfl
  · intro a ha hc
    obtain ⟨before, after, hsplit⟩ := append_of_mem ha
    obtain ⟨b, m, B', hcall, -⟩ := h.kfree hsplit hc
    rw [hcall]
    rfl

def kernelHeap : HeapLayout where
  pool :=
    { start := 0xC1000000
      stop := 0xD1000000
      start_page := by decide
      stop_page := by decide
      start_le := by decide
      size_lt := by decide
      stop_lt := by decide }
  slabCaches := 0xC0300000
  caches_lt := by decide
  apart := by decide

/-- The kernel's heap has room for a first request of up to a page. -/
theorem kernelHeap_gives (hz : 0 < size) (ho : blockOrder (requiredSize size align) ≤ slabOrder) :
    ∃ s₀ l₀ b m p B, heapBoot kernelHeap (fun _ => 0) = some s₀ ∧ Represents kernelHeap s₀ ⟨l₀, [], []⟩ ∧ p ≠ 0 ∧
      kmallocReal s₀.heap s₀.mem size align none = some ({ s₀.heap with buddy := b }, m, p) ∧
      BooksStep kernelHeap.pool ⟨l₀, [], []⟩ (.kmalloc size align p) B ∧
      Represents kernelHeap ⟨{ s₀.heap with buddy := b }, m, ⟨p, size, align⟩ :: s₀.live⟩ B := by
  obtain ⟨s₀, l₀, hboot, h₀, hn, hcov⟩ := heapBoot_represents kernelHeap fun _ => 0
  have hsize : requiredSize size align ≤ 2 ^ slabOrder := (size_le_blockOrder _).trans (Nat.pow_le_pow_right (by decide) ho)
  obtain ⟨b, m, p, B, hcall, hbooks, h₁⟩ := h₀.kmalloc align (hsize.trans (by decide)) none (by simp)
  have hgood := h₀.ok.tiling.of_append
  obtain ⟨c, hc, hbig, -⟩ := hn.exists_cover hgood.disjoint (fun c hc => (hgood.good c hc).aligned)
    (show (⟨0, slabOrder⟩ : Block).Aligned from Nat.dvd_zero _) (by decide)
    fun x hx => hcov (by decide) x (hx.2.trans_le (by decide))
  have hp : p ≠ 0 := hbooks.gives hz hc (ho.trans hbig)
  rw [if_neg hp] at h₁
  exact ⟨s₀, l₀, b, m, p, B, hboot, h₀, hp, hcall, hbooks, h₁⟩

/-- A run of `kmalloc_real` and `kfree`. -/
example : ∃ s₀ s p, heapBoot kernelHeap (fun _ => 0) = some s₀ ∧ p ≠ 0 ∧
    Trace (HeapStep kernelHeap) s₀ [.kmalloc 4096 0 p, .kfree p] s := by
  obtain ⟨s₀, l₀, b, m, p, B, hboot, -, hp, hcall, -, h⟩ := @kernelHeap_gives 4096 0 (by decide)
    (max_le (Nat.clog_le_of_le_pow (by decide)) (by decide))
  have hkmalloc : HeapStep kernelHeap s₀ (.kmalloc 4096 0 p) _ := .kmalloc (by decide) (by simp) hcall
  rw [if_neg hp] at hkmalloc
  obtain ⟨b', m', B', hfree, -⟩ := h.kfree (List.nil_append _).symm fun halign => absurd rfl halign
  exact ⟨s₀, _, p, hboot, hp, (Trace.nil.snoc hkmalloc).snoc (.kfree (List.nil_append _).symm (fun halign => absurd rfl halign) hfree)⟩

/-- A slab header in the first words of an allocation: its `cache` points to the size 8 after it. -/
def forgeHeader (m : Memory) (p : Nat) : Memory :=
  ((m.store32 p slabMagic).store32 (p + 4) (p + 8)).store32 (p + 8) 8

private theorem forgeHeader_size (hp : p + 8 < 2 ^ 32) :
    (forgeHeader m p).load32 ((forgeHeader m p).load32 (p + 4)) = 8 := by
  have h8 : (forgeHeader m p).load32 (p + 8) = 8 := load32_store32 _ _ (by decide)
  have h4 : (forgeHeader m p).load32 (p + 4) = p + 8 := by
    rw [forgeHeader, load32_store32_other _ _ (by omega), load32_store32 _ _ hp]
  rw [h4, h8]

private theorem forgeHeader_lookalike (hp : p + 8 < 2 ^ 32) : SlabLookalike (forgeHeader m p) p := by
  refine ⟨?_, .inr (by rw [forgeHeader_size hp]; decide)⟩
  rw [forgeHeader, load32_store32_other _ _ (by omega), load32_store32_other _ _ (by omega),
    load32_store32 _ _ (by decide)]

private theorem forgeHeader_other (hx : x < p ∨ p + 12 ≤ x) : forgeHeader m p x = m x :=
  (store32_other (by omega)).trans ((store32_other (by omega)).trans (store32_other (by omega)))

/-- A page asked for with `align`, the forged header written to it, and `kfree`: the call returns,
and no free list has the block. -/
theorem kfree_loses_block :
    ∃ s₀ es s a, heapBoot kernelHeap (fun _ => 0) = some s₀ ∧ Trace (HeapStep kernelHeap) s₀ es s ∧
      s.live = [a] ∧ ∃ h m free, kfree s.heap s.mem a.ptr = some (h, m) ∧
        FreeLists kernelHeap.pool h.buddy m free ∧
        ∀ c ∈ free, ¬ c.Covers (a.ptr - kernelHeap.pool.start) := by
  obtain ⟨s₀, l₀, b, m, p, B, hboot, h₀, hp, hcall, hbooks, h₁⟩ := @kernelHeap_gives 4096 1 (by decide) blockOrder_page.le
  cases hbooks with
  | null => exact absurd rfl hp
  | @block r n _ _ hz hb hr =>
    have hlease : blockLease kernelHeap.pool r 4096 1 ∈
      (Books.lendBlock kernelHeap.pool ⟨l₀, [], []⟩ r n 4096 1).live := .head _
    have hgood := h₁.ok.tiling.good _ (mem_append_left _ (Books.Ok.lease_mem hlease rfl))
    have hin := hgood.inside
    have hpage : (kernelHeap.pool.start + r) % 4096 = 0 := GoodBlock.page hgood
    have hoff : dataOffset 1 = 0x1004 := rfl
    have hstop := kernelHeap.pool.stop_lt
    have hpow : requiredSize 4096 1 ≤ 2 ^ blockOrder (requiredSize 4096 1) := size_le_blockOrder _
    have hreq : requiredSize 4096 1 = 8216 := rfl
    simp only at hin
    generalize hptr : kernelHeap.pool.start + r + dataOffset 1 = p at *
    have hwrite : HeapStep kernelHeap ⟨{ s₀.heap with buddy := b }, m, ⟨p, 4096, 1⟩ :: s₀.live⟩ .write
        ⟨{ s₀.heap with buddy := b }, forgeHeader m p, ⟨p, 4096, 1⟩ :: s₀.live⟩ :=
      .write fun x hx => .inl ⟨_, .head _, by
        by_contra hout
        simp only [Allocation.Holds] at hout
        exact hx (forgeHeader_other (by omega))⟩
    have h₂ := h₁.write fun x hx => by
      cases hwrite with
      | write hm => exact hm x hx
    have hlive : s₀.live = [] := h₀.live
    have hkmalloc : HeapStep kernelHeap s₀ (.kmalloc 4096 1 p) _ := .kmalloc (by decide) (by simp) hcall
    rw [if_neg hp] at hkmalloc
    refine ⟨s₀, _, _, ⟨p, 4096, 1⟩, hboot, (Trace.nil.snoc hkmalloc).snoc hwrite, by rw [hlive], ?_⟩
    rcases kfree_lookalike (p := p) h₂.config (by omega) (forgeHeader_lookalike (by omega)) with
      ⟨hzero, -⟩ | ⟨m', hsome, hother⟩
    · have height : (forgeHeader m p).load32 ((forgeHeader m p).load32 (p + 4)) = 8 := forgeHeader_size (by omega)
      exact absurd (height.symm.trans hzero) (by decide)
    · have h₃ := h₂.write fun x hx => .inl ⟨_, .head _, by
        by_contra hout
        simp only [Allocation.Holds] at hout
        exact hx (hother x (by omega))⟩
      refine ⟨_, m', _, hsome, h₃.words.lists, fun c hc hcx => ?_⟩
      refine h₁.ok.held_free (Books.Ok.lease_mem hlease rfl) hc _ ?_ hcx
      simp only [Covers]
      omega

end RetroOs.Kernel
