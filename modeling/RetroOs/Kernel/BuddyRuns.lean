import RetroOs.Kernel.BuddyFree
import RetroOs.Kernel.BuddyInit

/-! Runs of the buddy allocator: any sequence of allocations, matching frees and writes by the
callers to the bytes they hold. -/
namespace RetroOs.Kernel
open Lib Block Memory Nat

structure BuddyState where
  buddy : Buddy
  mem : Memory
  /-- Pointers handed out and not yet freed, with the sizes asked for. -/
  live : List (Nat × Nat)

inductive BuddyStep (P : Pool) (s : BuddyState) : BuddyState → Prop where
  | alloc {size p : Nat} {b : Buddy} {m : Memory} (h : buddyAlloc s.buddy s.mem size = some (b, m, p)) :
      BuddyStep P s ⟨b, m, if p = 0 then s.live else (p, size) :: s.live⟩
  | free {ptr size : Nat} {b : Buddy} {m : Memory} (hl : (ptr, size) ∈ s.live)
      (h : buddyFree s.buddy s.mem ptr size = some (b, m)) :
      BuddyStep P s ⟨b, m, s.live.erase (ptr, size)⟩
  /-- Memory outside the pool belongs to others. -/
  | write {m : Memory} (h : ∀ x, P.start ≤ x → x < P.stop →
      (∀ a ∈ s.live, x < a.1 ∨ a.1 + a.2 ≤ x) → m x = s.mem x) :
      BuddyStep P s { s with mem := m }

def blockOrder (size : Nat) : Nat := max (clog 2 size) buddyMinOrder

def liveBlock (P : Pool) (a : Nat × Nat) : Block := ⟨a.1 - P.start, blockOrder a.2⟩

def BuddyState.liveBlocks (P : Pool) (s : BuddyState) : List Block := s.live.map (liveBlock P)

structure BuddyInv (P : Pool) (l₀ : List Block) (s : BuddyState) (free : List Block) : Prop where
  lists : FreeLists P s.buddy s.mem free
  tiling : Tiling P (s.liveBlocks P ++ free)
  start_le : ∀ a ∈ s.live, P.start ≤ a.1
  cover : ∀ x, coverCount (s.liveBlocks P ++ free) x = coverCount l₀ x
  noBuddies : NoBuddies buddyMaxOrder free

variable {P : Pool} {s t : BuddyState} {l l' l₀ free : List Block} {c : Block} {a : Nat × Nat} {size : Nat}

theorem min_le_blockOrder (size : Nat) : buddyMinOrder ≤ blockOrder size := le_max_right _ _

theorem size_le_blockOrder (size : Nat) : size ≤ 2 ^ blockOrder size :=
  (Nat.le_pow_clog (by omega) size).trans (Nat.pow_le_pow_right (by omega) (le_max_left _ _))

theorem Tiling.of_append (h : Tiling P (l' ++ l)) : Tiling P l where
  good c hc := h.good c (List.mem_append_right _ hc)
  disjoint x := by
    have := h.disjoint x
    rw [coverCount_append] at this
    omega

theorem Tiling.perm (h : Tiling P l) (hp : l.Perm l') : Tiling P l' :=
  h.congr (fun c hc => h.good c (hp.mem_iff.mpr hc)) fun _ => (coverCount_perm hp).symm

private theorem getOrder_some {k : Nat} (h : getOrder size = some k) : size ≤ 2 ^ 31 ∧ k = clog 2 size := by
  have hs : size ≤ 2 ^ 31 := by
    by_contra hn
    rw [getOrder, getOrder_diverges (by omega)] at h
    cases h
  rw [getOrder_eq hs] at h
  exact ⟨hs, (Option.some.inj h).symm⟩

theorem buddyAlloc_eq (b : Buddy) (m : Memory) (hs : size ≤ 2 ^ 31) :
    buddyAlloc b m size = some (buddyAllocOrder b m (blockOrder size)) := by
  rw [buddyAlloc, getOrder_eq hs]
  rfl

namespace BuddyInv

variable {b : Buddy} {m : Memory}

theorem alloc {p : Nat} (h : BuddyInv P l₀ s free)
    (ha : buddyAlloc s.buddy s.mem size = some (b, m, p)) :
    ∃ free', BuddyInv P l₀ ⟨b, m, if p = 0 then s.live else (p, size) :: s.live⟩ free' := by
  have hs : size ≤ 2 ^ 31 := by
    obtain ⟨k, hk, _⟩ := Option.map_eq_some_iff.mp ha
    exact (getOrder_some hk).1
  rw [buddyAlloc_eq _ _ hs, Option.some_inj] at ha
  by_cases hex : ∃ c ∈ free, blockOrder size ≤ c.order
  · obtain ⟨r, n, b', m', hr, hmin, hcall, hl, ht, -, -⟩ :=
      buddyAllocOrder_some h.lists h.tiling.of_append (min_le_blockOrder _) hex
    rw [hcall, Prod.mk.injEq, Prod.mk.injEq] at ha
    obtain ⟨rfl, rfl, rfl⟩ := ha
    have hg : GoodBlock P ⟨r, blockOrder size⟩ := ht.good _ (.head _)
    have hblock : liveBlock P (P.start + r, size) = ⟨r, blockOrder size⟩ := by
      simp only [liveBlock, Nat.add_sub_cancel_left]
    have hcov : ∀ x, coverCount (⟨r, blockOrder size⟩ :: s.liveBlocks P ++
        splitFree r (blockOrder size) n (free.erase ⟨r, blockOrder size + n⟩)) x =
        coverCount (s.liveBlocks P ++ free) x := by
      intro x
      have := coverCount_splitFree (a := r) (k := blockOrder size) (n := n)
        (l := free.erase ⟨r, blockOrder size + n⟩) (x := x)
      rw [coverCount_erase hr, coverCount_cons] at this
      rw [List.cons_append, coverCount_cons, coverCount_append, coverCount_append]
      omega
    rw [if_neg hg.nonnull]
    refine ⟨_, hl, ?_, List.forall_mem_cons.mpr ⟨by simp, h.start_le⟩, ?_,
      h.noBuddies.splitFree hmin⟩
    · refine h.tiling.congr (fun c hc => ?_) fun x => ?_
      · simp only [BuddyState.liveBlocks, List.map_cons, hblock, List.cons_append, List.mem_cons,
          List.mem_append] at hc
        rcases hc with rfl | hc | hc
        · exact hg
        · exact h.tiling.good c (List.mem_append_left _ hc)
        · exact ht.good c (.tail _ hc)
      · simpa only [BuddyState.liveBlocks, List.map_cons, hblock] using hcov x
    · intro x
      rw [← h.cover x]
      simpa only [BuddyState.liveBlocks, List.map_cons, hblock] using hcov x
  · rw [buddyAllocOrder_none h.lists fun c hc => by
      by_contra hn
      exact hex ⟨c, hc, by omega⟩] at ha
    obtain ⟨rfl, rfl, rfl⟩ := ha
    exact ⟨free, h⟩

private theorem live_mem (ha : a ∈ s.live) :
    (s.liveBlocks P).Perm (liveBlock P a :: (s.live.erase a).map (liveBlock P)) :=
  (List.perm_cons_erase ha).map (liveBlock P)

theorem live_split (h : BuddyInv P l₀ s free) (ha : a ∈ s.live) :
    Tiling P (liveBlock P a :: ((s.live.erase a).map (liveBlock P) ++ free)) :=
  h.tiling.perm ((live_mem ha).append_right _)

private theorem live_size (h : BuddyInv P l₀ s free) (ha : a ∈ s.live) : a.2 ≤ 2 ^ 28 := by
  have hmax := ((h.live_split ha).good _ (.head _)).le_max
  simp only [liveBlock, blockOrder, buddyMaxOrder] at hmax
  exact (clog_le_iff_le_pow (by omega)).mp (by omega)

private theorem live_addr (h : BuddyInv P l₀ s free) (ha : a ∈ s.live) :
    a.1 = P.start + (liveBlock P a).addr := by
  have := h.start_le a ha
  simp only [liveBlock]
  omega

private theorem free_call (h : BuddyInv P l₀ s free) (ha : a ∈ s.live) :
    ∃ b m, buddyFree s.buddy s.mem a.1 a.2 = some (b, m) ∧
      FreeLists P b m (giveBlock buddyMaxOrder (liveBlock P a) free) ∧
      Tiling P (giveBlock buddyMaxOrder (liveBlock P a) free) := by
  have hsize := h.live_size ha
  have ht : Tiling P (liveBlock P a :: free) :=
    ((h.live_split ha).perm List.perm_middle.symm).of_append
  obtain ⟨b, m, hf, hl, ht', -⟩ :=
    buddyFree_refines h.lists ht (h.live_addr ha) (show getOrder a.2 = _ from getOrder_eq (by omega)) rfl
  exact ⟨b, m, hf, hl, ht'⟩

private theorem free_step (h : BuddyInv P l₀ s free) (ha : a ∈ s.live)
    (hf : buddyFree s.buddy s.mem a.1 a.2 = some (b, m)) :
    ∃ free', BuddyInv P l₀ ⟨b, m, s.live.erase a⟩ free' := by
  obtain ⟨b', m', hf', hl, ht⟩ := h.free_call ha
  rw [hf', Option.some_inj, Prod.mk.injEq] at hf
  obtain ⟨rfl, rfl⟩ := hf
  have hsplit := h.live_split ha
  have hal := (hsplit.good _ (.head _)).aligned
  have hcov : ∀ x, coverCount ((s.live.erase a).map (liveBlock P) ++
      giveBlock buddyMaxOrder (liveBlock P a) free) x = coverCount (s.liveBlocks P ++ free) x := by
    intro x
    rw [coverCount_append, coverCount_giveBlock hal, coverCount_append,
      coverCount_perm (live_mem ha), coverCount_cons, coverCount_cons]
    omega
  refine ⟨_, hl, h.tiling.congr (fun c hc => ?_) hcov, fun d hd =>
    h.start_le d (List.mem_of_mem_erase hd), fun x => (hcov x).trans (h.cover x), h.noBuddies.giveBlock⟩
  rcases List.mem_append.mp hc with hc | hc
  · exact hsplit.good c (.tail _ (List.mem_append_left _ hc))
  · exact ht.good c hc

theorem write (h : BuddyInv P l₀ s free)
    (hm : ∀ x, P.start ≤ x → x < P.stop → (∀ a ∈ s.live, x < a.1 ∨ a.1 + a.2 ≤ x) → m x = s.mem x) :
    BuddyInv P l₀ { s with mem := m } free := by
  refine ⟨h.lists.frame fun c hc x hl hu => hm x (by omega) ?_ fun a ha => ?_, h.tiling, h.start_le,
    h.cover, h.noBuddies⟩
  · have := (h.tiling.of_append.good c hc).word_le
    omega
  · have hg := h.tiling.of_append.good c hc
    have hd := (h.live_split ha).disjoint_of_mem (List.mem_append_right _ hc) (x - P.start)
    have hp := Nat.pow_le_pow_right (show 0 < 2 by omega) hg.min_le
    have hsize : a.2 ≤ 2 ^ (liveBlock P a).order := size_le_blockOrder _
    have haddr := h.live_addr ha
    simp only [buddyMinOrder] at hp
    simp only [Covers] at hd
    omega

theorem step (h : BuddyInv P l₀ s free) (hs : BuddyStep P s t) : ∃ free', BuddyInv P l₀ t free' := by
  cases hs with
  | alloc ha => exact h.alloc ha
  | free hl hf => exact h.free_step hl hf
  | write hm => exact ⟨free, h.write hm⟩

theorem run (h : BuddyInv P l₀ s free) (hr : Relation.ReflTransGen (BuddyStep P) s t) :
    ∃ free', BuddyInv P l₀ t free' := by
  induction hr with
  | refl => exact ⟨free, h⟩
  | tail _ hs ih =>
    obtain ⟨free', h'⟩ := ih
    exact h'.step hs

private theorem alloc_null_iff (h : BuddyInv P l₀ s free) (hs : size ≤ 2 ^ 31) :
    ∃ b m p, buddyAlloc s.buddy s.mem size = some (b, m, p) ∧
      (p = 0 ↔ ∀ c ∈ free, c.order < blockOrder size) := by
  by_cases hex : ∃ c ∈ free, blockOrder size ≤ c.order
  · obtain ⟨r, n, b', m', -, -, hcall, -, ht, -, -⟩ :=
      buddyAllocOrder_some h.lists h.tiling.of_append (min_le_blockOrder _) hex
    refine ⟨b', m', P.start + r, by rw [buddyAlloc_eq _ _ hs, hcall], ?_⟩
    have hg : GoodBlock P ⟨r, blockOrder size⟩ := ht.good _ (.head _)
    obtain ⟨c, hc, ho⟩ := hex
    exact iff_of_false hg.nonnull fun hn => absurd ho (not_le.mpr (hn c hc))
  · have hn : ∀ c ∈ free, c.order < blockOrder size := fun c hc => by
      by_contra ho
      exact hex ⟨c, hc, by omega⟩
    refine ⟨s.buddy, s.mem, 0, ?_, iff_of_true rfl hn⟩
    rw [buddyAlloc_eq _ _ hs, buddyAllocOrder_none h.lists hn]

end BuddyInv

def FreeRegion (free : List Block) (order : Nat) : Prop :=
  ∃ r : Block, r.order = order ∧ r.Aligned ∧ ∀ x, r.Covers x → ∃ c ∈ free, c.Covers x

theorem BuddyInv.exists_block_iff {order : Nat} (h : BuddyInv P l₀ s free) :
    (∃ c ∈ free, order ≤ c.order) ↔ order ≤ buddyMaxOrder ∧ FreeRegion free order := by
  have ht := h.tiling.of_append
  constructor
  · rintro ⟨c, hc, ho⟩
    have hdvd : 2 ^ order ∣ c.addr := (pow_dvd_pow 2 ho).trans (ht.good c hc).aligned
    refine ⟨ho.trans (ht.good c hc).le_max, ⟨c.addr, order⟩, rfl, hdvd, fun x hx => ⟨c, hc, ?_⟩⟩
    have := Nat.pow_le_pow_right (show 0 < 2 by omega) ho
    simp only [Covers] at hx ⊢
    omega
  · rintro ⟨hmax, r, rfl, hr, hcov⟩
    obtain ⟨c, hc, ho, -⟩ :=
      h.noBuddies.exists_cover ht.disjoint (fun c hc => (ht.good c hc).aligned) hr hmax hcov
    exact ⟨c, hc, ho⟩

theorem BuddyInv.initial (hl : FreeLists P b m l) (ht : Tiling P l)
    (hn : NoBuddies buddyMaxOrder l) : BuddyInv P l ⟨b, m, []⟩ l :=
  ⟨hl, ht, by simp, fun _ => rfl, hn⟩

structure PoolAccount (P : Pool) (l₀ : List Block) (s : BuddyState) (free : List Block) : Prop where
  lists : FreeLists P s.buddy s.mem free
  live_start : ∀ a ∈ s.live, P.start ≤ a.1
  disjoint : (s.liveBlocks P ++ free).Pairwise Disjoint
  inside : ∀ c ∈ s.liveBlocks P ++ free, P.start + c.addr + 2 ^ c.order ≤ P.stop
  aligned : ∀ c ∈ free, 2 ^ c.order ∣ c.addr
  cover : ∀ x, (∃ c ∈ s.liveBlocks P ++ free, c.Covers x) ↔ ∃ c ∈ l₀, c.Covers x

theorem BuddyInv.account (h : BuddyInv P l₀ s free) : PoolAccount P l₀ s free where
  lists := h.lists
  live_start := h.start_le
  disjoint := pairwise_disjoint h.tiling.disjoint
  inside c hc := (h.tiling.good c hc).inside
  aligned c hc := (h.tiling.of_append.good c hc).aligned
  cover x := by rw [← coverCount_pos, ← coverCount_pos, h.cover x]

/-- In every run the free and the live blocks tile what `buddy_init` put on the lists, and the
calls return. -/
theorem buddy_runs_account (P : Pool) (m₀ : Memory) :
    ∃ b₀ m₁ l₀, buddyInit m₀ P.start P.stop = some (b₀, m₁) ∧ FreeLists P b₀ m₁ l₀ ∧
      ∀ s, Relation.ReflTransGen (BuddyStep P) ⟨b₀, m₁, []⟩ s →
        (∃ free, PoolAccount P l₀ s free) ∧
        (∀ size ≤ 2 ^ 31, (buddyAlloc s.buddy s.mem size).isSome) ∧
        ∀ a ∈ s.live, (buddyFree s.buddy s.mem a.1 a.2).isSome := by
  obtain ⟨b₀, m₁, l₀, hinit, hl, ht, hn, -⟩ := buddyInit_refines P m₀
  refine ⟨b₀, m₁, l₀, hinit, hl, fun s hr => ?_⟩
  obtain ⟨free, h⟩ := (BuddyInv.initial hl ht hn).run hr
  refine ⟨⟨free, h.account⟩, fun size hs => ?_, fun a ha => ?_⟩
  · obtain ⟨b, m, p, hcall, -⟩ := h.alloc_null_iff hs
    rw [hcall]
    rfl
  · obtain ⟨b, m, hcall, -⟩ := h.free_call ha
    rw [hcall]
    rfl

/-- In every run the lists have all that is not live, and coalescing is complete: no two buddies are free, a request fails only
for want of a free region of an order the lists serve, and freeing everything restores the first lists. -/
theorem buddy_runs_coalesced (P : Pool) (m₀ : Memory) :
    ∃ b₀ m₁ l₀, buddyInit m₀ P.start P.stop = some (b₀, m₁) ∧ FreeLists P b₀ m₁ l₀ ∧
      ∀ s, Relation.ReflTransGen (BuddyStep P) ⟨b₀, m₁, []⟩ s →
        ∃ free, PoolAccount P l₀ s free ∧ NoBuddies buddyMaxOrder free ∧
          (∀ size ≤ 2 ^ 31, ∃ b m p, buddyAlloc s.buddy s.mem size = some (b, m, p) ∧
            (p = 0 ↔ ¬ (blockOrder size ≤ buddyMaxOrder ∧ FreeRegion free (blockOrder size)))) ∧
          (s.live = [] → ∀ c, c ∈ free ↔ c ∈ l₀) := by
  obtain ⟨b₀, m₁, l₀, hinit, hl, ht, hn, -⟩ := buddyInit_refines P m₀
  refine ⟨b₀, m₁, l₀, hinit, hl, fun s hr => ?_⟩
  obtain ⟨free, h⟩ := (BuddyInv.initial hl ht hn).run hr
  refine ⟨free, h.account, h.noBuddies, fun size hs => ?_, fun hlive c => ?_⟩
  · obtain ⟨b, m, p, hcall, hp⟩ := h.alloc_null_iff hs
    refine ⟨b, m, p, hcall, hp.trans ?_⟩
    rw [← h.exists_block_iff]
    simp
  · have hft := h.tiling.of_append
    refine h.noBuddies.mem_iff hn hft.disjoint (fun x => ?_)
      (fun d hd => ⟨(hft.good d hd).aligned, (hft.good d hd).le_max⟩)
      fun d hd => ⟨(ht.good d hd).aligned, (ht.good d hd).le_max⟩
    rw [← h.cover x, BuddyState.liveBlocks, hlive]
    rfl

def halfGigPool : Pool where
  start := 0x100000
  stop := 0x100000 + 2 ^ 29
  start_page := by decide
  stop_page := by decide
  start_le := by decide
  size_lt := by decide
  stop_lt := by decide

theorem buddyAlloc_misses_region :
    ∃ b m free, buddyInit (fun _ => 0) halfGigPool.start halfGigPool.stop = some (b, m) ∧
      FreeLists halfGigPool b m free ∧ buddyAlloc b m (2 ^ 28 + 1) = some (b, m, 0) ∧
      FreeRegion free (blockOrder (2 ^ 28 + 1)) := by
  obtain ⟨b, m, l, hinit, hl, ht, hn, hcov, -⟩ := buddyInit_refines halfGigPool (fun _ => 0)
  have ho : blockOrder (2 ^ 28 + 1) = 29 := by
    have hle : clog 2 (2 ^ 28 + 1) ≤ 29 := clog_le_of_le_pow (by decide)
    have hgt : ¬ clog 2 (2 ^ 28 + 1) ≤ 28 := fun h =>
      absurd ((clog_le_iff_le_pow (by omega)).mp h) (by decide)
    have hc : clog 2 (2 ^ 28 + 1) = 29 := by omega
    rw [blockOrder, hc]
    rfl
  refine ⟨b, m, l, hinit, hl, ?_, ?_⟩
  · rw [buddyAlloc_eq b m (by decide), buddyAllocOrder_none hl fun c hc => ?_]
    have := (ht.good c hc).le_max
    rw [ho]
    simp only [buddyMaxOrder] at this
    omega
  · rw [ho]
    exact ⟨⟨0, 29⟩, rfl, dvd_zero _, fun x hx => hcov (by decide) x hx.2⟩

end RetroOs.Kernel
