import RetroOs.Kernel.Buddy
import RetroOs.Lib.BuddySystem
import RetroOs.Lib.Chain

/-! The linked free lists in memory refine the buddy system on a list of blocks.
Block addresses are relative to the start of the pool. -/
namespace RetroOs.Kernel
open Lib Block Memory

/-- A page-aligned address range below 2 GiB. -/
structure Pool where
  start : Nat
  stop : Nat
  start_page : 4096 ∣ start
  stop_page : 4096 ∣ stop
  start_le : start ≤ stop
  size_lt : stop - start < 2 ^ 31
  stop_lt : stop < 2 ^ 32

/-- A block that can be linked into a free list of the pool. -/
structure GoodBlock (P : Pool) (c : Block) : Prop where
  aligned : c.Aligned
  min_le : buddyMinOrder ≤ c.order
  le_max : c.order ≤ buddyMaxOrder
  inside : P.start + c.addr + 2 ^ c.order ≤ P.stop
  nonnull : P.start + c.addr ≠ 0

structure Tiling (P : Pool) (l : List Block) : Prop where
  good : ∀ c ∈ l, GoodBlock P c
  disjoint : ∀ x, coverCount l x ≤ 1

/-- The heads in the control block and the links in memory spell out the blocks of `l`, each of an
order that has a list. -/
structure FreeLists (P : Pool) (b : Buddy) (m : Memory) (l : List Block) : Prop where
  startAddr : b.startAddr = P.start
  chain : ∀ i < buddyNumOrders,
    Chain (· = 0) m.load32 (b.freeLists i) ((addrsAt l (i + buddyMinOrder)).map (P.start + ·))
  orders : ∀ c ∈ l, buddyMinOrder ≤ c.order ∧ c.order ≤ buddyMaxOrder

variable {P : Pool} {b : Buddy} {m m' : Memory} {l : List Block} {c d : Block}

theorem GoodBlock.word_le (hc : GoodBlock P c) : P.start + c.addr + 4 ≤ P.stop := by
  have := hc.inside
  have := Nat.pow_le_pow_right (show 0 < 2 by omega) hc.min_le
  simp only [buddyMinOrder] at this
  omega

theorem GoodBlock.addr_lt (hc : GoodBlock P c) : P.start + c.addr < 2 ^ 32 := by
  have := hc.word_le
  have := P.stop_lt
  omega

theorem GoodBlock.words_apart (hc : GoodBlock P c) (hd : GoodBlock P d) (h : c.Disjoint d) :
    P.start + c.addr + 4 ≤ P.start + d.addr ∨ P.start + d.addr + 4 ≤ P.start + c.addr := by
  have hp := Nat.pow_le_pow_right (show 0 < 2 by omega) hc.min_le
  have hq := Nat.pow_le_pow_right (show 0 < 2 by omega) hd.min_le
  simp only [buddyMinOrder] at hp hq
  by_contra hn
  -- Words that meet have their larger start in both blocks.
  refine h (max c.addr d.addr) ?_ ?_ <;> simp only [Covers] <;> omega

theorem GoodBlock.agreeOn_store (hc : GoodBlock P c) (hd : GoodBlock P d) (h : c.Disjoint d) (v : Nat) :
    AgreeOn m (m.store32 (P.start + c.addr) v) (P.start + d.addr) 4 :=
  store32_agreeOn m v (hc.words_apart hd h).symm

theorem Tiling.of_cons (h : Tiling P (c :: l)) : Tiling P l where
  good d hd := h.good d (.tail _ hd)
  disjoint x := by
    have := h.disjoint x
    rw [coverCount_cons] at this
    omega

theorem Tiling.length_lt (h : Tiling P l) : l.length < 2 ^ 20 := by
  have hs := P.size_lt
  have := length_le_of_coverCount 12 (P.stop - P.start) h.disjoint fun c hc =>
    ⟨(h.good c hc).aligned, (h.good c hc).min_le, by have := (h.good c hc).inside; omega⟩
  omega

theorem Tiling.disjoint_of_mem (h : Tiling P (c :: l)) (hd : d ∈ l) : c.Disjoint d :=
  (List.pairwise_cons.mp (pairwise_disjoint h.disjoint)).1 d hd

namespace FreeLists

theorem frame (h : FreeLists P b m l) (ha : ∀ c ∈ l, AgreeOn m m' (P.start + c.addr) 4) :
    FreeLists P b m' l where
  startAddr := h.startAddr
  chain i hi := by
    refine (h.chain i hi).congr fun a ha' => ?_
    obtain ⟨r, hr, rfl⟩ := List.mem_map.mp ha'
    exact (ha _ (mem_addrsAt.mp hr)).load32
  orders := h.orders

private theorem head_lt (h : FreeLists P b m l) (ht : Tiling P l) {i : Nat} (hi : i < buddyNumOrders) :
    b.freeLists i < 2 ^ 32 := by
  have hc := h.chain i hi
  cases he : addrsAt l (i + buddyMinOrder) with
  | nil =>
    rw [he] at hc
    have : b.freeLists i = 0 := by simpa using hc
    omega
  | cons r rs =>
    rw [he] at hc
    rw [(chain_cons.mp hc).1]
    exact (ht.good ⟨r, i + buddyMinOrder⟩ (mem_addrsAt.mp (by simp [he]))).addr_lt

theorem push (h : FreeLists P b m l) (ht : Tiling P (c :: l)) :
    FreeLists P (pushBlock b m (c.order - buddyMinOrder) (P.start + c.addr)).1
      (pushBlock b m (c.order - buddyMinOrder) (P.start + c.addr)).2 (c :: l) where
  startAddr := h.startAddr
  chain i hi := by
    have hc := ht.good c (by simp)
    have hmin := hc.min_le
    have hmax := hc.le_max
    have hlt : b.freeLists (c.order - buddyMinOrder) < 2 ^ 32 :=
      h.head_lt ht.of_cons (by simp only [buddyNumOrders, buddyMaxOrder, buddyMinOrder] at *; omega)
    have hframe := (h.frame fun d hd => hc.agreeOn_store (ht.of_cons.good d hd)
      (ht.disjoint_of_mem hd) (b.freeLists (c.order - buddyMinOrder))).chain i hi
    simp only [pushBlock, addrsAt_cons, Function.update_apply]
    by_cases he : i = c.order - buddyMinOrder
    · subst he
      rw [if_pos rfl, if_pos (by omega), List.map_cons, chain_cons, load32_store32 _ _ hlt]
      exact ⟨rfl, hc.nonnull, hframe⟩
    · rw [if_neg he, if_neg (by omega)]
      exact hframe
  orders d hd := ⟨(ht.good d hd).min_le, (ht.good d hd).le_max⟩

theorem pop (h : FreeLists P b m l) {i : Nat} (hi : i < buddyNumOrders) (hne : b.freeLists i ≠ 0) :
    ∃ r, (⟨r, i + buddyMinOrder⟩ : Block) ∈ l ∧ b.freeLists i = P.start + r ∧
      FreeLists P { b with freeLists := Function.update b.freeLists i (m.load32 (b.freeLists i)) } m
        (l.erase ⟨r, i + buddyMinOrder⟩) := by
  have hc := h.chain i hi
  cases he : addrsAt l (i + buddyMinOrder) with
  | nil =>
    rw [he] at hc
    exact absurd (by simpa using hc) hne
  | cons r rs =>
    rw [he] at hc
    obtain ⟨hh, _, ht⟩ := chain_cons.mp hc
    refine ⟨r, mem_addrsAt.mp (by simp [he]), hh, h.startAddr, fun j hj => ?_,
      fun c hc => h.orders c (List.mem_of_mem_erase hc)⟩
    simp only [addrsAt_erase, Function.update_apply]
    by_cases hij : j = i
    · subst hij
      rw [if_pos rfl, if_pos rfl, he, List.erase_cons_head, hh]
      exact ht
    · rw [if_neg hij, if_neg (by omega)]
      exact h.chain j hj

theorem head_eq_zero (h : FreeLists P b m l) {i : Nat} (hi : i < buddyNumOrders) :
    b.freeLists i = 0 ↔ ∀ c ∈ l, c.order ≠ i + buddyMinOrder := by
  have hc := h.chain i hi
  constructor
  · intro hz d hd ho
    have hm : d.addr ∈ addrsAt l (i + buddyMinOrder) := mem_addrsAt.mpr (ho ▸ hd)
    cases he : addrsAt l (i + buddyMinOrder) with
    | nil => simp [he] at hm
    | cons r rs =>
      rw [he] at hc
      obtain ⟨hh, hs, _⟩ := chain_cons.mp hc
      exact hs (hh ▸ hz)
  · intro hno
    cases he : addrsAt l (i + buddyMinOrder) with
    | nil =>
      rw [he] at hc
      simpa using hc
    | cons r rs =>
      exact absurd rfl (hno ⟨r, i + buddyMinOrder⟩ (mem_addrsAt.mp (by simp [he])))

end FreeLists
end RetroOs.Kernel

/-! Each call of the buddy allocator simulates one step of the buddy system, ends,
and writes only to memory that was free or is being freed. -/
namespace RetroOs.Kernel
open Lib Block Memory

/-- The address lies in none of the blocks. -/
def Outside (P : Pool) (l : List Block) (x : Nat) : Prop :=
  x < P.start ∨ coverCount l (x - P.start) = 0

variable {P : Pool} {b : Buddy} {m m' : Memory} {l : List Block} {c d : Block} {i k n r t x : Nat} {order : Nat}

theorem Outside.of_cover (h : Outside P l x) {l' : List Block}
    (he : ∀ y, coverCount l' y = coverCount l y) : Outside P l' x :=
  h.imp id fun h => (he _).trans h

theorem Outside.of_cons (h : Outside P (c :: l) x) : Outside P l x := by
  rcases h with h | h
  · exact .inl h
  · rw [coverCount_cons] at h
    exact .inr (by omega)

theorem Outside.of_mem (h : Outside P l x) (hc : c ∈ l) :
    x < P.start + c.addr ∨ P.start + c.addr + 2 ^ c.order ≤ x := by
  rcases h with h | h
  · exact .inl (by omega)
  · have hn : ¬ c.Covers (x - P.start) := fun hx => by
      have := coverCount_pos.mpr ⟨c, hc, hx⟩
      omega
    simp only [Covers] at hn
    omega

theorem Outside.store (h : Outside P l x) (hc : c ∈ l) (hg : GoodBlock P c) (v : Nat) :
    m.store32 (P.start + c.addr) v x = m x := by
  have hp := Nat.pow_le_pow_right (show 0 < 2 by omega) hg.min_le
  have hx := h.of_mem hc
  simp only [buddyMinOrder] at hp
  exact store32_agreeOn (a := x) (n := 1) m v (by omega) x le_rfl (by omega)

theorem Tiling.congr {l' : List Block} (h : Tiling P l) (hg : ∀ c ∈ l', GoodBlock P c)
    (he : ∀ x, coverCount l' x = coverCount l x) : Tiling P l' :=
  ⟨hg, fun x => he x ▸ h.disjoint x⟩

private theorem GoodBlock.halves (h : GoodBlock P ⟨r, k + 1⟩) (hk : buddyMinOrder ≤ k) :
    GoodBlock P ⟨r, k⟩ ∧ GoodBlock P ⟨r + 2 ^ k, k⟩ := by
  have ha : 2 ^ k ∣ r := (pow_dvd_pow 2 (Nat.le_succ k)).trans h.aligned
  have hi := h.inside
  have hm := h.le_max
  have hn := h.nonnull
  simp only at hi hm hn
  exact ⟨⟨ha, hk, by simp only; omega, by simp only; omega, by simp only; omega⟩,
    ⟨Nat.dvd_add ha dvd_rfl, hk, by simp only; omega, by simp only; omega, by simp only; omega⟩⟩

theorem Tiling.split (h : Tiling P (⟨r, k + 1⟩ :: l)) (hk : buddyMinOrder ≤ k) :
    Tiling P (⟨r, k⟩ :: ⟨r + 2 ^ k, k⟩ :: l) := by
  refine h.congr (fun c hc => ?_) fun _ => coverCount_split r k
  obtain ⟨hlo, hhi⟩ := (h.good ⟨r, k + 1⟩ (by simp)).halves hk
  rcases List.mem_cons.mp hc with rfl | hc
  · exact hlo
  rcases List.mem_cons.mp hc with rfl | hc
  · exact hhi
  · exact h.good c (List.mem_cons_of_mem _ hc)

/-- Splitting a detached block down to order `i + 12` links the upper halves. -/
theorem splitDown_refines (h : FreeLists P b m l)
    (ht : Tiling P (⟨r, i + buddyMinOrder + n⟩ :: l)) :
    FreeLists P (splitDown i (P.start + r) n b m).1 (splitDown i (P.start + r) n b m).2
        (splitFree r (i + buddyMinOrder) n l) ∧
      Tiling P (⟨r, i + buddyMinOrder⟩ :: splitFree r (i + buddyMinOrder) n l) ∧
      ∀ x, Outside P (⟨r, i + buddyMinOrder + n⟩ :: l) x →
        (splitDown i (P.start + r) n b m).2 x = m x := by
  induction n generalizing b m l with
  | zero => exact ⟨h, ht, fun _ _ => rfl⟩
  | succ n ih =>
    let hi : Block := ⟨r + 2 ^ (i + buddyMinOrder + n), i + buddyMinOrder + n⟩
    have hs : Tiling P (⟨r, i + buddyMinOrder + n⟩ :: hi :: l) :=
      ht.split (k := i + buddyMinOrder + n) (by omega)
    have hg : GoodBlock P hi := hs.good hi (by simp)
    have haddr : (P.start + r + 2 ^ (i + n + buddyMinOrder)) % 2 ^ 32 = P.start + hi.addr := by
      have hlt := hg.addr_lt
      rw [Nat.add_right_comm i n, Nat.add_assoc]
      exact Nat.mod_eq_of_lt hlt
    have hidx : i + n = hi.order - buddyMinOrder := by
      simp only [hi]
      omega
    rw [splitDown, haddr, hidx]
    obtain ⟨hf, ht', hm⟩ := ih (h.push hs.of_cons) hs
    refine ⟨hf, ht', fun x hx => ?_⟩
    have hx' : Outside P (⟨r, i + buddyMinOrder + n⟩ :: hi :: l) x :=
      hx.of_cover fun _ => coverCount_split r (i + buddyMinOrder + n)
    exact (hm x hx').trans (hx'.store (by simp) hg _)

theorem FreeLists.overwrite (h : FreeLists P b m l) (ht : Tiling P (c :: l))
    (hm : ∀ x, x < P.start + c.addr ∨ P.start + c.addr + 2 ^ c.order ≤ x → m' x = m x) :
    FreeLists P b m' l := by
  refine h.frame fun d hd x hl hu => hm x ?_
  have hp := Nat.pow_le_pow_right (show 0 < 2 by omega) (ht.of_cons.good d hd).min_le
  have hn := ht.disjoint_of_mem hd (x - P.start)
  simp only [buddyMinOrder] at hp
  simp only [Covers] at hn
  omega

theorem buddyAllocOrder_none (h : FreeLists P b m l)
    (hn : ∀ c ∈ l, c.order < order) : buddyAllocOrder b m order = (b, m, 0) := by
  rw [buddyAllocOrder]
  simp only
  split
  · rfl
  · next hi =>
    rw [List.find?_range'_eq_none.mpr]
    intro j hl hu
    have hz := (h.head_eq_zero (i := j) (by omega)).mpr fun c hc ho => by
      have := hn c hc
      omega
    simp [hz]

/-- The scan stops at the list of the smallest sufficient order in use. -/
theorem FreeLists.find_list (h : FreeLists P b m l) (ht : Tiling P l)
    (ho : buddyMinOrder ≤ order) (hex : ∃ c ∈ l, order ≤ c.order) :
    ∃ j n, (List.range' (order - buddyMinOrder)
        (buddyNumOrders - (order - buddyMinOrder))).find? (b.freeLists · != 0) = some j ∧
      j < buddyNumOrders ∧ j = order - buddyMinOrder + n ∧ b.freeLists j ≠ 0 ∧
      ∀ c ∈ l, order ≤ c.order → order + n ≤ c.order := by
  obtain ⟨c, hcl, hco⟩ := hex
  have hmax := (ht.good c hcl).le_max
  have hcN : c.order - buddyMinOrder < buddyNumOrders := by
    simp only [buddyNumOrders, buddyMaxOrder, buddyMinOrder] at *
    omega
  have hne : b.freeLists (c.order - buddyMinOrder) ≠ 0 :=
    mt (h.head_eq_zero hcN).mp fun hno => hno c hcl (by omega)
  have hsome : ((List.range' (order - buddyMinOrder)
      (buddyNumOrders - (order - buddyMinOrder))).find? (b.freeLists · != 0)).isSome :=
    List.find?_isSome.mpr ⟨c.order - buddyMinOrder, List.mem_range'_1.mpr (by omega), by simpa using hne⟩
  obtain ⟨j, hj⟩ := Option.isSome_iff_exists.mp hsome
  obtain ⟨hjne, hjm, hjmin⟩ := List.find?_range'_eq_some.mp hj
  rw [List.mem_range'_1] at hjm
  obtain ⟨n, hn⟩ := Nat.exists_eq_add_of_le hjm.1
  refine ⟨j, n, hj, by omega, hn, by simpa using hjne, fun d hd hdo => ?_⟩
  by_contra hlt
  have hz : b.freeLists (d.order - buddyMinOrder) = 0 := by
    simpa using hjmin (d.order - buddyMinOrder) (by omega) (by omega)
  exact (h.head_eq_zero (by omega)).mp hz d hd (by omega)

/-- A successful call takes a block `⟨r, order + n⟩` of the smallest sufficient order and leaves
its upper halves on the lists; the part handed out is zeroed. -/
theorem buddyAllocOrder_some (h : FreeLists P b m l) (ht : Tiling P l)
    (ho : buddyMinOrder ≤ order) (hex : ∃ c ∈ l, order ≤ c.order) :
    ∃ r n b' m', (⟨r, order + n⟩ : Block) ∈ l ∧ (∀ c ∈ l, order ≤ c.order → order + n ≤ c.order) ∧
      buddyAllocOrder b m order = (b', m', P.start + r) ∧
      FreeLists P b' m' (splitFree r order n (l.erase ⟨r, order + n⟩)) ∧
      Tiling P (⟨r, order⟩ :: splitFree r order n (l.erase ⟨r, order + n⟩)) ∧
      (∀ x, Outside P l x → m' x = m x) ∧
      ∀ x, P.start + r ≤ x → x < P.start + r + 2 ^ order → m' x = 0 := by
  obtain ⟨j, n, hj, hjN, hjn, hjne, hmin⟩ := h.find_list ht ho hex
  obtain ⟨r, hrl, hhead, hpop⟩ := h.pop hjN hjne
  have hio : order - buddyMinOrder + buddyMinOrder = order := by omega
  rw [show j + buddyMinOrder = order + n by omega] at hrl hpop
  have ht' : Tiling P (⟨r, order + n⟩ :: l.erase ⟨r, order + n⟩) :=
    ht.congr (fun d hd => by
      rcases List.mem_cons.mp hd with rfl | hd
      · exact ht.good _ hrl
      · exact ht.good d (List.mem_of_mem_erase hd)) fun _ => coverCount_erase hrl
  have hsd := splitDown_refines (i := order - buddyMinOrder) (n := n) (r := r) hpop
    (by rw [hio]; exact ht')
  rw [hio] at hsd
  have hcall : buddyAllocOrder b m order =
      let s := splitDown (order - buddyMinOrder) (P.start + r) n
        { b with freeLists := Function.update b.freeLists j (m.load32 (b.freeLists j)) } m
      (s.1, s.2.fill (P.start + r) 0 (2 ^ order), P.start + r) := by
    rw [buddyAllocOrder]
    simp only [if_neg (show ¬ buddyNumOrders ≤ order - buddyMinOrder by omega), hj,
      show j - (order - buddyMinOrder) = n by omega, hhead]
  rw [hcall]
  generalize splitDown (order - buddyMinOrder) (P.start + r) n _ m = s at hsd
  obtain ⟨hf, hst, hm⟩ := hsd
  refine ⟨r, n, s.1, s.2.fill (P.start + r) 0 (2 ^ order), hrl, hmin, rfl,
    hf.overwrite hst fun x hx => ?_, hst, fun x hx => ?_, fun x hl hu => ?_⟩
  · exact if_neg (by simp only at hx; omega)
  · have hb := hx.of_mem hrl
    have hp : 2 ^ order ≤ 2 ^ (order + n) := Nat.pow_le_pow_right (by omega) (by omega)
    refine (if_neg ?_).trans (hm x (hx.of_cover fun _ => coverCount_erase hrl))
    simp only at hb
    omega
  · exact if_pos ⟨hl, hu⟩

end RetroOs.Kernel
