import RetroOs.Kernel.BuddyRefinement

/-! `buddy_free` simulates giving a block back: the list walk finds exactly a free buddy,
and the loop merges as often as the buddy system does. -/
namespace RetroOs.Kernel
open Lib Block Memory List Nat

variable {P : Pool} {b : Buddy} {m m' : Memory} {l : List Block} {c d : Block} {i k n r t x : Nat}

theorem Tiling.disjoint_of_ne (h : Tiling P l) (hc : c ∈ l) (hd : d ∈ l) (hne : c ≠ d) :
    c.Disjoint d :=
  fun _ hx hy => hne (eq_of_covers_of_mem h.disjoint hc hd hx hy)

private theorem unlinkBuddy_miss {fuel : Nat} {prev : Option Nat} {curr : Nat} {ys : List Nat}
    (hc : Chain (· = 0) m.load32 curr ys) (ht : t ∉ ys) (hf : ys.length < fuel) :
    unlinkBuddy i t fuel prev curr b m = some (b, m, false) := by
  induction ys generalizing fuel prev curr with
  | nil =>
    obtain ⟨fuel, rfl⟩ := exists_eq_add_one_of_ne_zero (ne_zero_of_lt hf)
    have hz : curr = 0 := by simpa using hc
    rw [unlinkBuddy, if_pos hz]
  | cons a ys ih =>
    obtain ⟨fuel, rfl⟩ := exists_eq_add_one_of_ne_zero (ne_zero_of_lt hf)
    obtain ⟨rfl, hs, hc⟩ := chain_cons.mp hc
    rw [mem_cons, not_or] at ht
    rw [unlinkBuddy, if_neg hs, if_neg (Ne.symm ht.1)]
    exact ih hc ht.2 (lt_of_succ_lt_succ hf)

/-- The walk takes the node `t` out of the list. `xs` has been passed, and `prev` is its last node. -/
theorem unlinkBuddy_hit {fuel : Nat} {prev : Option Nat} {curr : Nat} {xs ys : List Nat}
    (hw : Chain (· = 0) m.load32 (b.freeLists i) (xs ++ ys)) (hp : prev = xs.getLast?)
    (hc : Chain (· = 0) m.load32 curr ys) (ht : t ∈ ys) (hf : ys.length < fuel)
    (hsep : ∀ p ∈ xs ++ ys, ∀ q ∈ xs ++ ys, p ≠ q → p + 4 ≤ q ∨ q + 4 ≤ p) :
    ∃ b' m', unlinkBuddy i t fuel prev curr b m = some (b', m', true) ∧
      b'.startAddr = b.startAddr ∧ (∀ j, j ≠ i → b'.freeLists j = b.freeLists j) ∧
      Chain (· = 0) m'.load32 (b'.freeLists i) ((xs ++ ys).erase t) ∧
      (m' = m ∨ ∃ p ∈ xs ++ ys, ∃ v, m' = m.store32 p v) := by
  induction ys generalizing fuel prev curr xs with
  | nil => simp at ht
  | cons a ys ih =>
    obtain ⟨fuel, rfl⟩ := exists_eq_add_one_of_ne_zero (ne_zero_of_lt hf)
    obtain ⟨rfl, hs, hc⟩ := chain_cons.mp hc
    have hnd := hw.nodup
    rw [unlinkBuddy, if_neg hs]
    by_cases hat : curr = t
    · subst hat
      rw [if_pos rfl]
      have hnx : curr ∉ xs := fun hm => (nodup_append.mp hnd).2.2 curr hm curr (by simp) rfl
      have herase : (xs ++ curr :: ys).erase curr = xs ++ ys := by
        rw [erase_append_right _ hnx, erase_cons_head]
      rw [herase]
      cases prev with
      | none =>
        have hx : xs = [] := getLast?_eq_none_iff.mp hp.symm
        subst hx
        refine ⟨_, m, rfl, rfl, fun j hj => by simp [hj], ?_, .inl rfl⟩
        simpa using hc
      | some p =>
        obtain ⟨ws, rfl⟩ := getLast?_eq_some_iff.mp hp.symm
        refine ⟨b, _, rfl, rfl, fun _ _ => rfl, ?_, .inr ⟨p, by simp, _, rfl⟩⟩
        simp only [append_assoc, singleton_append] at hw hnd ⊢
        refine Chain.unlink hw (load32_store32 _ _ (load32_lt _ _)) fun q hq => ?_
        have hqp : q ≠ p := by
          rintro rfl
          simp only [nodup_append, nodup_cons, mem_cons] at hnd
          rcases mem_append.mp hq with hq | hq
          · exact hnd.2.2 q hq q (by simp) rfl
          · exact hnd.2.1.1 (by simp [hq])
        refine load32_store32_other m _ (hsep q ?_ p (by simp) hqp)
        rcases mem_append.mp hq with hq | hq <;> simp [hq]
    · rw [if_neg hat]
      have hmem : t ∈ ys := by
        rcases mem_cons.mp ht with rfl | h
        · exact absurd rfl hat
        · exact h
      have he : xs ++ curr :: ys = (xs ++ [curr]) ++ ys := by simp
      rw [he] at hw hsep ⊢
      exact ih hw (by simp) hc hmem (lt_of_succ_lt_succ hf) hsep

theorem GoodBlock.buddyAddr_lt (hc : GoodBlock P c) : c.buddy.addr < 2 ^ 31 := by
  have hi := hc.inside
  have hs := P.size_lt
  have hp := Nat.two_pow_pos c.order
  refine Nat.xor_lt_two_pow (by omega) (Nat.pow_lt_pow_right (by omega) ?_)
  have := hc.le_max
  simp only [buddyMaxOrder] at this
  omega

private theorem buddyAddrOf_eq (hb : b.startAddr = P.start) (hc : GoodBlock P c) :
    buddyAddrOf b (P.start + c.addr) c.order = (P.start + c.buddy.addr) % 2 ^ 32 := by
  have hlt := hc.addr_lt
  rw [buddyAddrOf, hb, show P.start + c.addr + 2 ^ 32 - P.start = c.addr + 2 ^ 32 by omega,
    add_mod_right, mod_eq_of_lt (show c.addr < 2 ^ 32 by omega), add_comm]
  rfl

private theorem buddyAddrOf_mem (hb : b.startAddr = P.start) (ht : Tiling P (c :: l)) :
    buddyAddrOf b (P.start + c.addr) c.order ∈ (addrsAt l c.order).map (P.start + ·) ↔
      c.buddy ∈ l := by
  have hc := ht.good c (by simp)
  have hbl := hc.buddyAddr_lt
  have hstop := P.stop_lt
  have hle := P.start_le
  rw [buddyAddrOf_eq hb hc, mem_map]
  constructor
  · rintro ⟨r, hr, he⟩
    have hlt := (ht.of_cons.good _ (mem_addrsAt.mp hr)).addr_lt
    simp only at hlt
    obtain rfl : r = c.buddy.addr := by omega
    exact mem_addrsAt.mp hr
  · intro hm
    have hlt := (ht.of_cons.good _ hm).addr_lt
    exact ⟨_, mem_addrsAt.mpr hm, (mod_eq_of_lt hlt).symm⟩

theorem GoodBlock.parent (hc : GoodBlock P c) (hb : GoodBlock P c.buddy)
    (ho : c.order < buddyMaxOrder) : GoodBlock P c.parent := by
  have hmin := hc.min_le
  have hp := Nat.two_pow_pos (c.order + 1)
  refine ⟨hc.aligned.parent, by rw [parent_order]; omega, ho, ?_, ?_⟩
  · have hci := hc.inside
    have hbi := hb.inside
    have hlast : c.parent.Covers (c.parent.addr + 2 ^ (c.order + 1) - 1) := by
      simp only [Covers, parent_order]
      omega
    simp only [parent_order, buddy_order] at *
    rcases (parent_covers hc.aligned).mp hlast with h | h <;>
      simp only [Covers, buddy_order] at h <;> omega
  · have hcn := hc.nonnull
    have hbn := hb.nonnull
    simp only [Block.parent]
    omega

theorem Tiling.merge (ht : Tiling P (c :: l)) (hm : c.buddy ∈ l) (ho : c.order < buddyMaxOrder) :
    Tiling P (c.parent :: l.erase c.buddy) := by
  have hc := ht.good c (by simp)
  refine ht.congr (fun d hd => ?_) fun x => ?_
  · rcases mem_cons.mp hd with rfl | hd
    · exact hc.parent (ht.of_cons.good _ hm) ho
    · exact ht.of_cons.good d (mem_of_mem_erase hd)
  · rw [← coverCount_merge hc.aligned, coverCount_cons, coverCount_erase hm, coverCount_cons]

private theorem unlinkBuddy_refines (h : FreeLists P b m l) (ht : Tiling P l) (hd : d ∈ l) :
    ∃ b' m', unlinkBuddy (d.order - buddyMinOrder) (P.start + d.addr) walkFuel none
        (b.freeLists (d.order - buddyMinOrder)) b m = some (b', m', true) ∧
      FreeLists P b' m' (l.erase d) ∧ ∀ x, Outside P l x → m' x = m x := by
  have hg := ht.good d hd
  have hmin := hg.min_le
  have hmax := hg.le_max
  have hi : d.order - buddyMinOrder < buddyNumOrders := by
    simp only [buddyNumOrders, buddyMaxOrder, buddyMinOrder] at *
    omega
  have hoi : d.order - buddyMinOrder + buddyMinOrder = d.order := by omega
  have hinj : Function.Injective (P.start + ·) := fun _ _ => add_left_cancel
  have hw := h.chain _ hi
  rw [hoi] at hw
  have hlen : ((addrsAt l d.order).map (P.start + ·)).length < walkFuel := by
    rw [length_map]
    exact addrsAt_length_le.trans_lt ht.length_lt
  have hsep : ∀ p ∈ (addrsAt l d.order).map (P.start + ·), ∀ q ∈ (addrsAt l d.order).map (P.start + ·),
      p ≠ q → p + 4 ≤ q ∨ q + 4 ≤ p := by
    intro p hp q hq hne
    obtain ⟨r, hr, rfl⟩ := mem_map.mp hp
    obtain ⟨s, hs, rfl⟩ := mem_map.mp hq
    refine (ht.good _ (mem_addrsAt.mp hr)).words_apart (ht.good _ (mem_addrsAt.mp hs)) ?_
    refine ht.disjoint_of_ne (mem_addrsAt.mp hr) (mem_addrsAt.mp hs) fun he => hne ?_
    exact congrArg (P.start + ·) (congrArg Block.addr he)
  have hmem : P.start + d.addr ∈ (addrsAt l d.order).map (P.start + ·) :=
    mem_map_of_mem (mem_addrsAt.mpr hd)
  obtain ⟨b', m', hu, hst, hheads, hch, hm'⟩ :=
    unlinkBuddy_hit (show Chain _ _ _ ([] ++ _) from hw) rfl hw hmem hlen hsep
  -- The only word written belongs to a block of the same list.
  have hwrite : m' = m ∨ ∃ r, (⟨r, d.order⟩ : Block) ∈ l ∧ ∃ v, m' = m.store32 (P.start + r) v := by
    rcases hm' with rfl | ⟨p, hp, v, rfl⟩
    · exact .inl rfl
    · obtain ⟨r, hr, rfl⟩ := mem_map.mp hp
      exact .inr ⟨r, mem_addrsAt.mp hr, v, rfl⟩
  refine ⟨b', m', hu, ⟨hst.trans h.startAddr, fun j hj => ?_,
    fun c hc => h.orders c (mem_of_mem_erase hc)⟩, fun x hx => ?_⟩
  · rw [addrsAt_erase]
    by_cases hji : j = d.order - buddyMinOrder
    · subst hji
      rw [hoi, if_pos rfl, map_erase hinj]
      exact hch
    · rw [if_neg (by omega), hheads j hji]
      refine (h.chain j hj).congr fun a ha => ?_
      obtain ⟨s, hs, rfl⟩ := mem_map.mp ha
      rcases hwrite with rfl | ⟨r, hr, v, rfl⟩
      · rfl
      · have hs' := mem_addrsAt.mp hs
        refine ((ht.good _ hr).agreeOn_store (ht.good _ hs')
          (ht.disjoint_of_ne hr hs' fun he => hji ?_) v).load32
        have : d.order = j + buddyMinOrder := congrArg Block.order he
        omega
  · rcases hwrite with rfl | ⟨r, hr, v, rfl⟩
    · rfl
    · exact hx.store hr (ht.good _ hr) v

/-- The coalescing loop ends and merges a detached block like the buddy system. -/
theorem coalesce_refines (h : FreeLists P b m l) (ht : Tiling P (c :: l))
    (hn : c.order + n ≤ buddyMaxOrder) :
    ∃ b' m', coalesce n c.order (P.start + c.addr) b m =
        some (b', m', (coalesceFree n c l).1.order, P.start + (coalesceFree n c l).1.addr) ∧
      FreeLists P b' m' (coalesceFree n c l).2 ∧
      Tiling P ((coalesceFree n c l).1 :: (coalesceFree n c l).2) ∧
      ∀ x, Outside P (c :: l) x → m' x = m x := by
  induction n generalizing c b m l with
  | zero => exact ⟨b, m, rfl, h, ht, fun _ _ => rfl⟩
  | succ n ih =>
    have hc := ht.good c (by simp)
    have hmem := buddyAddrOf_mem h.startAddr ht
    rw [coalesce, coalesceFree]
    by_cases hb : c.buddy ∈ l
    · have hbg := ht.of_cons.good _ hb
      have haddr : buddyAddrOf b (P.start + c.addr) c.order = P.start + c.buddy.addr := by
        rw [buddyAddrOf_eq h.startAddr hc, mod_eq_of_lt hbg.addr_lt]
      obtain ⟨b₁, m₁, hu, hf, hm₁⟩ := unlinkBuddy_refines h ht.of_cons hb
      rw [buddy_order] at hu
      obtain ⟨b', m', hco, hf', ht', hm'⟩ :=
        ih hf (ht.merge hb (by omega)) (by rw [parent_order]; omega)
      have hmin : (if P.start + c.buddy.addr < P.start + c.addr then P.start + c.buddy.addr
          else P.start + c.addr) = P.start + c.parent.addr := by
        simp only [Block.parent]
        split_ifs <;> omega
      simp only [haddr, hu, hmin, if_pos hb]
      refine ⟨b', m', hco, hf', ht', fun x hx => ?_⟩
      rw [hm' x (hx.of_cover fun y => ?_), hm₁ x hx.of_cons]
      rw [← coverCount_merge hc.aligned, coverCount_cons, coverCount_erase hb, coverCount_cons]
    · have hw := h.chain (c.order - buddyMinOrder) (by
        simp only [buddyNumOrders, buddyMaxOrder, buddyMinOrder] at *
        omega)
      have hmin := hc.min_le
      rw [show c.order - buddyMinOrder + buddyMinOrder = c.order by omega] at hw
      have hmiss := @unlinkBuddy_miss b m (c.order - buddyMinOrder) _ walkFuel none _ _ hw (mt hmem.mp hb)
        (by rw [length_map]; exact addrsAt_length_le.trans_lt ht.of_cons.length_lt)
      simp only [hmiss, if_neg hb]
      exact ⟨b, m, rfl, h, ht, fun _ _ => rfl⟩

theorem buddyFree_refines {ptr size : Nat} (h : FreeLists P b m l) (ht : Tiling P (c :: l))
    (hp : ptr = P.start + c.addr) (hs : getOrder size = some k) (ho : c.order = max k buddyMinOrder) :
    ∃ b' m', buddyFree b m ptr size = some (b', m') ∧
      FreeLists P b' m' (giveBlock buddyMaxOrder c l) ∧
      Tiling P (giveBlock buddyMaxOrder c l) ∧ ∀ x, Outside P (c :: l) x → m' x = m x := by
  have hc := ht.good c (by simp)
  have hmax := hc.le_max
  obtain ⟨b₁, m₁, hco, hf, ht', hm⟩ :=
    coalesce_refines (n := buddyMaxOrder - c.order) h ht (by omega)
  have hg := ht'.good _ (.head _)
  have hgm := hg.le_max
  subst hp
  rw [buddyFree, if_neg hc.nonnull, hs]
  simp only [Option.bind_some, ← ho, hco, Option.map_some]
  rw [if_neg (by simp only [buddyNumOrders, buddyMinOrder] at *; omega)]
  refine ⟨_, _, rfl, hf.push ht', ht', fun x hx => ?_⟩
  have hx' : Outside P ((coalesceFree (buddyMaxOrder - c.order) c l).1 ::
      (coalesceFree (buddyMaxOrder - c.order) c l).2) x :=
    hx.of_cover fun _ => coverCount_coalesceFree hc.aligned
  exact (hx'.store (.head _) hg _).trans (hm x hx)

end RetroOs.Kernel
