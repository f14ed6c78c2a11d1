import RetroOs.Kernel.BuddyRefinement

/-! `buddy_init` carves the pool into blocks of falling order that leave no buddies. -/
namespace RetroOs.Kernel
open Lib Block Memory Nat List

variable {P : Pool} {b : Buddy} {m m' : Memory} {l : List Block} {r fuel : Nat}

/-- How far the carving loop has come after `r` bytes. -/
structure CarvedTo (P : Pool) (r : Nat) : Prop where
  le : P.start + r ≤ P.stop
  page : 4096 ∣ r
  aligned : ∀ j ≤ buddyMaxOrder, 2 ^ j ≤ P.stop - P.start - r → 2 ^ j ∣ r

structure Carved (P : Pool) (l : List Block) (r : Nat) : Prop extends CarvedTo P r where
  good : ∀ c ∈ l, GoodBlock P c
  below : ∀ c ∈ l, c.addr + 2 ^ c.order ≤ r
  disjoint : ∀ x, coverCount l x ≤ 1
  small : ∀ c ∈ l, c.order < buddyMaxOrder → P.stop - P.start - r < 2 ^ c.order
  single : ∀ c ∈ l, ∀ d ∈ l, c.order = d.order → c.order < buddyMaxOrder → c = d
  covered : P.start ≠ 0 → ∀ x < r, ∃ c ∈ l, c.Covers x
  null : P.start + r = 0 → l = []

def carveOrder (P : Pool) (r : Nat) : Nat := min buddyMaxOrder (log 2 (P.stop - P.start - r))

theorem carveOrder_fits (hr : P.start + r < P.stop) :
    2 ^ carveOrder P r ≤ P.stop - P.start - r :=
  pow_le_of_le_log (by omega) (min_le_right _ _)

private theorem le_carveOrder {j : Nat} (hj : j ≤ buddyMaxOrder) (hp : 2 ^ j ≤ P.stop - P.start - r) :
    j ≤ carveOrder P r :=
  le_min hj (le_log_of_pow_le (by omega) hp)

private theorem carveOrder_largest (ho : carveOrder P r < buddyMaxOrder) :
    P.stop - P.start - r < 2 ^ (carveOrder P r + 1) := by
  have he : carveOrder P r = log 2 (P.stop - P.start - r) := by
    simp only [carveOrder] at ho ⊢
    omega
  rw [he]
  exact lt_pow_succ_log_self (by omega) _

theorem CarvedTo.min_le (h : CarvedTo P r) (hr : P.start + r < P.stop) :
    buddyMinOrder ≤ carveOrder P r := by
  refine le_carveOrder (by decide) ?_
  have hpage := h.page
  have hstart := P.start_page
  have hstop := P.stop_page
  simp only [buddyMinOrder]
  omega

theorem CarvedTo.step (h : CarvedTo P r) (hr : P.start + r < P.stop) :
    CarvedTo P (r + 2 ^ carveOrder P r) where
  le := by
    have := carveOrder_fits hr
    omega
  page := Nat.dvd_add h.page ((pow_dvd_pow 2 (h.min_le hr) : 2 ^ 12 ∣ _))
  aligned j hj hp := by
    have hpj : 2 ^ j ≤ P.stop - P.start - r := hp.trans (Nat.sub_le_sub_left (Nat.le_add_right _ _) _)
    exact Nat.dvd_add (h.aligned j hj hpj) (pow_dvd_pow 2 (le_carveOrder hj hpj))

theorem CarvedTo.block (h : CarvedTo P r) (hr : P.start + r < P.stop) (h0 : P.start + r ≠ 0) :
    GoodBlock P ⟨r, carveOrder P r⟩ where
  aligned := h.aligned _ (min_le_left _ _) (carveOrder_fits hr)
  min_le := h.min_le hr
  le_max := min_le_left _ _
  inside := by
    have := carveOrder_fits hr
    simp only
    omega
  nonnull := h0

theorem Carved.tiling (h : Carved P l r) : Tiling P l := ⟨h.good, h.disjoint⟩

theorem Carved.step (h : Carved P l r) (hr : P.start + r < P.stop) (h0 : P.start + r ≠ 0) :
    Carved P (⟨r, carveOrder P r⟩ :: l) (r + 2 ^ carveOrder P r) where
  toCarvedTo := h.toCarvedTo.step hr
  good := forall_mem_cons.mpr ⟨h.toCarvedTo.block hr h0, h.good⟩
  below := forall_mem_cons.mpr ⟨le_rfl, fun c hc => (h.below c hc).trans (le_add_right _ _)⟩
  disjoint x := by
    rw [coverCount_cons]
    have hd := h.disjoint x
    split_ifs with hx
    · by_contra hn
      obtain ⟨c, hc, hcx⟩ := coverCount_pos.mp (show 0 < coverCount l x by omega)
      have := h.below c hc
      simp only [Covers] at hx hcx
      omega
    · exact hd
  small := forall_mem_cons.mpr ⟨fun ho => by
      have := carveOrder_largest ho
      have := carveOrder_fits hr
      have := pow_succ 2 (carveOrder P r)
      simp only
      omega,
    fun c hc ho => (Nat.sub_le_sub_left (Nat.le_add_right _ _) _).trans_lt (h.small c hc ho)⟩
  single := by
    have hne : ∀ c ∈ l, c.order = carveOrder P r → ¬ c.order < buddyMaxOrder := by
      intro c hc he ho
      have := h.small c hc ho
      have := carveOrder_fits hr
      rw [he] at *
      omega
    intro c hc d hd he ho
    rcases mem_cons.mp hc with rfl | hc <;> rcases mem_cons.mp hd with rfl | hd
    · rfl
    · exact absurd (he ▸ ho) (hne d hd he.symm)
    · exact absurd ho (hne c hc he)
    · exact h.single c hc d hd he ho
  covered hs x hx := by
    by_cases hlt : x < r
    · obtain ⟨c, hc, hcx⟩ := h.covered hs x hlt
      exact ⟨c, .tail _ hc, hcx⟩
    · exact ⟨_, List.mem_cons_self, by simp only [Covers]; omega⟩
  null he := by
    have := Nat.two_pow_pos (carveOrder P r)
    omega

theorem Carved.step_null (h : Carved P l r) (hr : P.start + r < P.stop) (h0 : P.start + r = 0) :
    Carved P [] (r + 2 ^ carveOrder P r) where
  toCarvedTo := h.toCarvedTo.step hr
  good := by simp
  below := by simp
  disjoint := by simp
  small := by simp
  single := by simp
  covered hs := absurd (by omega) hs
  null _ := rfl

theorem Carved.noBuddies (h : Carved P l r) : NoBuddies buddyMaxOrder l := fun c hc ho hb =>
  c.buddy_ne (h.single c hc _ hb rfl ho).symm

private theorem FreeLists.push_null (h : FreeLists P b m []) {i : Nat} :
    FreeLists P (pushBlock b m i 0).1 (pushBlock b m i 0).2 [] where
  startAddr := h.startAddr
  chain j hj := by
    have := h.chain j hj
    simp only [addrsAt, filter_nil, map_nil, chain_nil, pushBlock,
      Function.update_apply] at this ⊢
    split_ifs <;> trivial
  orders := h.orders

private theorem carve_order_eq (hr : P.start + r < P.stop) (he : b.endAddr = P.stop) :
    (getOrderFloor (b.endAddr - (P.start + r))).map
      (fun floor => if buddyMaxOrder < floor then buddyMaxOrder else floor) = some (carveOrder P r) := by
  have hs := P.size_lt
  rw [he, show P.stop - (P.start + r) = P.stop - P.start - r by omega,
    getOrderFloor_eq (by omega) (by omega), Option.map_some, carveOrder]
  congr 1
  split <;> omega

private theorem buddyInitLoop_refines (h : Carved P l r) (hl : FreeLists P b m l) (he : b.endAddr = P.stop)
    (hf : P.stop - P.start - r < fuel * 4096) :
    ∃ b' m' l', buddyInitLoop fuel (P.start + r) b m = some (b', m') ∧ FreeLists P b' m' l' ∧
      Carved P l' (P.stop - P.start) ∧
      ∀ x, x < P.start + r ∨ P.stop ≤ x → m' x = m x := by
  induction fuel generalizing b m l r with
  | zero => omega
  | succ fuel ih =>
    have hle := h.le
    rw [buddyInitLoop]
    by_cases hr : P.start + r < P.stop
    · have hfits := carveOrder_fits hr
      have hmin := h.toCarvedTo.min_le hr
      have hpage : 2 ^ 12 ≤ 2 ^ carveOrder P r := Nat.pow_le_pow_right (by omega) hmin
      have hstop := P.stop_lt
      obtain ⟨floor, hfl, ho⟩ := Option.map_eq_some_iff.mp (carve_order_eq hr he)
      have hnext : (P.start + r + 2 ^ carveOrder P r) % 2 ^ 32 = P.start + (r + 2 ^ carveOrder P r) := by
        rw [mod_eq_of_lt (by omega), add_assoc]
      simp only [if_pos (he ▸ hr), hfl, ho, if_neg (not_lt.mpr hmin), hnext]
      by_cases h0 : P.start + r = 0
      · obtain rfl := h.null h0
        rw [h0]
        obtain ⟨b', m', l', hrun, hl', hc', hm'⟩ :=
          ih (h.step_null hr h0) hl.push_null he (by omega)
        refine ⟨b', m', l', hrun, hl', hc', fun x hx => ?_⟩
        rw [hm' x (by omega)]
        exact store32_agreeOn (a := x) (n := 1) m _ (by omega) x le_rfl (by omega)
      · have hc := h.step hr h0
        obtain ⟨b', m', l', hrun, hl', hc', hm'⟩ := ih hc (hl.push hc.tiling) he (by omega)
        refine ⟨b', m', l', hrun, hl', hc', fun x hx => ?_⟩
        rw [hm' x (by omega)]
        exact store32_agreeOn (a := x) (n := 1) m _ (by simp only; omega) x le_rfl (by omega)
    · obtain rfl : r = P.stop - P.start := by omega
      rw [if_neg (by omega)]
      exact ⟨b, m, l, rfl, hl, h, fun _ _ => rfl⟩

theorem buddyInit_refines (P : Pool) (m : Memory) :
    ∃ b' m' l', buddyInit m P.start P.stop = some (b', m') ∧ FreeLists P b' m' l' ∧ Tiling P l' ∧
      NoBuddies buddyMaxOrder l' ∧
      (P.start ≠ 0 → ∀ x < P.stop - P.start, ∃ c ∈ l', c.Covers x) ∧
      ∀ x, x < P.start ∨ P.stop ≤ x → m' x = m x := by
  have h : Carved P [] 0 :=
    { le := P.start_le, page := dvd_zero _, aligned := fun _ _ _ => dvd_zero _, good := by simp,
      below := by simp, disjoint := by simp, small := by simp, single := by simp,
      covered := by simp, null := fun _ => rfl }
  have hl : FreeLists P ⟨P.start, P.stop, fun _ => 0⟩ m [] := ⟨rfl, fun _ _ => by simp [addrsAt], by simp⟩
  have hs := P.size_lt
  obtain ⟨b', m', l', hrun, hl', hc', hm'⟩ :=
    buddyInitLoop_refines h hl rfl (show P.stop - P.start - 0 < walkFuel * 4096 by simp only [walkFuel]; omega)
  exact ⟨b', m', l', hrun, hl', hc'.tiling, hc'.noBuddies, hc'.covered, hm'⟩

end RetroOs.Kernel
