import Mathlib.Data.Int.Order.Basic
import Mathlib.Data.List.Perm.Basic

/-! Comparisons with three outcomes, what it is to sort stably by one, and the passes of a bubble sort. -/
namespace RetroOs.Lib
open List Int

/-- A comparison that is a total preorder: the sign of its result says how the two are ordered. -/
structure TotalPreorder {α : Type*} (compar : α → α → ℤ) : Prop where
  pos_iff : ∀ x y, 0 < compar x y ↔ compar y x < 0
  trans : ∀ x y z, compar x y ≤ 0 → compar y z ≤ 0 → compar x z ≤ 0

variable {α : Type*} {compar : α → α → ℤ} {x y z m : α} {l l' u v xs ys zs : List α}

namespace TotalPreorder

theorem refl (h : TotalPreorder compar) (x : α) : compar x x = 0 := by
  have hx := h.pos_iff x x
  omega

theorem le_of_pos (h : TotalPreorder compar) (hxy : 0 < compar x y) : compar y x ≤ 0 := le_of_lt ((h.pos_iff x y).mp hxy)

theorem nonneg (h : TotalPreorder compar) (hxy : compar x y ≤ 0) : 0 ≤ compar y x := by
  have hyx := h.pos_iff x y
  omega

theorem eq_symm (h : TotalPreorder compar) (hxy : compar x y = 0) : compar y x = 0 := by
  have hyx := h.pos_iff x y
  have hxy' := h.pos_iff y x
  omega

theorem eq_trans (h : TotalPreorder compar) (hxy : compar x y = 0) (hyz : compar y z = 0) : compar x z = 0 :=
  le_antisymm (h.trans x y z (le_of_eq hxy) (le_of_eq hyz))
    (h.nonneg (h.trans z y x (le_of_eq (h.eq_symm hyz)) (le_of_eq (h.eq_symm hxy))))

theorem pos_of_le (h : TotalPreorder compar) (hzx : 0 < compar z x) (hyx : compar y x ≤ 0) : 0 < compar z y := by
  by_contra hzy
  exact absurd (h.trans z y x (by omega) hyx) (by omega)

theorem neg_of_le (h : TotalPreorder compar) (hzx : compar z x < 0) (hxy : compar x y ≤ 0) : compar z y < 0 := by
  rw [← h.pos_iff] at hzx ⊢
  by_contra hyz
  exact absurd (h.trans x y z hxy (by omega)) (by omega)

end TotalPreorder

/-! ### Stable sorting -/

/-- The same elements, and those that are equal to each other in the same order. -/
structure Rearranged (compar : α → α → ℤ) (xs ys : List α) : Prop where
  perm : ys.Perm xs
  order : ∀ z, ys.filter (fun y => compar z y = 0) = xs.filter (fun y => compar z y = 0)

/-- The second list is the first in non-decreasing order, with equal elements in the order that they had. -/
structure StablySorted (compar : α → α → ℤ) (xs ys : List α) : Prop extends Rearranged compar xs ys where
  sorted : ys.Pairwise fun x y => compar x y ≤ 0

theorem sorted_le (h : TotalPreorder compar) {i j : ℕ} (hs : ys.Pairwise fun x y => compar x y ≤ 0) (hij : i ≤ j)
    (hx : ys[i]? = some x) (hy : ys[j]? = some y) : compar x y ≤ 0 := by
  obtain ⟨hi, rfl⟩ := List.getElem?_eq_some_iff.mp hx
  obtain ⟨hj, rfl⟩ := List.getElem?_eq_some_iff.mp hy
  rcases Nat.lt_or_eq_of_le hij with hlt | rfl
  · exact List.pairwise_iff_getElem.mp hs i j hi hj hlt
  · exact le_of_eq (h.refl _)

namespace Rearranged

theorem refl (compar : α → α → ℤ) (xs : List α) : Rearranged compar xs xs := ⟨List.Perm.refl xs, fun _ => rfl⟩

theorem trans (h : Rearranged compar xs ys) (h' : Rearranged compar ys zs) : Rearranged compar xs zs where
  perm := h'.perm.trans h.perm
  order z := (h'.order z).trans (h.order z)

theorem cons (h : Rearranged compar xs ys) (x : α) : Rearranged compar (x :: xs) (x :: ys) where
  perm := h.perm.cons x
  order z := by rw [filter_cons, filter_cons, h.order z]

theorem append (h : Rearranged compar xs ys) (v : List α) : Rearranged compar (xs ++ v) (ys ++ v) where
  perm := h.perm.append_right v
  order z := by rw [filter_append, filter_append, h.order z]

theorem swap (h : TotalPreorder compar) (hxy : 0 < compar x y) (l : List α) : Rearranged compar (x :: y :: l) (y :: x :: l) where
  perm := List.Perm.swap x y l
  order z := by
    simp only [filter_cons, decide_eq_true_eq]
    by_cases hx : compar z x = 0
    · have hy : compar z y ≠ 0 := fun hy => absurd (h.eq_trans (h.eq_symm hx) hy) (by omega)
      rw [if_neg hy, if_neg hy]
    · rw [if_neg hx, if_neg hx]

end Rearranged

/-! ### Passes -/

/-- One pass of a bubble sort: the element that is held changes places with the next one where it is the greater of the two. -/
def bubble (compar : α → α → ℤ) : α → List α → List α
  | x, [] => [x]
  | x, y :: l => if 0 < compar x y then y :: bubble compar x l else x :: bubble compar y l

theorem bubble_rearranged (h : TotalPreorder compar) (x : α) (l : List α) : Rearranged compar (x :: l) (bubble compar x l) := by
  induction l generalizing x with
  | nil => exact Rearranged.refl compar [x]
  | cons y l ih =>
    rw [bubble]
    split
    · next hpos => exact (Rearranged.swap h hpos l).trans ((ih x).cons y)
    · exact (ih y).cons x

theorem bubble_greatest (h : TotalPreorder compar) (x : α) (l : List α) :
    ∃ u m, bubble compar x l = u ++ [m] ∧ ∀ z ∈ x :: l, compar z m ≤ 0 := by
  induction l generalizing x with
  | nil => exact ⟨[], x, rfl, fun z hz => by rw [mem_singleton.mp hz, h.refl]⟩
  | cons y l ih =>
    rw [bubble]
    split
    · next hpos =>
      obtain ⟨u, m, heq, hmax⟩ := ih x
      refine ⟨y :: u, m, by rw [heq, cons_append], fun z hz => ?_⟩
      rcases mem_cons.mp hz with rfl | hz
      · exact hmax z (.head _)
      rcases mem_cons.mp hz with rfl | hz
      · exact h.trans z x m (h.le_of_pos hpos) (hmax x (.head _))
      · exact hmax z (.tail _ hz)
    · next hpos =>
      obtain ⟨u, m, heq, hmax⟩ := ih y
      refine ⟨x :: u, m, by rw [heq, cons_append], fun z hz => ?_⟩
      rcases mem_cons.mp hz with rfl | hz
      · exact h.trans z y m (by omega) (hmax y (.head _))
      · exact hmax z hz

/-- The elements `v` are in their last places, and `u` is still to be sorted. -/
structure Settled (compar : α → α → ℤ) (xs u v : List α) : Prop where
  rearranged : Rearranged compar xs (u ++ v)
  sorted : v.Pairwise fun x y => compar x y ≤ 0
  below : ∀ x ∈ u, ∀ y ∈ v, compar x y ≤ 0

namespace Settled

theorem start (compar : α → α → ℤ) (xs : List α) : Settled compar xs xs [] where
  rearranged := by
    rw [append_nil]
    exact Rearranged.refl compar xs
  sorted := List.Pairwise.nil
  below _ _ _ hy := absurd hy not_mem_nil

theorem pass (h : TotalPreorder compar) (hs : Settled compar xs (x :: l) v) :
    ∃ u m, bubble compar x l = u ++ [m] ∧ u.length = l.length ∧ Settled compar xs u (m :: v) := by
  obtain ⟨u, m, heq, hmax⟩ := bubble_greatest h x l
  have hpass := bubble_rearranged h x l
  rw [heq] at hpass
  have hmem : ∀ z ∈ u ++ [m], z ∈ x :: l := fun z hz => hpass.perm.mem_iff.mp hz
  have hm : m ∈ x :: l := hmem m (mem_append_right _ (mem_singleton_self m))
  have hu : ∀ z ∈ u, z ∈ x :: l := fun z hz => hmem z (mem_append_left _ hz)
  refine ⟨u, m, heq, ?_, ?_, ?_, ?_⟩
  · have hlen := hpass.perm.length_eq
    rw [length_append, length_cons] at hlen
    exact Nat.succ.inj hlen
  · have happend := hs.rearranged.trans (hpass.append v)
    rwa [append_assoc, singleton_append] at happend
  · exact pairwise_cons.mpr ⟨hs.below m hm, hs.sorted⟩
  · intro z hz y hy
    rcases mem_cons.mp hy with rfl | hy
    · exact hmax z (hu z hz)
    · exact hs.below z (hu z hz) y hy

theorem finish (hs : Settled compar xs u v) (hu : u.length ≤ 1) : StablySorted compar xs (u ++ v) where
  toRearranged := hs.rearranged
  sorted := by
    match u, hu with
    | [], _ => exact hs.sorted
    | [x], _ => exact pairwise_cons.mpr ⟨hs.below x (mem_singleton_self x), hs.sorted⟩

end Settled
end RetroOs.Lib
