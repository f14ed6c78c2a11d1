import Mathlib.Data.Finset.Card

/-! References to objects out of a set of slots, counted at each object. An object is live as long as it is referred to;
objects are named by number, and 0 is none. -/
namespace RetroOs.Lib
open Function Finset
variable {κ : Type} {slots : Finset κ} {holds : κ → ℕ} {d e : ℕ} {x : κ} {holds' : κ → ℕ} {more : Finset κ}
  {opened released : List ℕ}

def refs (slots : Finset κ) (holds : κ → ℕ) (d : ℕ) : ℕ := (slots.filter fun x => holds x = d).card

theorem refs_pos : 0 < refs slots holds d ↔ ∃ x ∈ slots, holds x = d := by
  rw [refs, card_pos, filter_nonempty_iff]

theorem refs_le (slots : Finset κ) (holds : κ → ℕ) (d : ℕ) : refs slots holds d ≤ slots.card := card_filter_le _ _

theorem refs_congr (h : ∀ x ∈ slots, holds' x = holds x) : refs slots holds' d = refs slots holds d := by
  rw [refs, refs, filter_congr fun x hx => by rw [h x hx]]

/-- Each live object has its number of references, and is live for as long as there are some. -/
structure Counted {κ : Type} (slots : Finset κ) (holds : κ → ℕ) (count : ℕ → ℕ) (live : Finset ℕ) : Prop where
  null : 0 ∉ live
  counts : ∀ d ∈ live, count d = refs slots holds d
  live_iff : ∀ d ≠ 0, d ∈ live ↔ 0 < refs slots holds d

theorem Counted.live_of_holds {count : ℕ → ℕ} {live : Finset ℕ} (h : Counted slots holds count live) (hx : x ∈ slots) (hd : holds x ≠ 0) : holds x ∈ live :=
  (h.live_iff _ hd).mpr (refs_pos.mpr ⟨x, hx, rfl⟩)

variable [DecidableEq κ]

theorem refs_union (h : Disjoint slots more) : refs (slots ∪ more) holds d = refs slots holds d + refs more holds d := by
  rw [refs, filter_union, card_union_of_disjoint (disjoint_filter_filter h), refs, refs]

theorem refs_erase (h : x ∈ slots) (holds : κ → ℕ) (d : ℕ) :
    refs slots holds d = refs (slots.erase x) holds d + if holds x = d then 1 else 0 := by
  rw [refs, refs, filter_erase]
  split_ifs with hx
  · rw [card_erase_add_one (mem_filter.mpr ⟨h, hx⟩)]
  · have hno : x ∉ slots.filter fun x => holds x = d := fun hm => hx (mem_filter.mp hm).2
    rw [erase_eq_of_notMem hno, Nat.add_zero]

theorem refs_update (h : x ∈ slots) (holds : κ → ℕ) (e d : ℕ) :
    refs slots (update holds x e) d + (if holds x = d then 1 else 0) = refs slots holds d + if e = d then 1 else 0 := by
  have hrest : refs (slots.erase x) (update holds x e) d = refs (slots.erase x) holds d :=
    refs_congr fun y hy => update_of_ne (ne_of_mem_erase hy) _ _
  rw [refs_erase h (update holds x e), refs_erase h holds, hrest, update_self]
  omega

namespace Counted
variable {count count' : ℕ → ℕ} {live : Finset ℕ}

omit [DecidableEq κ] in
theorem congr (h : Counted slots holds count live) (hcount : ∀ d ∈ live, count' d = count d) : Counted slots holds count' live :=
  ⟨h.null, fun d hd => (hcount d hd).trans (h.counts d hd), h.live_iff⟩

theorem drop (h : Counted slots holds count live) (hx : x ∈ slots) (hd : holds x = d) (hne : d ≠ 0)
    (hcount : count' d = count d - 1) (hother : ∀ e, e ≠ d → count' e = count e) :
    Counted slots (update holds x 0) count' (if count' d = 0 then live.erase d else live) := by
  have hlive : d ∈ live := hd ▸ h.live_of_holds hx (hd ▸ hne)
  have hrefs := refs_update hx holds 0
  have hself : refs slots (update holds x 0) d = count' d := by
    have := hrefs d
    rw [if_pos hd, if_neg hne.symm] at this
    have := h.counts d hlive
    omega
  have hrest : ∀ e, e ≠ d → e ≠ 0 → refs slots (update holds x 0) e = refs slots holds e := by
    intro e he hzero
    have := hrefs e
    rwa [hd, if_neg he.symm, if_neg hzero.symm] at this
  have hmem : ∀ e, e ≠ d → (e ∈ (if count' d = 0 then live.erase d else live) ↔ e ∈ live) := by
    intro e he
    split_ifs
    · exact mem_erase.trans (and_iff_right he)
    · rfl
  refine ⟨fun hm => h.null ((hmem 0 hne.symm).mp hm), fun e he => ?_, fun e hzero => ?_⟩
  · by_cases hed : e = d
    · exact hed ▸ hself.symm
    · have hin := (hmem e hed).mp he
      rw [hother e hed, h.counts e hin, hrest e hed fun hz => h.null (hz ▸ hin)]
  · by_cases hed : e = d
    · subst hed
      rw [hself]
      split_ifs with hlast
      · exact iff_of_false (fun hm => (mem_erase.mp hm).1 rfl) (by omega)
      · exact iff_of_true hlive (Nat.pos_of_ne_zero hlast)
    · rw [hmem e hed, hrest e hed hzero]
      exact h.live_iff e hzero

theorem grab (h : Counted slots holds count live) (hx : x ∈ slots) (hempty : holds x = 0) (hd : d ∈ live)
    (hcount : count' d = count d + 1) (hother : ∀ e, e ≠ d → count' e = count e) :
    Counted slots (update holds x d) count' live := by
  have hne : d ≠ 0 := fun hz => h.null (hz ▸ hd)
  have hrefs := refs_update hx holds d
  have hself : refs slots (update holds x d) d = refs slots holds d + 1 := by
    have := hrefs d
    rwa [hempty, if_neg hne.symm, if_pos rfl] at this
  have hrest : ∀ e, e ≠ d → e ≠ 0 → refs slots (update holds x d) e = refs slots holds e := by
    intro e he hzero
    have := hrefs e
    rwa [hempty, if_neg hzero.symm, if_neg he.symm] at this
  refine ⟨h.null, fun e he => ?_, fun e hzero => ?_⟩
  · by_cases hed : e = d
    · rw [hed, hcount, hself, h.counts d hd]
    · rw [hother e hed, h.counts e he, hrest e hed fun hz => h.null (hz ▸ he)]
  · by_cases hed : e = d
    · subst hed
      exact iff_of_true hd (by omega)
    · rw [hrest e hed hzero]
      exact h.live_iff e hzero

theorem install (h : Counted slots holds count live) (hx : x ∈ slots) (hempty : holds x = 0) (hne : d ≠ 0) (hnew : d ∉ live)
    (hcount : count' d = 1) (hother : ∀ e, e ≠ d → count' e = count e) :
    Counted slots (update holds x d) count' (insert d live) := by
  have hrefs := refs_update hx holds d
  have hnone : refs slots holds d = 0 := Nat.eq_zero_of_not_pos fun hpos => hnew ((h.live_iff d hne).mpr hpos)
  have hself : refs slots (update holds x d) d = 1 := by
    have := hrefs d
    rwa [hempty, if_neg hne.symm, if_pos rfl, hnone] at this
  have hrest : ∀ e, e ≠ d → e ≠ 0 → refs slots (update holds x d) e = refs slots holds e := by
    intro e he hzero
    have := hrefs e
    rwa [hempty, if_neg hzero.symm, if_neg he.symm] at this
  refine ⟨fun hm => ?_, fun e he => ?_, fun e hzero => ?_⟩
  · obtain hz | hm := mem_insert.mp hm
    · exact hne hz.symm
    · exact h.null hm
  · obtain rfl | he := mem_insert.mp he
    · rw [hcount, hself]
    · have hed : e ≠ d := fun hz => hnew (hz ▸ he)
      rw [hother e hed, h.counts e he, hrest e hed fun hz => h.null (hz ▸ he)]
  · by_cases hed : e = d
    · subst hed
      exact iff_of_true (mem_insert_self e live) (by omega)
    · rw [mem_insert, hrest e hed hzero, or_iff_right hed]
      exact h.live_iff e hzero

theorem extend (h : Counted slots holds count live) (hnew : Disjoint slots more)
    (hsame : ∀ x ∈ slots, holds' x = holds x) (hmore : ∀ x ∈ more, holds' x ≠ 0 → holds' x ∈ live)
    (hcount : ∀ d ∈ live, count' d = count d + refs more holds' d) : Counted (slots ∪ more) holds' count' live := by
  have hrefs : ∀ d, refs (slots ∪ more) holds' d = refs slots holds d + refs more holds' d := fun d => by
    rw [refs_union hnew, refs_congr hsame]
  refine ⟨h.null, fun d hd => ?_, fun d hzero => ?_⟩
  · rw [hcount d hd, hrefs, h.counts d hd]
  · rw [hrefs, h.live_iff d hzero]
    refine ⟨fun hpos => by omega, fun hpos => ?_⟩
    by_contra hno
    obtain ⟨x, hx, rfl⟩ := refs_pos.mp (show 0 < refs more holds' d by omega)
    exact hno ((h.live_iff _ hzero).mp (hmore x hx hzero))

theorem shrink (h : Counted slots holds count live) {rest gone : Finset κ} (hslots : slots = rest ∪ gone) (hdis : Disjoint rest gone)
    (hempty : ∀ x ∈ gone, holds x = 0) : Counted rest holds count live := by
  have hrefs : ∀ d, d ≠ 0 → refs slots holds d = refs rest holds d := by
    intro d hzero
    have hnone : refs gone holds d = 0 := by
      refine Nat.eq_zero_of_not_pos fun hpos => ?_
      obtain ⟨x, hx, rfl⟩ := refs_pos.mp hpos
      exact hzero (hempty x hx)
    rw [hslots, refs_union hdis, hnone, Nat.add_zero]
  refine ⟨h.null, fun d hd => ?_, fun d hzero => ?_⟩
  · rw [h.counts d hd, hrefs d fun hz => h.null (hz ▸ hd)]
  · rw [h.live_iff d hzero, hrefs d hzero]

end Counted

def Balanced (live : Finset ℕ) (opened released : List ℕ) : Prop :=
  ∀ d, opened.count d = released.count d + if d ∈ live then 1 else 0

theorem Balanced.open {live : Finset ℕ} (h : Balanced live opened released) (hnew : d ∉ live) :
    Balanced (insert d live) (opened ++ [d]) released := by
  intro e
  have := h e
  rw [List.count_append, List.count_singleton]
  by_cases hed : e = d
  · subst hed
    rw [if_neg hnew] at this
    rw [if_pos (mem_insert_self e live)]
    simp [this]
  · simp [this, mem_insert, hed, Ne.symm hed]

theorem Balanced.release {live : Finset ℕ} (h : Balanced live opened released) (hd : d ∈ live) :
    Balanced (live.erase d) opened (released ++ [d]) := by
  intro e
  have := h e
  rw [List.count_append, List.count_singleton, this]
  by_cases hed : e = d
  · subst hed
    simp [hd]
  · simp [mem_erase, hed, Ne.symm hed]

end RetroOs.Lib
