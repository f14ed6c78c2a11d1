import Mathlib.Data.Finset.Card

/-! Parties that take units of a resource, or sleep when there is none: no more units are there than parties awake to take
them, unless no party is asleep. -/
namespace RetroOs.Lib
open Finset
variable {κ : Type} [DecidableEq κ] {n : ℕ} {awake awake' asleep asleep' : Finset κ} {a : κ}

def Served (n : ℕ) (awake asleep : Finset κ) : Prop := n ≤ awake.card ∨ asleep = ∅

namespace Served

omit [DecidableEq κ] in
theorem mono (h : Served n awake asleep) (hawake : awake ⊆ awake') (hasleep : asleep' ⊆ asleep) : Served n awake' asleep' := by
  rcases h with hle | rfl
  · exact .inl (hle.trans (card_le_card hawake))
  · exact .inr (subset_empty.mp hasleep)

omit [DecidableEq κ] in
theorem zero : Served 0 awake asleep := .inl (Nat.zero_le _)

theorem take (h : Served (n + 1) awake asleep) (hawake : awake.erase a ⊆ awake') (hasleep : asleep' ⊆ asleep) :
    Served n awake' asleep' := by
  rcases h with hle | rfl
  · have hcard := pred_card_le_card_erase (s := awake) (a := a)
    have hsub := card_le_card hawake
    exact .inl (by omega)
  · exact .inr (subset_empty.mp hasleep)

omit [DecidableEq κ] in
theorem give (h : Served n awake asleep) (ha : a ∈ asleep) (hnot : a ∉ awake) (hwoken : a ∈ awake') (hawake : awake ⊆ awake') :
    Served (n + 1) awake' asleep' := by
  rcases h with hle | rfl
  · have hlt := card_lt_card ((ssubset_iff_of_subset hawake).mpr ⟨a, hwoken, hnot⟩)
    exact .inl (by omega)
  · cases ha

omit [DecidableEq κ] in
theorem someone (h : Served n awake asleep) (hn : 0 < n) (ha : a ∈ awake ∨ a ∈ asleep) : awake.Nonempty := by
  rcases ha with ha | ha
  · exact ⟨a, ha⟩
  · rcases h with hle | rfl
    · exact card_pos.mp (hn.trans_le hle)
    · cases ha

end Served
end RetroOs.Lib
