import Mathlib.Order.Interval.Finset.Nat

/-! How many of the first numbers have a property that is given by a table of bits. -/
namespace RetroOs.Lib
open Finset
variable {P Q : ℕ → Bool} {n f : ℕ} {fs : List ℕ}

def census (P : ℕ → Bool) (n : ℕ) : ℕ := ((range n).filter fun f => P f = true).card

theorem census_le (P : ℕ → Bool) (n : ℕ) : census P n ≤ n := by
  have h := card_filter_le (range n) fun f => P f = true
  rwa [card_range] at h

theorem census_eq_zero : census P n = 0 ↔ ∀ f < n, P f = false := by
  simp [census, filter_eq_empty_iff]

theorem census_or (hn : fs.Nodup) (hlt : ∀ f ∈ fs, f < n) (hclear : ∀ f ∈ fs, P f = false)
    (hQ : ∀ f < n, Q f = (P f || decide (f ∈ fs))) : census Q n = census P n + fs.length := by
  have hdis : Disjoint ((range n).filter fun f => P f = true) fs.toFinset := by
    rw [disjoint_left]
    intro f hf hfs
    have hfalse := hclear f (List.mem_toFinset.mp hfs)
    rw [(mem_filter.mp hf).2] at hfalse
    cases hfalse
  have hset : (range n).filter (fun f => Q f = true) =
      ((range n).filter fun f => P f = true) ∪ fs.toFinset := by
    ext f
    simp only [mem_filter, mem_union, mem_range, List.mem_toFinset]
    constructor
    · rintro ⟨hf, hq⟩
      rw [hQ f hf, Bool.or_eq_true, decide_eq_true_eq] at hq
      exact hq.imp_left fun hp => ⟨hf, hp⟩
    · rintro (⟨hf, hp⟩ | hf)
      · exact ⟨hf, by rw [hQ f hf, hp, Bool.true_or]⟩
      · exact ⟨hlt f hf, by rw [hQ f (hlt f hf), decide_eq_true hf, Bool.or_true]⟩
  rw [census, census, hset, card_union_of_disjoint hdis, List.toFinset_card_of_nodup hn]

theorem census_add_le {start k : ℕ} (hle : start + k ≤ n) (hclear : ∀ j < k, P (start + j) = false) :
    census P n + k ≤ n := by
  have hn : ((List.range k).map (start + ·)).Nodup := List.nodup_range.map fun a b h => by simpa using h
  have hmem : ∀ f, f ∈ (List.range k).map (start + ·) → ∃ j < k, start + j = f := fun f hf => by simpa using hf
  have hor := census_or (P := P) (Q := fun f => P f || decide (f ∈ (List.range k).map (start + ·))) (n := n) hn
    (fun f hf => by
      obtain ⟨j, hj, rfl⟩ := hmem f hf
      omega)
    (fun f hf => by
      obtain ⟨j, hj, rfl⟩ := hmem f hf
      exact hclear j hj) fun _ _ => rfl
  have hall := census_le (fun f => P f || decide (f ∈ (List.range k).map (start + ·))) n
  rw [List.length_map, List.length_range] at hor
  omega

end RetroOs.Lib
