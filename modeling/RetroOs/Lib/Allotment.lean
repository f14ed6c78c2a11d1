import Mathlib.Data.Finset.Card

/-! Units handed out to owners: the marked units are those in the owners' lists, each in one of them
and once. -/
namespace RetroOs.Lib
open Finset
variable {ι α : Type}

structure Allotted (marked : α → Prop) (live : ι → Prop) (units : ι → List α) : Prop where
  exact : ∀ a, marked a ↔ ∃ i, live i ∧ a ∈ units i
  nodup : ∀ i, live i → (units i).Nodup
  disjoint : ∀ i j a, live i → live j → a ∈ units i → a ∈ units j → i = j

namespace Allotted
variable {marked marked' : α → Prop} {live live' : ι → Prop} {units units' : ι → List α} {i : ι} {a : α}

theorem congr (h : Allotted marked live units) (hm : ∀ a, marked' a ↔ marked a) (hl : ∀ i, live' i ↔ live i)
    (hu : ∀ i, live i → units' i = units i) : Allotted marked' live' units' where
  exact a := by
    rw [hm, h.exact]
    constructor
    · rintro ⟨i, hi, ha⟩
      exact ⟨i, (hl i).mpr hi, by rwa [hu i hi]⟩
    · rintro ⟨i, hi, ha⟩
      have hi := (hl i).mp hi
      exact ⟨i, hi, by rwa [hu i hi] at ha⟩
  nodup i hi := by
    have hi := (hl i).mp hi
    rw [hu i hi]
    exact h.nodup i hi
  disjoint i j a hi hj ha ha' := by
    have hi := (hl i).mp hi
    have hj := (hl j).mp hj
    rw [hu i hi] at ha
    rw [hu j hj] at ha'
    exact h.disjoint i j a hi hj ha ha'

theorem give (h : Allotted marked live units) (hi : live i) (ha : ¬ marked a) (hm : ∀ e, marked' e ↔ marked e ∨ e = a)
    (hl : ∀ j, live' j ↔ live j) (hu : ∀ j, live j → j ≠ i → units' j = units j) (hself : units' i = units i ++ [a]) :
    Allotted marked' live' units' := by
  have hno : ∀ j, live j → a ∉ units j := fun j hj haj => ha ((h.exact a).mpr ⟨j, hj, haj⟩)
  have hmem : ∀ j, live j → ∀ e, e ∈ units' j ↔ e ∈ units j ∨ j = i ∧ e = a := by
    intro j hj e
    by_cases hji : j = i
    · subst hji
      rw [hself]
      simp
    · rw [hu j hj hji]
      simp [hji]
  constructor
  · intro e
    rw [hm, h.exact]
    constructor
    · rintro (⟨j, hj, he⟩ | rfl)
      · exact ⟨j, (hl j).mpr hj, (hmem j hj e).mpr (.inl he)⟩
      · exact ⟨i, (hl i).mpr hi, (hmem i hi e).mpr (.inr ⟨rfl, rfl⟩)⟩
    · rintro ⟨j, hj, he⟩
      have hj := (hl j).mp hj
      exact ((hmem j hj e).mp he).imp (fun he => ⟨j, hj, he⟩) And.right
  · intro j hj
    have hj := (hl j).mp hj
    by_cases hji : j = i
    · subst hji
      rw [hself, List.nodup_append]
      refine ⟨h.nodup j hj, List.nodup_singleton a, fun e he e' he' => ?_⟩
      rw [List.mem_singleton.mp he']
      exact fun hea => hno j hj (hea ▸ he)
    · rw [hu j hj hji]
      exact h.nodup j hj
  · intro j k e hj hk he he'
    have hj := (hl j).mp hj
    have hk := (hl k).mp hk
    rcases (hmem j hj e).mp he with he | ⟨rfl, rfl⟩
    · rcases (hmem k hk e).mp he' with he' | ⟨rfl, rfl⟩
      · exact h.disjoint j k e hj hk he he'
      · exact absurd he (hno j hj)
    · rcases (hmem k hk e).mp he' with he' | ⟨rfl, -⟩
      · exact absurd he' (hno k hk)
      · rfl

theorem add (h : Allotted marked live units) (hi : ¬ live i) (hl : ∀ j, live' j ↔ live j ∨ j = i)
    (hu : ∀ j, live j → units' j = units j) (hself : units' i = []) : Allotted marked live' units' := by
  have hcase : ∀ j a, live' j → a ∈ units' j → live j ∧ a ∈ units j := by
    intro j a hj ha
    rcases (hl j).mp hj with hj | rfl
    · exact ⟨hj, by rwa [hu j hj] at ha⟩
    · rw [hself] at ha
      cases ha
  constructor
  · intro a
    rw [h.exact]
    constructor
    · rintro ⟨j, hj, ha⟩
      exact ⟨j, (hl j).mpr (.inl hj), by rwa [hu j hj]⟩
    · rintro ⟨j, hj, ha⟩
      exact ⟨j, hcase j a hj ha⟩
  · intro j hj
    rcases (hl j).mp hj with hj | rfl
    · rw [hu j hj]
      exact h.nodup j hj
    · rw [hself]
      exact List.nodup_nil
  · intro j k a hj hk ha ha'
    obtain ⟨hj, ha⟩ := hcase j a hj ha
    obtain ⟨hk, ha'⟩ := hcase k a hk ha'
    exact h.disjoint j k a hj hk ha ha'

theorem remove (h : Allotted marked live units) (hi : live i) (hm : ∀ a, marked' a ↔ marked a ∧ a ∉ units i)
    (hl : ∀ j, live' j ↔ live j ∧ j ≠ i) (hu : ∀ j, live j → j ≠ i → units' j = units j) : Allotted marked' live' units' := by
  have hsame : ∀ j, live' j → live j ∧ units' j = units j := by
    intro j hj
    obtain ⟨hj, hji⟩ := (hl j).mp hj
    exact ⟨hj, hu j hj hji⟩
  constructor
  · intro a
    rw [hm, h.exact]
    constructor
    · rintro ⟨⟨j, hj, ha⟩, hno⟩
      have hji : j ≠ i := by
        rintro rfl
        exact hno ha
      exact ⟨j, (hl j).mpr ⟨hj, hji⟩, by rwa [hu j hj hji]⟩
    · rintro ⟨j, hj, ha⟩
      obtain ⟨hj, hji⟩ := (hl j).mp hj
      rw [hu j hj hji] at ha
      exact ⟨⟨j, hj, ha⟩, fun hai => hji (h.disjoint j i a hj hi ha hai)⟩
  · intro j hj
    obtain ⟨hj, hsame⟩ := hsame j hj
    rw [hsame]
    exact h.nodup j hj
  · intro j k a hj hk ha ha'
    obtain ⟨hj, hsj⟩ := hsame j hj
    obtain ⟨hk, hsk⟩ := hsame k hk
    rw [hsj] at ha
    rw [hsk] at ha'
    exact h.disjoint j k a hj hk ha ha'

end Allotted

/-- One more of the first `n` units is marked. -/
theorem card_filter_update {p : Nat → Bool} {n a : Nat} (ha : a < n) (hp : p a = false) :
    ((range n).filter fun x => Function.update p a true x).card = ((range n).filter fun x => p x).card + 1 := by
  have hinsert : ((range n).filter fun x => Function.update p a true x) =
      insert a ((range n).filter fun x => p x) := by
    ext x
    by_cases hxa : x = a
    · simp [hxa, ha]
    · simp [hxa]
  rw [hinsert, card_insert_of_notMem]
  simp [hp]

end RetroOs.Lib
