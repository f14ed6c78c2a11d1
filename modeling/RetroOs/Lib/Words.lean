import Mathlib.Computability.Language

/-! Languages of words: the words of one letter, and what a product or an iteration says of the first letter. -/
namespace RetroOs.Lib
open scoped Computability
variable {α : Type} {P : α → Prop} {l m : Language α} {w : List α} {c : α}

/-- The words of one letter with the property. -/
def letter (P : α → Prop) : Language α := {w | ∃ c, P c ∧ w = [c]}

theorem mem_letter_mul : w ∈ letter P * l ↔ ∃ c v, w = c :: v ∧ P c ∧ v ∈ l := by
  rw [Language.mem_mul]
  constructor
  · rintro ⟨u, ⟨c, hc, rfl⟩, v, hv, rfl⟩
    exact ⟨c, v, rfl, hc, hv⟩
  · rintro ⟨c, v, rfl, hc, hv⟩
    exact ⟨[c], ⟨c, hc, rfl⟩, v, hv, rfl⟩

theorem cons_mem_letter_mul : c :: w ∈ letter P * l ↔ P c ∧ w ∈ l := by
  rw [mem_letter_mul]
  constructor
  · rintro ⟨d, v, heq, hd, hv⟩
    cases heq
    exact ⟨hd, hv⟩
  · rintro ⟨hc, hw⟩
    exact ⟨c, w, rfl, hc, hw⟩

theorem nil_notMem_letter_mul : [] ∉ letter P * l := by
  intro h
  obtain ⟨c, v, heq, -⟩ := mem_letter_mul.mp h
  cases heq

theorem one_add_mul (l m : Language α) : (1 + l) * m = m + l * m := by rw [add_mul, one_mul]

theorem kstar_mul (l m : Language α) : l∗ * m = m + l * (l∗ * m) := by
  conv_lhs => rw [← Language.one_add_self_mul_kstar_eq_kstar l]
  rw [one_add_mul, mul_assoc]

def anyWord : Language α := {_w | True}

theorem mem_anyWord (w : List α) : w ∈ (anyWord : Language α) := trivial

theorem mem_anyWord_mul : w ∈ anyWord * l ↔ ∃ u v, w = u ++ v ∧ v ∈ l := by
  rw [Language.mem_mul]
  constructor
  · rintro ⟨u, -, v, hv, rfl⟩
    exact ⟨u, v, rfl, hv⟩
  · rintro ⟨u, v, rfl, hv⟩
    exact ⟨u, mem_anyWord u, v, hv, rfl⟩

theorem cons_mem_anyWord_mul : c :: w ∈ anyWord * l ↔ c :: w ∈ l ∨ w ∈ anyWord * l := by
  rw [mem_anyWord_mul, mem_anyWord_mul]
  constructor
  · rintro ⟨u, v, heq, hv⟩
    cases u with
    | nil =>
      exact .inl (heq ▸ hv)
    | cons d u =>
      cases heq
      exact .inr ⟨u, v, rfl, hv⟩
  · rintro (h | ⟨u, v, rfl, hv⟩)
    · exact ⟨[], c :: w, rfl, h⟩
    · exact ⟨c :: u, v, rfl, hv⟩

theorem nil_mem_anyWord_mul : [] ∈ anyWord * l ↔ [] ∈ l := by
  rw [mem_anyWord_mul]
  constructor
  · rintro ⟨u, v, heq, hv⟩
    rwa [(List.nil_eq_append_iff.mp heq).2] at hv
  · intro h
    exact ⟨[], [], rfl, h⟩

end RetroOs.Lib
