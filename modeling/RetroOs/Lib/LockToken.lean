import Mathlib.Tactic.ByContra

/-! A lock word and those who hold the lock: one at most, and one just when the word says so. -/
namespace RetroOs.Lib
variable {κ : Type} {locked : Bool} {holds holds' : κ → Prop} {a b : κ}

structure Token (locked : Bool) (holds : κ → Prop) : Prop where
  unique : ∀ a b, holds a → holds b → a = b
  taken : locked = true ↔ ∃ a, holds a

namespace Token

theorem locked_of (h : Token locked holds) (ha : holds a) : locked = true := h.taken.mpr ⟨a, ha⟩

theorem not_holds (h : Token locked holds) (ha : holds a) (hne : b ≠ a) : ¬ holds b := fun hb => hne (h.unique b a hb ha)

theorem none_holds (h : Token false holds) (a : κ) : ¬ holds a := fun ha => absurd (h.locked_of ha) Bool.false_ne_true

theorem keep (h : Token locked holds) (hsame : ∀ b, holds' b ↔ holds b) : Token locked holds' where
  unique a b ha hb := h.unique a b ((hsame a).mp ha) ((hsame b).mp hb)
  taken := h.taken.trans (exists_congr fun b => (hsame b).symm)

/-- The lock is free, and `a` takes it. -/
theorem take (h : Token false holds) (ha : holds' a) (hother : ∀ b, b ≠ a → (holds' b ↔ holds b)) : Token true holds' where
  unique b c hb hc := by
    have honly : ∀ d, holds' d → d = a := by
      intro d hd
      by_contra hne
      exact h.none_holds d ((hother d hne).mp hd)
    rw [honly b hb, honly c hc]
  taken := iff_of_true rfl ⟨a, ha⟩

theorem drop (h : Token locked holds) (ha : holds a) (hno : ¬ holds' a) (hother : ∀ b, b ≠ a → (holds' b ↔ holds b)) :
    Token false holds' := by
  have hnone : ∀ b, ¬ holds' b := by
    intro b hb
    by_cases hba : b = a
    · exact hno (hba ▸ hb)
    · exact h.not_holds ha hba ((hother b hba).mp hb)
  exact ⟨fun b _ hb => absurd hb (hnone b), iff_of_false Bool.false_ne_true fun ⟨b, hb⟩ => hnone b hb⟩

theorem free (hnone : ∀ a, ¬ holds a) : Token false holds :=
  ⟨fun a _ ha => absurd ha (hnone a), iff_of_false Bool.false_ne_true fun ⟨a, ha⟩ => hnone a ha⟩

end Token
end RetroOs.Lib
