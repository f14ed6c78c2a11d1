import Mathlib.Algebra.Order.BigOperators.Group.Finset
import Mathlib.Data.Fintype.BigOperators
import Mathlib.Data.Int.Basic

/-! Signed 32-bit counters that go up and down by one. -/
namespace RetroOs.Lib
variable {x : BitVec 32}

theorem toInt_succ (h : x.toInt < 2 ^ 31 - 1) : (x + 1).toInt = x.toInt + 1 := by
  have := BitVec.le_toInt x
  rw [BitVec.toInt_add, show (1 : BitVec 32).toInt = 1 from rfl]
  apply Int.bmod_eq_of_le <;> omega

theorem toInt_pred (h : 0 < x.toInt) : (x - 1).toInt = x.toInt - 1 := by
  have := BitVec.toInt_lt (x := x)
  rw [BitVec.toInt_sub, show (1 : BitVec 32).toInt = 1 from rfl]
  apply Int.bmod_eq_of_le <;> omega

end RetroOs.Lib

/-! A quantity that each of finitely many parties has some of. -/
namespace RetroOs.Lib
variable {κ σ : Type} [Fintype κ] {f : σ → ℕ} {parties : κ → σ} {a b : κ}

def tally (f : σ → ℕ) (parties : κ → σ) : ℕ := ∑ a, f (parties a)

theorem le_tally (f : σ → ℕ) (parties : κ → σ) (a : κ) : f (parties a) ≤ tally f parties :=
  Finset.single_le_sum (f := fun a => f (parties a)) (fun _ _ => Nat.zero_le _) (Finset.mem_univ a)

theorem tally_eq_zero : tally f parties = 0 ↔ ∀ a, f (parties a) = 0 := by simp [tally]

theorem tally_pos : 0 < tally f parties ↔ ∃ a, 0 < f (parties a) := by
  simp only [Nat.pos_iff_ne_zero, ne_eq, tally_eq_zero, not_forall]

theorem tally_eq_card (h : ∀ a, f (parties a) ≤ 1) : tally f parties = (Finset.univ.filter fun a => 0 < f (parties a)).card := by
  rw [tally, Finset.card_filter]
  refine Finset.sum_congr rfl fun a _ => ?_
  have := h a
  split_ifs with hpos <;> omega

variable [DecidableEq κ]

theorem tally_update (f : σ → ℕ) (parties : κ → σ) (a : κ) (x : σ) :
    tally f (Function.update parties a x) + f (parties a) = tally f parties + f x := by
  have hself : ∀ g : κ → σ, tally f g = (∑ b ∈ Finset.univ.erase a, f (g b)) + f (g a) := fun g =>
    (Finset.sum_erase_add Finset.univ (fun b => f (g b)) (Finset.mem_univ a)).symm
  have hrest : ∑ b ∈ Finset.univ.erase a, f (Function.update parties a x b) = ∑ b ∈ Finset.univ.erase a, f (parties b) :=
    Finset.sum_congr rfl fun b hb => by rw [Function.update_of_ne (Finset.ne_of_mem_erase hb)]
  rw [hself (Function.update parties a x), hself parties, hrest, Function.update_self]
  omega

theorem tally_same {x : σ} (h : f x = f (parties a)) : tally f (Function.update parties a x) = tally f parties := by
  have := tally_update f parties a x
  omega

end RetroOs.Lib
