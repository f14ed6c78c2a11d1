import Mathlib.Data.Nat.Bitwise
import Mathlib.Tactic.Ring

/-! Strings of bits, the highest first: the bits of numbers put together and cut into groups, and an encoding that writes a
character for each group. -/
namespace RetroOs.Lib.BitString
open List Nat

/-- The `w` lowest bits of a number. -/
def bits : ℕ → ℕ → List Bool
  | 0, _ => []
  | w + 1, x => x.testBit w :: bits w x

/-- The number that has the bits. -/
def value : List Bool → ℕ
  | [] => 0
  | b :: bs => b.toNat * 2 ^ bs.length + value bs

/-- Groups of `w` bits, the last one filled with zeros. -/
def groups (w : ℕ) (bs : List Bool) : List (List Bool) :=
  if _h : w = 0 ∨ bs = [] then [] else (bs.take w ++ replicate (w - bs.length) false) :: groups w (bs.drop w)
termination_by bs.length
decreasing_by
  have := length_pos_iff.mpr (not_or.mp _h).2
  rw [length_drop]
  omega

variable {w v x y i j n : ℕ} {bs rest : List Bool}

theorem length_bits (w x : ℕ) : (bits w x).length = w := by
  induction w with
  | zero => rfl
  | succ w ih => rw [bits, length_cons, ih]

theorem bits_zero (w : ℕ) : bits w 0 = replicate w false := by
  induction w with
  | zero => rfl
  | succ w ih => rw [bits, ih, zero_testBit, replicate_succ]

theorem bits_congr (h : ∀ i < w, x.testBit i = y.testBit i) : bits w x = bits w y := by
  induction w with
  | zero => rfl
  | succ w ih => rw [bits, bits, h w (lt_succ_self w), ih fun i hi => h i (lt_succ_of_lt hi)]

theorem bits_add (i j x : ℕ) : bits (i + j) x = bits i (x / 2 ^ j) ++ bits j x := by
  induction i with
  | zero => rw [zero_add, bits, nil_append]
  | succ i ih => rw [succ_add, bits, bits, cons_append, ih, testBit_div_two_pow]

theorem bits_append (x : ℕ) (h : y < 2 ^ j) : bits i x ++ bits j y = bits (i + j) (x * 2 ^ j + y) := by
  rw [bits_add]
  congr 1
  · rw [Nat.mul_comm, Nat.mul_add_div (Nat.two_pow_pos j), Nat.div_eq_of_lt h, Nat.add_zero]
  · refine bits_congr fun k hk => ?_
    rw [mul_comm, testBit_two_pow_mul_add _ h, if_pos hk]

theorem value_bits (w x : ℕ) : value (bits w x) = x % 2 ^ w := by
  induction w with
  | zero => rw [bits, value, pow_zero, mod_one]
  | succ w ih =>
    rw [bits, value, length_bits, ih, mod_pow_succ, toNat_testBit]
    ring

theorem groups_nil (w : ℕ) : groups w [] = [] := by
  rw [groups, dif_pos (.inr rfl)]

theorem groups_append (hw : 0 < w) (h : bs.length = w) (rest : List Bool) : groups w (bs ++ rest) = bs :: groups w rest := by
  have hne : bs ≠ [] := List.ne_nil_of_length_pos (h ▸ hw)
  rw [groups, dif_neg (not_or.mpr ⟨Nat.ne_of_gt hw, List.append_ne_nil_of_left_ne_nil hne rest⟩), List.take_left' h, List.drop_left' h,
    List.length_append, h, Nat.sub_eq_zero_of_le (Nat.le_add_right w _), List.replicate_zero, List.append_nil]

theorem groups_short (hne : bs ≠ []) (h : bs.length ≤ w) : groups w bs = [bs ++ replicate (w - bs.length) false] := by
  have hw : w ≠ 0 := fun h0 => hne (eq_nil_of_length_eq_zero (le_zero.mp (h0 ▸ h)))
  rw [groups, dif_neg (not_or.mpr ⟨hw, hne⟩), take_of_length_le h, drop_eq_nil_of_le h, groups_nil]

theorem groups_bits (hv : 0 < v) (h : v ≤ w) (x : ℕ) : groups w (bits v x) = [bits w (x * 2 ^ (w - v))] := by
  have hlen := length_bits v x
  have hne : bits v x ≠ [] := List.ne_nil_of_length_pos (hlen.symm ▸ hv)
  have hfilled := bits_append (i := v) x (Nat.two_pow_pos (w - v))
  rw [Nat.add_zero, bits_zero, Nat.add_sub_cancel' h] at hfilled
  rw [groups_short hne (hlen.symm ▸ h), hlen, hfilled]

end RetroOs.Lib.BitString
