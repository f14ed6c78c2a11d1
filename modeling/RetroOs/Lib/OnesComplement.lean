import Mathlib.Data.Int.ModEq
import Mathlib.Tactic.Ring

/-! One's complement sums: words below a base, where the carry out of a word is added in at its other end. What such
a sum is, in which order the halves of the words may stand, and the check word that completes it. -/
namespace RetroOs.Lib.OnesComplement
open List
variable {b c s t x : Nat} {l k : List Nat}

def fold (b s : Nat) : Nat := if 2 ≤ b ∧ b ≤ s then fold b (s % b + s / b) else s
termination_by s
decreasing_by
  next h =>
  have hdiv := Nat.div_add_mod s b
  have hmul : 2 * (s / b) ≤ b * (s / b) := Nat.mul_le_mul_right _ h.1
  have hpos : 1 ≤ s / b := Nat.div_pos h.2 (by omega)
  omega

/-- The word that completes a sum. -/
def comp (b x : Nat) : Nat := b - 1 - x

/-- The check word of a sum. -/
def checksum (b s : Nat) : Nat := comp b (fold b s)

theorem step_modEq (hb : 2 ≤ b) (s : Nat) : s % b + s / b ≡ s [MOD b - 1] := by
  have hdiv := Nat.div_add_mod s b
  have hmul : b * (s / b) = (b - 1) * (s / b) + s / b := by
    rw [← Nat.succ_mul, Nat.succ_eq_add_one, Nat.sub_add_cancel (Nat.le_of_succ_le hb)]
  exact (Nat.modEq_iff_dvd' (by omega)).mpr ⟨s / b, by omega⟩

theorem fold_spec (hb : 2 ≤ b) (s : Nat) : fold b s < b ∧ fold b s ≡ s [MOD b - 1] ∧ (fold b s = 0 ↔ s = 0) := by
  induction s using fold.induct b with
  | case1 s h ih =>
    rw [fold, if_pos h]
    obtain ⟨hlt, hmod, hzero⟩ := ih
    refine ⟨hlt, hmod.trans (step_modEq hb s), hzero.trans ⟨fun h0 => ?_, fun h0 => ?_⟩⟩
    · have hpos : 1 ≤ s / b := Nat.div_pos h.2 (Nat.zero_lt_of_lt hb)
      omega
    · omega
  | case2 s h =>
    rw [fold, if_neg h]
    exact ⟨by omega, .rfl, .rfl⟩

theorem fold_of_lt (h : s < b) : fold b s = s := by rw [fold, if_neg (by omega)]

theorem fold_congr (hb : 2 ≤ b) (h : s ≡ t [MOD b - 1]) (h0 : s = 0 ↔ t = 0) : fold b s = fold b t := by
  obtain ⟨hs, hsm, hs0⟩ := fold_spec hb s
  obtain ⟨ht, htm, ht0⟩ := fold_spec hb t
  have hmod : fold b s ≡ fold b t [MOD b - 1] := hsm.trans (h.trans htm.symm)
  by_cases hz : s = 0
  · rw [hs0.mpr hz, ht0.mpr (h0.mp hz)]
  · have hspos := mt hs0.mp hz
    rcases Nat.le_total (fold b s) (fold b t) with hle | hle
    · have hdvd := (Nat.modEq_iff_dvd' hle).mp hmod
      have hsub := Nat.eq_zero_of_dvd_of_lt hdvd (by omega)
      omega
    · have hdvd := (Nat.modEq_iff_dvd' hle).mp hmod.symm
      have hsub := Nat.eq_zero_of_dvd_of_lt hdvd (by omega)
      omega

theorem fold_step_add (hb : 2 ≤ b) (s t : Nat) : fold b (s % b + s / b + t) = fold b (s + t) := by
  refine fold_congr hb ((step_modEq hb s).add_right t) ?_
  have hdiv := Nat.div_add_mod s b
  constructor
  · intro h
    obtain ⟨hsum, rfl⟩ := Nat.add_eq_zero_iff.mp h
    obtain ⟨hr, hq⟩ := Nat.add_eq_zero_iff.mp hsum
    rw [hr, hq] at hdiv
    exact hdiv.symm
  · intro h
    obtain ⟨rfl, rfl⟩ := Nat.add_eq_zero_iff.mp h
    simp

/-! ### The check word -/

theorem checksum_lt (hb : 2 ≤ b) (s : Nat) : checksum b s < b := by
  rw [checksum, comp]
  omega

theorem checksum_eq_zero (hb : 2 ≤ b) : checksum b s = 0 ↔ s ≠ 0 ∧ b - 1 ∣ s := by
  obtain ⟨hlt, hmod, h0⟩ := fold_spec hb s
  rw [checksum, comp]
  constructor
  · intro h
    have htop : fold b s = b - 1 := by omega
    rw [htop] at hmod
    refine ⟨fun hs => ?_, Nat.modEq_zero_iff_dvd.mp (hmod.symm.trans (Nat.modEq_zero_iff_dvd.mpr dvd_rfl))⟩
    omega
  · rintro ⟨hs, hdvd⟩
    have hpos := mt h0.mp hs
    have hz : b - 1 ∣ fold b s := Nat.modEq_zero_iff_dvd.mp (hmod.trans (Nat.modEq_zero_iff_dvd.mpr hdvd))
    have hle := Nat.le_of_dvd (Nat.pos_of_ne_zero hpos) hz
    omega

theorem checksum_complete (hb : 2 ≤ b) (s : Nat) : checksum b (s + checksum b s) = 0 := by
  obtain ⟨hlt, hmod, h0⟩ := fold_spec hb s
  apply (checksum_eq_zero hb).mpr
  have hsum : fold b s + checksum b s = b - 1 := by
    rw [checksum, comp]
    omega
  refine ⟨fun hz => ?_, ?_⟩
  · obtain ⟨hs, hc⟩ := Nat.add_eq_zero_iff.mp hz
    omega
  · have hcong := hmod.add_right (checksum b s)
    rw [hsum] at hcong
    exact Nat.modEq_zero_iff_dvd.mp (hcong.symm.trans (Nat.modEq_zero_iff_dvd.mpr dvd_rfl))

theorem checksum_add_eq_zero (hb : 2 ≤ b) (hx : x < b) (s : Nat) :
    checksum b (s + x) = 0 ↔ x = checksum b s ∨ checksum b s = 0 ∧ x = b - 1 := by
  obtain ⟨hlt, hmod, h0⟩ := fold_spec hb s
  have hcheck : checksum b s = b - 1 - fold b s := rfl
  have hiff : b - 1 ∣ s + x ↔ b - 1 ∣ fold b s + x := by
    rw [← Nat.modEq_zero_iff_dvd, ← Nat.modEq_zero_iff_dvd]
    exact ⟨fun h => (hmod.add_right x).trans h, fun h => (hmod.add_right x).symm.trans h⟩
  rw [checksum_eq_zero hb]
  constructor
  · rintro ⟨hne, hdvd⟩
    obtain ⟨q, hq⟩ := hiff.mp hdvd
    have hpos : fold b s + x ≠ 0 := by
      intro hz
      obtain ⟨hs, rfl⟩ := Nat.add_eq_zero_iff.mp hz
      exact hne (h0.mp hs)
    have hq2 : q ≤ 2 := by
      by_contra hq2
      have hle := Nat.mul_le_mul_left (b - 1) (Nat.not_le.mp hq2)
      omega
    rw [hcheck]
    obtain rfl | rfl | rfl : q = 0 ∨ q = 1 ∨ q = 2 := by omega
    · exact absurd hq hpos
    · left
      omega
    · right
      omega
  · intro h
    refine ⟨fun hz => ?_, hiff.mpr ?_⟩
    · obtain ⟨hs, rfl⟩ := Nat.add_eq_zero_iff.mp hz
      omega
    · rcases h with h | ⟨hz, h⟩
      · exact ⟨1, by omega⟩
      · exact ⟨2, by omega⟩

/-! ### The order of the halves -/

/-- The word with its halves exchanged, where a half is below `c`. -/
def swap (c x : Nat) : Nat := x % c * c + x / c

/-- The sum of the words whose halves are the numbers of a list, the low one first; an odd one at the end is low. -/
def lowFirst (c : Nat) : List Nat → Nat
  | [] => 0
  | [x] => x
  | x :: y :: l => x + c * y + lowFirst c l

def highFirst (c : Nat) : List Nat → Nat
  | [] => 0
  | [x] => c * x
  | x :: y :: l => c * x + y + highFirst c l

variable {u v : List Nat}

theorem swap_lt (hx : x < c * c) : swap c x < c * c := by
  have hc : 0 < c := Nat.pos_of_ne_zero fun h0 => by simp [h0] at hx
  have hdiv : x / c < c := Nat.div_lt_of_lt_mul hx
  have hmod : x % c + 1 ≤ c := Nat.mod_lt x hc
  have hmul := Nat.mul_le_mul_right c hmod
  rw [Nat.succ_mul] at hmul
  rw [swap]
  omega

theorem swap_modEq (hc : 2 ≤ c) (x : Nat) : swap c x ≡ c * x [MOD c * c - 1] := by
  have hsplit := Nat.div_add_mod x c
  have hcc : 1 ≤ c * c := Nat.mul_pos (Nat.zero_lt_of_lt hc) (Nat.zero_lt_of_lt hc)
  have hmul : c * x = (c * c - 1) * (x / c) + swap c x := by
    rw [swap, Nat.sub_mul, Nat.one_mul]
    have hle : x / c ≤ c * c * (x / c) := Nat.le_mul_of_pos_left _ hcc
    conv_lhs => rw [← hsplit, Nat.mul_add, ← Nat.mul_assoc]
    rw [Nat.mul_comm (x % c)]
    omega
  exact (Nat.modEq_iff_dvd' (by omega)).mpr ⟨x / c, by omega⟩

theorem swap_eq_zero (hc : 2 ≤ c) : swap c x = 0 ↔ x = 0 := by
  have hsplit := Nat.div_add_mod x c
  rw [swap, Nat.add_eq_zero_iff, Nat.mul_eq_zero]
  constructor
  · rintro ⟨hr, hq⟩
    rw [hq, Nat.mul_zero] at hsplit
    omega
  · rintro rfl
    simp

theorem fold_swap (hc : 2 ≤ c) (s : Nat) : fold (c * c) (c * s) = swap c (fold (c * c) s) := by
  have hb : 2 ≤ c * c := hc.trans (Nat.le_mul_of_pos_left _ (Nat.zero_lt_of_lt hc))
  obtain ⟨hlt, hmod, h0⟩ := fold_spec hb s
  have hswap : fold (c * c) (swap c (fold (c * c) s)) = swap c (fold (c * c) s) := fold_of_lt (swap_lt hlt)
  rw [← hswap]
  refine fold_congr hb ?_ ?_
  · exact ((swap_modEq hc _).trans (hmod.mul_left c)).symm
  · rw [swap_eq_zero hc, h0, Nat.mul_eq_zero]
    omega

theorem swap_comp (hc : 2 ≤ c) (hx : x < c * c) : swap c (comp (c * c) x) = comp (c * c) (swap c x) := by
  have hdiv : x / c < c := Nat.div_lt_of_lt_mul hx
  have hmod : x % c < c := Nat.mod_lt x (Nat.zero_lt_of_lt hc)
  have hsplit := Nat.div_add_mod x c
  -- the halves of the complement are the complements of the halves
  have hparts : comp (c * c) x = (c - 1 - x % c) + (c - 1 - x / c) * c := by
    have hcc : (c - 1 - x / c) * c = c * c - c - c * (x / c) := by
      rw [Nat.sub_mul, Nat.sub_mul, Nat.one_mul, Nat.mul_comm (x / c)]
    have hle : c * (x / c + 1) ≤ c * c := Nat.mul_le_mul_left c hdiv
    rw [Nat.mul_succ] at hle
    rw [comp, hcc]
    omega
  have hlow : c - 1 - x % c < c := by omega
  have hmul : (c - 1 - x % c) * c = c * c - c - x % c * c := by rw [Nat.sub_mul, Nat.sub_mul, Nat.one_mul]
  have hle : (x % c + 1) * c ≤ c * c := Nat.mul_le_mul_right c hmod
  rw [Nat.succ_mul] at hle
  rw [hparts, swap, Nat.add_mul_mod_self_right, Nat.mod_eq_of_lt hlow, Nat.add_mul_div_right _ _ (Nat.zero_lt_of_lt hc),
    Nat.div_eq_of_lt hlow, Nat.zero_add, hmul, comp, swap]
  omega

theorem checksum_swap (hc : 2 ≤ c) (s : Nat) : checksum (c * c) (c * s) = swap c (checksum (c * c) s) := by
  have hb : 2 ≤ c * c := hc.trans (Nat.le_mul_of_pos_left _ (Nat.zero_lt_of_lt hc))
  rw [checksum, checksum, fold_swap hc, swap_comp hc (fold_spec hb s).1]

theorem swap_eq_self (hc : 2 ≤ c) (hx : x < c * c) : swap c x = x ↔ c + 1 ∣ x := by
  have hdiv : x / c < c := Nat.div_lt_of_lt_mul hx
  have hsplit := Nat.div_add_mod x c
  constructor
  · intro h
    have hhalves : (c - 1) * (x % c) = (c - 1) * (x / c) := by
      rw [swap] at h
      rw [Nat.sub_mul, Nat.sub_mul, Nat.mul_comm c (x % c), Nat.one_mul, Nat.one_mul]
      omega
    have hsame : x % c = x / c := Nat.eq_of_mul_eq_mul_left (by omega) hhalves
    exact ⟨x / c, by rw [Nat.succ_mul]; omega⟩
  · rintro ⟨q, rfl⟩
    have hq : q < c := by
      by_contra hge
      have hle := Nat.mul_le_mul_left (c + 1) (Nat.not_lt.mp hge)
      rw [Nat.succ_mul c c] at hle
      omega
    have hword : (c + 1) * q = q + c * q := by rw [Nat.succ_mul, Nat.add_comm]
    have hlow : (c + 1) * q % c = q := by rw [hword, Nat.add_mul_mod_self_left, Nat.mod_eq_of_lt hq]
    have hhigh : (c + 1) * q / c = q := by
      rw [hword, Nat.add_mul_div_left _ _ (by omega), Nat.div_eq_of_lt hq, Nat.zero_add]
    rw [swap, hlow, hhigh, hword, Nat.mul_comm, Nat.add_comm]

theorem swap_checksum_eq_self (hc : 2 ≤ c) (s : Nat) :
    swap c (checksum (c * c) s) = checksum (c * c) s ↔ c + 1 ∣ s := by
  have hb : 2 ≤ c * c := hc.trans (Nat.le_mul_of_pos_left _ (Nat.zero_lt_of_lt hc))
  obtain ⟨hlt, hmod, -⟩ := fold_spec hb s
  have htop : c * c - 1 = (c + 1) * (c - 1) := by
    rw [Nat.mul_sub, Nat.succ_mul]
    omega
  have hsum : checksum (c * c) s + fold (c * c) s = (c + 1) * (c - 1) := by
    rw [checksum, comp]
    omega
  have hdvd : c + 1 ∣ checksum (c * c) s + fold (c * c) s := ⟨c - 1, hsum⟩
  rw [swap_eq_self hc (checksum_lt hb s), ← hmod.dvd_iff ⟨c - 1, htop⟩]
  exact ⟨fun h => (Nat.dvd_add_right h).mp hdvd, fun h => (Nat.dvd_add_left h).mp hdvd⟩

theorem highFirst_modEq (hc : 2 ≤ c) (l : List Nat) : highFirst c l ≡ c * lowFirst c l [MOD c * c - 1] := by
  induction l using lowFirst.induct with
  | case1 => rfl
  | case2 x => rfl
  | case3 x y l ih =>
    have hone : c * c ≡ 1 [MOD c * c - 1] :=
      ((Nat.modEq_iff_dvd' (Nat.mul_pos (Nat.zero_lt_of_lt hc) (Nat.zero_lt_of_lt hc))).mpr dvd_rfl).symm
    have hy : y ≡ c * (c * y) [MOD c * c - 1] := by
      have := hone.mul_right y
      rw [Nat.one_mul, Nat.mul_assoc] at this
      exact this.symm
    rw [highFirst, lowFirst, Nat.mul_add, Nat.mul_add]
    exact (hy.add_left (c * x)).add ih

theorem lowFirst_eq_zero (hc : 2 ≤ c) : lowFirst c l = 0 ↔ ∀ x ∈ l, x = 0 := by
  induction l using lowFirst.induct with
  | case1 => simp [lowFirst]
  | case2 x => simp [lowFirst]
  | case3 x y l ih =>
    rw [lowFirst, Nat.add_eq_zero_iff, Nat.add_eq_zero_iff, ih, Nat.mul_eq_zero]
    simp only [forall_mem_cons, and_assoc]
    constructor
    · rintro ⟨hx, hy, hl⟩
      exact ⟨hx, hy.resolve_left (by omega), hl⟩
    · rintro ⟨hx, hy, hl⟩
      exact ⟨hx, .inr hy, hl⟩

theorem highFirst_eq_zero (hc : 2 ≤ c) : highFirst c l = 0 ↔ ∀ x ∈ l, x = 0 := by
  induction l using lowFirst.induct with
  | case1 => simp [highFirst]
  | case2 x => simp [highFirst, show c ≠ 0 by omega]
  | case3 x y l ih =>
    rw [highFirst, Nat.add_eq_zero_iff, Nat.add_eq_zero_iff, ih, Nat.mul_eq_zero]
    simp only [forall_mem_cons, and_assoc]
    constructor
    · rintro ⟨hx, hy, hl⟩
      exact ⟨hx.resolve_left (by omega), hy, hl⟩
    · rintro ⟨hx, hy, hl⟩
      exact ⟨.inr hx, hy, hl⟩

theorem checksum_highFirst (hc : 2 ≤ c) (l : List Nat) :
    checksum (c * c) (highFirst c l) = swap c (checksum (c * c) (lowFirst c l)) := by
  have hb : 2 ≤ c * c := hc.trans (Nat.le_mul_of_pos_left _ (Nat.zero_lt_of_lt hc))
  rw [← checksum_swap hc, checksum, checksum]
  congr 1
  refine fold_congr hb (highFirst_modEq hc l) ?_
  rw [highFirst_eq_zero hc, Nat.mul_eq_zero, lowFirst_eq_zero hc, or_iff_right (Nat.ne_of_gt (Nat.zero_lt_of_lt hc))]

theorem lowFirst_append (c : Nat) (hu : u.length % 2 = 0) : lowFirst c (u ++ v) = lowFirst c u + lowFirst c v := by
  induction u using lowFirst.induct with
  | case1 => simp [lowFirst]
  | case2 x => cases hu
  | case3 x y l ih =>
    have hlen : l.length % 2 = 0 := by
      rw [length_cons, length_cons] at hu
      omega
    rw [cons_append, cons_append, lowFirst, lowFirst, ih hlen]
    omega

theorem highFirst_append (c : Nat) (hu : u.length % 2 = 0) : highFirst c (u ++ v) = highFirst c u + highFirst c v := by
  induction u using lowFirst.induct with
  | case1 => simp [highFirst]
  | case2 x => cases hu
  | case3 x y l ih =>
    have hlen : l.length % 2 = 0 := by
      rw [length_cons, length_cons] at hu
      omega
    rw [cons_append, cons_append, highFirst, highFirst, ih hlen]
    omega

theorem lowFirst_le (hc : 1 ≤ c) (h : ∀ x ∈ l, x < c) : lowFirst c l ≤ (l.length + 1) / 2 * (c * c - 1) := by
  induction l using lowFirst.induct with
  | case1 => simp [lowFirst]
  | case2 x =>
    have hx := h x (List.mem_singleton_self x)
    have hcc : c ≤ c * c := Nat.le_mul_of_pos_left _ hc
    simp only [lowFirst, length_singleton]
    omega
  | case3 x y l ih =>
    obtain ⟨hx, hy, hl⟩ : x < c ∧ y < c ∧ ∀ z ∈ l, z < c := by simpa using h
    have hle := ih hl
    have hword : c * (y + 1) ≤ c * c := Nat.mul_le_mul_left c hy
    rw [Nat.mul_succ] at hword
    rw [lowFirst, length_cons, length_cons, show l.length + 1 + 1 + 1 = l.length + 1 + 2 by rfl,
      Nat.add_div_right _ (by decide), Nat.succ_mul]
    omega

theorem highFirst_le (h : ∀ x ∈ l, x < c) : highFirst c l ≤ (l.length + 1) / 2 * (c * c - 1) := by
  induction l using lowFirst.induct with
  | case1 => simp [highFirst]
  | case2 x =>
    have hx := h x (mem_singleton_self x)
    have hword : c * (x + 1) ≤ c * c := Nat.mul_le_mul_left c hx
    rw [Nat.mul_succ] at hword
    simp only [highFirst, length_singleton]
    omega
  | case3 x y l ih =>
    obtain ⟨hx, hy, hl⟩ : x < c ∧ y < c ∧ ∀ z ∈ l, z < c := by simpa using h
    have hle := ih hl
    have hword : c * (x + 1) ≤ c * c := Nat.mul_le_mul_left c hx
    rw [Nat.mul_succ] at hword
    rw [highFirst, length_cons, length_cons, show l.length + 1 + 1 + 1 = l.length + 1 + 2 by rfl,
      Nat.add_div_right _ (by decide), Nat.succ_mul]
    omega

end RetroOs.Lib.OnesComplement
