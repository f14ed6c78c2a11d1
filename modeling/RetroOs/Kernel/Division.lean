import Mathlib.Tactic.Ring

/-! The 64-bit divisions that the compiler calls: shift and subtract. An `int64_t` that overflows wraps. -/
namespace RetroOs.Kernel.Division
open Nat

/-- `(r << 1) | ((n >> i) & 1)` -/
def bringDown (n r : BitVec 64) (i : ℕ) : BitVec 64 := (r <<< 1) ||| ((n >>> i) &&& 1#64)

/-- `for (int i = 63; i >= 0; i--)`, with as many turns left as the first number says. -/
def divLoop (n d : BitVec 64) : ℕ → BitVec 64 → BitVec 64 → BitVec 64
  | 0, q, _ => q
  | i + 1, q, r =>
    let r := bringDown n r i
    if d ≤ r then divLoop n d i (q ||| (1#64 <<< i)) (r - d) else divLoop n d i q r

def udivdi3 (n d : BitVec 64) : BitVec 64 := if d = 0 then 0 else divLoop n d 64 0 0

/-- The same loop without the quotient. -/
def modLoop (n d : BitVec 64) : ℕ → BitVec 64 → BitVec 64
  | 0, r => r
  | i + 1, r =>
    let r := bringDown n r i
    if d ≤ r then modLoop n d i (r - d) else modLoop n d i r

def umoddi3 (n d : BitVec 64) : BitVec 64 := if d = 0 then 0 else modLoop n d 64 0

def divdi3 (n d : BitVec 64) : BitVec 64 :=
  let sn := n.sshiftRight 63
  let sd := d.sshiftRight 63
  let un := (n ^^^ sn) - sn
  let ud := (d ^^^ sd) - sd
  let uq := udivdi3 un ud
  let sq := sn ^^^ sd
  (uq ^^^ sq) - sq

variable {n d q r : BitVec 64} {i a b c : ℕ}

/-! ### One digit of the long division -/

/-- The remainder of the digits that are brought down so far. -/
def Carries (n d r : BitVec 64) (i : ℕ) : Prop := r.toNat = n.toNat / 2 ^ i % d.toNat

private theorem bringDown_toNat (h : Carries n d r (i + 1)) :
    (bringDown n r i).toNat = 2 * (n.toNat / 2 ^ (i + 1) % d.toNat) + n.toNat / 2 ^ i % 2 := by
  have hprefix : n.toNat / 2 ^ (i + 1) = n.toNat / 2 ^ i / 2 := by rw [Nat.pow_succ, Nat.div_div_eq_div_mul]
  have hle : n.toNat / 2 ^ i ≤ n.toNat := div_le_self _ _
  have hmod : n.toNat / 2 ^ (i + 1) % d.toNat ≤ n.toNat / 2 ^ (i + 1) := mod_le _ _
  have hr : r.toNat * 2 < 2 ^ 64 := by
    have hn := n.isLt
    rw [Carries] at h
    omega
  have hor := two_pow_add_eq_or_of_lt (i := 1) (b := n.toNat / 2 ^ i % 2) (by omega) r.toNat
  simp only [bringDown, BitVec.toNat_or, BitVec.toNat_shiftLeft, BitVec.toNat_and, BitVec.toNat_ushiftRight, Nat.shiftLeft_eq,
    shiftRight_eq_div_pow, pow_one, mod_eq_of_lt hr, BitVec.toNat_one (show 0 < 64 by omega), and_one_is_mod]
  rw [Nat.mul_comm r.toNat 2, ← h]
  exact hor.symm

private theorem digit_div (hd : 0 < c) (h : c ≤ 2 * (a / 2 % c) + a % 2) : a / c = 2 * (a / 2 / c) + 1 ∧ a % c = 2 * (a / 2 % c) + a % 2 - c := by
  have hlt := mod_lt (a / 2) hd
  have hsplit := div_add_mod (a / 2) c
  have ha : a = c * (2 * (a / 2 / c) + 1) + (2 * (a / 2 % c) + a % 2 - c) := by
    rw [Nat.mul_add, Nat.mul_left_comm]
    omega
  exact Nat.div_mod_unique hd |>.mpr ⟨by omega, by omega⟩

private theorem digit_same (h : 2 * (a / 2 % c) + a % 2 < c) : a / c = 2 * (a / 2 / c) ∧ a % c = 2 * (a / 2 % c) + a % 2 := by
  have hsplit := div_add_mod (a / 2) c
  have ha : a = c * (2 * (a / 2 / c)) + (2 * (a / 2 % c) + a % 2) := by
    rw [mul_left_comm]
    omega
  exact Nat.div_mod_unique (by omega) |>.mpr ⟨by omega, h⟩

/-- A turn keeps the remainder that of the bits that are down, and says the quotient's next bit. -/
theorem turn_carries (hd : d ≠ 0) (h : Carries n d r (i + 1)) :
    (d ≤ bringDown n r i → n.toNat / 2 ^ i / d.toNat = 2 * (n.toNat / 2 ^ (i + 1) / d.toNat) + 1 ∧ Carries n d (bringDown n r i - d) i) ∧
      (¬ d ≤ bringDown n r i → n.toNat / 2 ^ i / d.toNat = 2 * (n.toNat / 2 ^ (i + 1) / d.toNat) ∧ Carries n d (bringDown n r i) i) := by
  have hpos : 0 < d.toNat := pos_of_ne_zero fun h0 => hd (BitVec.eq_of_toNat_eq h0)
  have hdown := bringDown_toNat h
  have hhalf : n.toNat / 2 ^ (i + 1) = n.toNat / 2 ^ i / 2 := by rw [Nat.pow_succ, Nat.div_div_eq_div_mul]
  rw [hhalf] at hdown ⊢
  constructor
  · intro hle
    have hle' : d.toNat ≤ (bringDown n r i).toNat := hle
    obtain ⟨hdiv, hmod⟩ := digit_div hpos (hdown ▸ hle')
    exact ⟨hdiv, by rw [Carries, BitVec.toNat_sub_of_le hle, hdown, hmod]⟩
  · intro hlt
    have hlt' : (bringDown n r i).toNat < d.toNat := BitVec.not_le.mp hlt
    obtain ⟨hdiv, hmod⟩ := digit_same (hdown ▸ hlt')
    exact ⟨hdiv, by rw [Carries, hdown, hmod]⟩

/-- The quotient's bit is set where only zeros are. -/
theorem setBit_toNat (hq : q.toNat = b * 2 ^ (i + 1)) (hi : i < 64) : (q ||| (1#64 <<< i)).toNat = (2 * b + 1) * 2 ^ i := by
  have hbit : 2 ^ i < 2 ^ 64 := Nat.pow_lt_pow_right (by omega) hi
  have hor := Nat.two_pow_add_eq_or_of_lt (i := i + 1) (b := 2 ^ i) (Nat.pow_lt_pow_right (by omega) (by omega)) b
  rw [BitVec.toNat_or, BitVec.toNat_shiftLeft, BitVec.toNat_ofNat, Nat.shiftLeft_eq, hq, Nat.mul_comm b, Nat.one_mod_eq_one.mpr (by omega),
    Nat.one_mul, Nat.mod_eq_of_lt hbit, ← hor, Nat.pow_succ]
  ring

private theorem divLoop_toNat (hd : d ≠ 0) (hi : i ≤ 64) (hq : q.toNat = n.toNat / 2 ^ i / d.toNat * 2 ^ i) (hr : Carries n d r i) :
    (divLoop n d i q r).toNat = n.toNat / d.toNat := by
  induction i generalizing q r with
  | zero => simpa [divLoop] using hq
  | succ i ih =>
    obtain ⟨hone, hzero⟩ := turn_carries hd hr
    simp only [divLoop]
    split
    · next hle =>
      obtain ⟨hdiv, hc⟩ := hone hle
      exact ih (by omega) (by rw [setBit_toNat hq (by omega), hdiv]) hc
    · next hlt =>
      obtain ⟨hdiv, hc⟩ := hzero hlt
      refine ih (by omega) ?_ hc
      rw [hq, hdiv, pow_succ]
      ring

private theorem modLoop_toNat (hd : d ≠ 0) (hr : Carries n d r i) : (modLoop n d i r).toNat = n.toNat % d.toNat := by
  induction i generalizing r with
  | zero => simpa [modLoop, Carries] using hr
  | succ i ih =>
    obtain ⟨hone, hzero⟩ := turn_carries hd hr
    simp only [modLoop]
    split
    · next hle => exact ih (hone hle).2
    · next hlt => exact ih (hzero hlt).2

private theorem carries_start (n d : BitVec 64) : Carries n d 0 64 := by
  rw [Carries, div_eq_of_lt n.isLt, zero_mod]
  rfl

/-! ### The three divisions -/

private theorem udivdi3_eq (n d : BitVec 64) : udivdi3 n d = n / d := by
  rw [udivdi3]
  split
  · next hd =>
    subst hd
    exact BitVec.udiv_zero.symm
  · next hd =>
    apply BitVec.eq_of_toNat_eq
    have hstart : (0 : BitVec 64).toNat = n.toNat / 2 ^ 64 / d.toNat * 2 ^ 64 := by
      rw [Nat.div_eq_of_lt n.isLt, Nat.zero_div, Nat.zero_mul]
      rfl
    rw [divLoop_toNat hd le_rfl hstart (carries_start n d), BitVec.toNat_udiv]

private theorem umoddi3_toNat (n d : BitVec 64) : (umoddi3 n d).toNat = if d = 0 then 0 else n.toNat % d.toNat := by
  rw [umoddi3]
  split
  · rfl
  · next hd => exact modLoop_toNat hd (carries_start n d)

/-- The sign, as the shift of an `int64_t` gives it. -/
theorem sign_eq (x : BitVec 64) : x.sshiftRight 63 = if x.msb then BitVec.allOnes 64 else 0 := by
  apply BitVec.eq_of_getLsbD_eq
  intro k hk
  have hlast : (if 63 + k < 64 then x.getLsbD (63 + k) else x.msb) = x.msb := by
    split
    · next h =>
      obtain rfl : k = 0 := by omega
      exact (BitVec.msb_eq_getLsbD_last x).symm
    · rfl
  rw [BitVec.getLsbD_sshiftRight, hlast, decide_eq_false (by omega)]
  cases x.msb with
  | false => exact (BitVec.getLsbD_zero).symm
  | true => rw [if_pos rfl, BitVec.getLsbD_allOnes, decide_eq_true hk]; rfl

theorem flip_eq (x s : BitVec 64) (neg : Bool) (hs : s = if neg then BitVec.allOnes 64 else 0) :
    (x ^^^ s) - s = if neg then -x else x := by
  subst hs
  cases neg with
  | false => exact (BitVec.sub_zero _).trans (BitVec.xor_zero)
  | true =>
    rw [if_pos rfl, if_pos rfl, BitVec.xor_allOnes, ← BitVec.neg_one_eq_allOnes, BitVec.sub_eq_add_neg, BitVec.neg_neg]
    exact (BitVec.neg_eq_not_add x).symm

private theorem divdi3_eq (n d : BitVec 64) : divdi3 n d = n.sdiv d := by
  have hsign : n.sshiftRight 63 ^^^ d.sshiftRight 63 = if n.msb ^^ d.msb then BitVec.allOnes 64 else 0 := by
    rw [sign_eq, sign_eq]
    cases n.msb <;> cases d.msb <;> simp
  simp only [divdi3]
  rw [flip_eq n _ n.msb (sign_eq n), flip_eq d _ d.msb (sign_eq d), flip_eq _ _ (n.msb ^^ d.msb) hsign, udivdi3_eq, BitVec.sdiv_eq]
  cases n.msb <;> cases d.msb <;> simp

/-- The divisions are those of the numbers; by zero they give zero, and the one quotient that does not fit wraps. -/
theorem quotients_and_remainders (n d : BitVec 64) :
    (udivdi3 n d).toNat = n.toNat / d.toNat ∧ (umoddi3 n d).toNat = (if d = 0 then 0 else n.toNat % d.toNat) ∧
      (divdi3 n d).toInt = if n = BitVec.intMin 64 ∧ d = -1 then n.toInt else n.toInt.tdiv d.toInt := by
  refine ⟨by rw [udivdi3_eq, BitVec.toNat_udiv], umoddi3_toNat n d, ?_⟩
  rw [divdi3_eq]
  split
  · next h =>
    obtain ⟨rfl, rfl⟩ := h
    rfl
  · next h =>
    apply BitVec.toInt_sdiv_of_ne_or_ne
    by_contra hno
    exact h (by simpa [not_or] using hno)

end RetroOs.Kernel.Division
