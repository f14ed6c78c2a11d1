import Mathlib.Data.UInt

/-! Streams whose positions are numbered by 32-bit words from some first number on. -/
namespace RetroOs.Lib
open UInt32
variable {first : UInt32} {a b k : Nat}

/-- The number of a position. -/
def seqAt (first : UInt32) (k : Nat) : UInt32 := first + ofNat k

@[simp] theorem seqAt_zero (first : UInt32) : seqAt first 0 = first := by simp [seqAt]

theorem seqAt_add (first : UInt32) (a b : Nat) : seqAt first (a + b) = seqAt first a + ofNat b := by
  rw [seqAt, seqAt, ofNat_add, add_assoc]

theorem seqAt_seqAt (first : UInt32) (a b : Nat) : seqAt first (a + b) = seqAt (seqAt first a) b := seqAt_add first a b

theorem seqAt_succ (first : UInt32) (a : Nat) : seqAt first (a + 1) = seqAt first a + 1 := seqAt_add first a 1

theorem seqAt_toNat (first : UInt32) (k : Nat) : (seqAt first k).toNat = (first.toNat + k) % 2 ^ 32 := by
  rw [seqAt, UInt32.toNat_add, UInt32.toNat_ofNat', Nat.add_mod_mod]

theorem seqAt_mod (first : UInt32) (k : Nat) : seqAt first (k % 2 ^ 32) = seqAt first k := by
  rw [← UInt32.toNat_inj, seqAt_toNat, seqAt_toNat, Nat.add_mod_mod]

theorem position_eq (h : (seqAt first a - seqAt first b).toNat = k) (hlow : a < b + 2 ^ 32) (hup : b + k < a + 2 ^ 32) :
    b + k = a := by
  rw [UInt32.toNat_sub, seqAt_toNat, seqAt_toNat] at h
  omega

theorem seqAt_between {x : UInt32} {n : Nat} (hk : k ≤ n) (hlow : seqAt first k < x) (hup : x ≤ seqAt first n) :
    ∃ j ≤ n, x = seqAt first j := by
  have hlow := lt_iff_toNat_lt.mp hlow
  have hup := le_iff_toNat_le.mp hup
  rw [seqAt_toNat] at hlow hup
  have hfirst := first.toNat_lt
  refine ⟨(x - first).toNat, ?_, ?_⟩
  · rw [UInt32.toNat_sub]
    omega
  · rw [seqAt, UInt32.ofNat_toNat]
    simp

theorem seqAt_sub_le (hk : k ≤ a) (ha : a < 2 ^ 32) : seqAt first k - first ≤ seqAt first a - first := by
  rw [UInt32.le_iff_toNat_le, UInt32.toNat_sub, UInt32.toNat_sub, seqAt_toNat, seqAt_toNat]
  have hfirst := first.toNat_lt
  omega

end RetroOs.Lib
