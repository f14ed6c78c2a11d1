import Mathlib.Data.UInt
import Mathlib.Tactic.NormNum

/-! Flat byte memory with little-endian 32-bit loads and stores. -/
namespace RetroOs.Lib
open List UInt8 Nat

abbrev Memory := Nat → UInt8

namespace Memory

def load32 (m : Memory) (a : Nat) : Nat :=
  (m a).toNat + 256 * (m (a + 1)).toNat + 65536 * (m (a + 2)).toNat + 16777216 * (m (a + 3)).toNat

def load16 (m : Memory) (a : Nat) : Nat := (m a).toNat + 256 * (m (a + 1)).toNat

def store16 (m : Memory) (a v : Nat) : Memory :=
  fun x => if x = a then ofNat v else if x = a + 1 then ofNat (v / 256) else m x

def bytes (m : Memory) (a n : Nat) : List UInt8 := (range n).map fun i => m (a + i)

def store8 (m : Memory) (a : Nat) (b : UInt8) : Memory :=
  fun x => if x = a then b else m x

def store32 (m : Memory) (a v : Nat) : Memory :=
  fun x =>
    if x = a then ofNat v
    else if x = a + 1 then ofNat (v / 256)
    else if x = a + 2 then ofNat (v / 65536)
    else if x = a + 3 then ofNat (v / 16777216)
    else m x

/-- Write the byte `b` to the `n` addresses from `a` on. -/
def fill (m : Memory) (a : Nat) (b : UInt8) (n : Nat) : Memory :=
  fun x => if a ≤ x ∧ x < a + n then b else m x

/-- The two memories agree on the `n` bytes from `a` on. -/
def AgreeOn (m m' : Memory) (a n : Nat) : Prop := ∀ x, a ≤ x → x < a + n → m' x = m x

variable {m m' : Memory} {a b v n k : Nat}

theorem AgreeOn.refl : AgreeOn m m a n := fun _ _ _ => rfl

theorem AgreeOn.trans {m'' : Memory} (h : AgreeOn m m' a n) (h' : AgreeOn m' m'' a n) :
    AgreeOn m m'' a n :=
  fun x hl hu => (h' x hl hu).trans (h x hl hu)

theorem AgreeOn.mono (h : AgreeOn m m' a n) (ha : a ≤ b) (hn : b + k ≤ a + n) : AgreeOn m m' b k :=
  fun x hl hu => h x (by omega) (by omega)

theorem AgreeOn.load32 (h : AgreeOn m m' a 4) : m'.load32 a = m.load32 a := by
  simp only [Memory.load32]
  rw [h a (by omega) (by omega), h (a + 1) (by omega) (by omega), h (a + 2) (by omega) (by omega),
    h (a + 3) (by omega) (by omega)]

theorem load32_lt (m : Memory) (a : Nat) : m.load32 a < 2 ^ 32 := by
  have h0 := (m a).toNat_lt
  have h1 := (m (a + 1)).toNat_lt
  have h2 := (m (a + 2)).toNat_lt
  have h3 := (m (a + 3)).toNat_lt
  simp only [load32]
  omega

theorem load32_byte (m : Memory) (a : Nat) (hk : k < 4) : UInt8.ofNat (m.load32 a / 256 ^ k) = m (a + k) := by
  rw [← UInt8.toNat_inj, UInt8.toNat_ofNat']
  have h0 := (m a).toNat_lt
  have h1 := (m (a + 1)).toNat_lt
  have h2 := (m (a + 2)).toNat_lt
  have h3 := (m (a + 3)).toNat_lt
  rw [load32]
  have hcases : k = 0 ∨ k = 1 ∨ k = 2 ∨ k = 3 := by omega
  rcases hcases with rfl | rfl | rfl | rfl <;> simp only [Nat.reducePow, Nat.add_zero, Nat.div_one] <;> omega

theorem load32_store32 (m : Memory) (a : Nat) (hv : v < 2 ^ 32) : (m.store32 a v).load32 a = v := by
  simp only [load32, store32, show a + 1 ≠ a by omega, show a + 2 ≠ a by omega, show a + 3 ≠ a by omega,
    show a + 2 ≠ a + 1 by omega, show a + 3 ≠ a + 1 by omega, show a + 3 ≠ a + 2 by omega, if_false,
    if_true, toNat_ofNat']
  omega

theorem AgreeOn.load16 (h : AgreeOn m m' a 2) : m'.load16 a = m.load16 a := by
  simp only [Memory.load16]
  rw [h a (by omega) (by omega), h (a + 1) (by omega) (by omega)]

theorem AgreeOn.bytes (h : AgreeOn m m' a n) : m'.bytes a n = m.bytes a n :=
  map_congr_left fun i hi => h (a + i) (Nat.le_add_right ..) (Nat.add_lt_add_left (mem_range.mp hi) a)

theorem length_bytes (m : Memory) (a n : Nat) : (m.bytes a n).length = n := by rw [bytes, length_map, length_range]

theorem bytes_succ (m : Memory) (a n : Nat) : m.bytes a (n + 1) = m a :: m.bytes (a + 1) n := by
  rw [bytes, bytes, range_succ_eq_map, map_cons, map_map, add_zero]
  congr 1
  refine map_congr_left fun i _ => ?_
  rw [Function.comp_apply, succ_eq_add_one, add_right_comm, add_assoc]

theorem bytes_add (m : Memory) (a n k : Nat) : m.bytes a (n + k) = m.bytes a n ++ m.bytes (a + n) k := by
  rw [bytes, bytes, bytes, range_add, map_append, map_map]
  congr 1
  refine map_congr_left fun i _ => ?_
  rw [Function.comp_apply, add_assoc]

theorem bytes_head (m : Memory) (a n : Nat) : (m.bytes a (n + 1)).head? = some (m a) := by
  rw [bytes, head?_map, head?_range]
  rfl

theorem load16_lt (m : Memory) (a : Nat) : m.load16 a < 2 ^ 16 := by
  have h0 := (m a).toNat_lt
  have h1 := (m (a + 1)).toNat_lt
  simp only [load16]
  omega

theorem load16_store16 (m : Memory) (a : Nat) (hv : v < 2 ^ 16) : (m.store16 a v).load16 a = v := by
  simp only [load16, store16, show a + 1 ≠ a by omega, if_false, if_true, toNat_ofNat']
  omega

theorem store16_agreeOn (m : Memory) (v : Nat) (h : a + n ≤ b ∨ b + 2 ≤ a) :
    AgreeOn m (m.store16 b v) a n := by
  intro x hl hu
  simp only [store16]
  rw [if_neg (by omega), if_neg (by omega)]

theorem store32_agreeOn (m : Memory) (v : Nat) (h : a + n ≤ b ∨ b + 4 ≤ a) :
    AgreeOn m (m.store32 b v) a n := by
  intro x hl hu
  simp only [store32]
  rw [if_neg (by omega), if_neg (by omega), if_neg (by omega), if_neg (by omega)]

theorem fill_agreeOn (m : Memory) (v : UInt8) (h : a + n ≤ b ∨ b + k ≤ a) :
    AgreeOn m (m.fill b v k) a n := by
  intro x hl hu
  simp only [fill]
  rw [if_neg (by omega)]

theorem store8_agreeOn (m : Memory) (v : UInt8) (h : b < a ∨ a + n ≤ b) :
    AgreeOn m (m.store8 b v) a n := by
  intro x hl hu
  simp only [store8]
  rw [if_neg (by omega)]

theorem load32_store32_other (m : Memory) (v : Nat) (h : a + 4 ≤ b ∨ b + 4 ≤ a) :
    (m.store32 b v).load32 a = m.load32 a :=
  (store32_agreeOn m v h).load32

theorem load32_shift (h : ∀ x < 4, m (a + x) = m' (b + x)) : m.load32 a = m'.load32 b := by
  have h0 := h 0 (by decide)
  rw [add_zero, add_zero] at h0
  simp only [load32, h0, h 1 (by decide), h 2 (by decide), h 3 (by decide)]

theorem load16_shift (h : ∀ x < 2, m (a + x) = m' (b + x)) : m.load16 a = m'.load16 b := by
  have h0 := h 0 (by decide)
  rw [add_zero, add_zero] at h0
  simp only [load16, h0, h 1 (by decide)]

theorem bytes_shift (h : ∀ x < n, m (a + x) = m' (b + x)) : m.bytes a n = m'.bytes b n :=
  map_congr_left fun x hx => h x (mem_range.mp hx)

theorem store16_store16_load16 (m : Memory) (a v : Nat) : (m.store16 a v).store16 a (m.load16 a) = m := by
  funext x
  have h0 := (m a).toNat_lt
  have h1 := (m (a + 1)).toNat_lt
  simp only [store16, load16]
  split_ifs with hx hx
  · rw [hx, ← UInt8.toNat_inj, UInt8.toNat_ofNat']
    omega
  · rw [hx, ← UInt8.toNat_inj, UInt8.toNat_ofNat']
    omega
  · rfl

theorem load32_zero (h : ∀ x, a ≤ x → x < a + 4 → m x = 0) : m.load32 a = 0 := by
  simp only [load32]
  rw [h a (by omega) (by omega), h (a + 1) (by omega) (by omega), h (a + 2) (by omega) (by omega),
    h (a + 3) (by omega) (by omega)]
  rfl

end Memory
end RetroOs.Lib
