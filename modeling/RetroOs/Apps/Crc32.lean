import Mathlib.Logic.Function.Iterate
import Mathlib.Data.List.Basic

/-! The checksum of the applications' library, a byte at a time from a table, and the division bit by bit behind it. -/
namespace RetroOs.Apps.Crc32
open BitVec

def crc32Table : List (BitVec 32) := [
  0x00000000, 0x77073096, 0xee0e612c, 0x990951ba, 0x076dc419, 0x706af48f, 0xe963a535, 0x9e6495a3, 0x0edb8832, 0x79dcb8a4, 0xe0d5e91e, 0x97d2d988, 0x09b64c2b,
  0x7eb17cbd, 0xe7b82d07, 0x90bf1d91, 0x1db71064, 0x6ab020f2, 0xf3b97148, 0x84be41de, 0x1adad47d, 0x6ddde4eb, 0xf4d4b551, 0x83d385c7, 0x136c9856, 0x646ba8c0,
  0xfd62f97a, 0x8a65c9ec, 0x14015c4f, 0x63066cd9, 0xfa0f3d63, 0x8d080df5, 0x3b6e20c8, 0x4c69105e, 0xd56041e4, 0xa2677172, 0x3c03e4d1, 0x4b04d447, 0xd20d85fd,
  0xa50ab56b, 0x35b5a8fa, 0x42b2986c, 0xdbbbc9d6, 0xacbcf940, 0x32d86ce3, 0x45df5c75, 0xdcd60dcf, 0xabd13d59, 0x26d930ac, 0x51de003a, 0xc8d75180, 0xbfd06116,
  0x21b4f4b5, 0x56b3c423, 0xcfba9599, 0xb8bda50f, 0x2802b89e, 0x5f058808, 0xc60cd9b2, 0xb10be924, 0x2f6f7c87, 0x58684c11, 0xc1611dab, 0xb6662d3d, 0x76dc4190,
  0x01db7106, 0x98d220bc, 0xefd5102a, 0x71b18589, 0x06b6b51f, 0x9fbfe4a5, 0xe8b8d433, 0x7807c9a2, 0x0f00f934, 0x9609a88e, 0xe10e9818, 0x7f6a0dbb, 0x086d3d2d,
  0x91646c97, 0xe6635c01, 0x6b6b51f4, 0x1c6c6162, 0x856530d8, 0xf262004e, 0x6c0695ed, 0x1b01a57b, 0x8208f4c2, 0xf50fc457, 0x65b0d9c6, 0x12b7e950, 0x8bbeb8ea,
  0xfcb9887c, 0x62dd1ddf, 0x15da2d49, 0x8cd37cf3, 0xfbd44c65, 0x4db26158, 0x3ab551ce, 0xa3bc0074, 0xd4bb30e2, 0x4adfa541, 0x3dd895d7, 0xa4d1c46d, 0xd3d6f4fb,
  0x4369e96a, 0x346ed9fc, 0xad678846, 0xda60b8d0, 0x44042d73, 0x33031de5, 0xaa0a4c5f, 0xdd0d7a9f, 0x5005713c, 0x270241aa, 0xbe0b1010, 0xc90c2086, 0x5768b525,
  0x206f85b3, 0xb966d409, 0xce61e49f, 0x5edef90e, 0x29d9c998, 0xb0d09822, 0xc7d7a8b4, 0x59b33d17, 0x2eb40d81, 0xb7bd5c3b, 0xc0ba6cad, 0xedb88320, 0x9abfb3b6,
  0x03b6e20c, 0x74b1d29a, 0xead54739, 0x9dd277af, 0x04db2615, 0x73dc1683, 0xe3630b12, 0x94643b84, 0x0d6d6a3e, 0x7a6a5aa8, 0xe40ecf0b, 0x9309ff9d, 0x0a00ae27,
  0x7d079eb1, 0xf00f9344, 0x8708a3d2, 0x1e01f268, 0x6906c2fe, 0xf762575d, 0x806567cb, 0x196c3671, 0x6e6b06e7, 0xfed41b76, 0x89d32be0, 0x10da7a5a, 0x67dd4acc,
  0xf9b9df6f, 0x8ebeeff9, 0x17b7be43, 0x60b08ed5, 0xd6d6a3e8, 0xa1d1937e, 0x38d8c2c4, 0x4fdff252, 0xd1bb67f1, 0xa6bc5767, 0x3fb506dd, 0x48b2364b, 0xd80d2bda,
  0xaf0a1b4c, 0x36034af6, 0x41047a60, 0xdf60efc3, 0xa867df55, 0x316e8eef, 0x4669be79, 0xcb61b38c, 0xbc66831a, 0x256fd2a0, 0x5268e236, 0xcc0c7795, 0xbb0b4703,
  0x220216b9, 0x5505262f, 0xc5ba3bbe, 0xb2bd0b28, 0x2bb45a92, 0x5cb36a04, 0xc2d7ffa7, 0xb5d0cf31, 0x2cd99e8b, 0x5bdeae1d, 0x9b64c2b0, 0xec63f226, 0x756aa39c,
  0x026d930a, 0x9c0906a9, 0xeb0e363f, 0x72076785, 0x05005713, 0x95bf4a82, 0xe2b87a14, 0x7bb12bae, 0x0cb61b38, 0x92d28e9b, 0xe5d5be0d, 0x7cdcefb7, 0x0bdbdf21,
  0x86d3d2d4, 0xf1d4e242, 0x68ddb3f8, 0x1fda836e, 0x81be16cd, 0xf6b9265b, 0x6fb077e1, 0x18b74777, 0x88085ae6, 0xff0f6a70, 0x66063bca, 0x11010b5c, 0x8f659eff,
  0xf862ae69, 0x616bffd3, 0x166ccf45, 0xa00ae278, 0xd70dd2ee, 0x4e048354, 0x3903b3c2, 0xa7672661, 0xd06016f7, 0x4969474d, 0x3e6e77db, 0xaed16a4a, 0xd9d65adc,
  0x40df0b66, 0x37d83bf0, 0xa9bcae53, 0xdebb9ec5, 0x47b2cf7f, 0x30b5ffe9, 0xbdbdf21c, 0xcabac28a, 0x53b39330, 0x24b4a3a6, 0xbad03605, 0xcdd70693, 0x54de5729,
  0x23d967bf, 0xb3667a2e, 0xc4614ab8, 0x5d681b02, 0x2a6f2b94, 0xb40bbe37, 0xc30c8ea1, 0x5a05df1b, 0x2d02ef8d]

/-- The `uint32_t` that a byte is converted to. -/
def word (b : UInt8) : BitVec 32 := b.toBitVec.setWidth 32

def crc32Step (crc : BitVec 32) (b : UInt8) : BitVec 32 :=
  crc32Table.getD ((crc ^^^ word b) &&& 0xFF).toNat 0 ^^^ (crc >>> 8)

def crc32 (data : List UInt8) : BitVec 32 := ~~~data.foldl crc32Step 0xFFFFFFFF

/-- One bit of the division by the polynomial, the lowest bit first. -/
def shift (crc : BitVec 32) : BitVec 32 := if crc.getLsbD 0 then (crc >>> 1) ^^^ 0xEDB88320 else crc >>> 1

def bitwiseStep (crc : BitVec 32) (b : UInt8) : BitVec 32 := shift^[8] (crc ^^^ word b)

/-- The checksum, with eight steps of the division for a byte. -/
def bitwise (data : List UInt8) : BitVec 32 := ~~~data.foldl bitwiseStep 0xFFFFFFFF

/-- The two entries of the table that are not those of the polynomial. -/
def Misprinted (i : ℕ) : Prop := i = 86 ∨ i = 111

instance (i : ℕ) : Decidable (Misprinted i) := inferInstanceAs (Decidable (_ ∨ _))

def index (crc : BitVec 32) (b : UInt8) : ℕ := ((crc ^^^ word b) &&& 0xFF).toNat

/-- How often the loop comes upon one of them. -/
def hits (crc : BitVec 32) : List UInt8 → ℕ
  | [] => 0
  | b :: data => (if Misprinted (index crc b) then 1 else 0) + hits (crc32Step crc b) data

variable {x y c d : BitVec 32} {a b : UInt8} {data : List UInt8}

/-! ### The division -/

private theorem shift_xor (x y : BitVec 32) : shift (x ^^^ y) = shift x ^^^ shift y := by
  have hcancel (u v p : BitVec 32) : u ^^^ v = u ^^^ p ^^^ (v ^^^ p) := by
    rw [BitVec.xor_assoc u, ← BitVec.xor_assoc p, BitVec.xor_comm p v, BitVec.xor_assoc v, BitVec.xor_self, BitVec.xor_zero]
  simp only [shift, getLsbD_xor, ushiftRight_xor_distrib]
  cases x.getLsbD 0 <;> cases y.getLsbD 0
  · rfl
  · exact BitVec.xor_assoc ..
  · exact (BitVec.xor_assoc ..).trans ((congrArg _ (BitVec.xor_comm ..)).trans (BitVec.xor_assoc ..).symm)
  · exact hcancel ..

private theorem shift_injective : Function.Injective shift := by
  intro x y h
  have hzero : shift (x ^^^ y) = 0#32 := by rw [shift_xor, h, BitVec.xor_self]
  rw [shift] at hzero
  split at hzero
  · -- the polynomial has the bit that a shift clears
    have hbit := congrArg (·.getLsbD 31) (BitVec.xor_eq_zero_iff.mp hzero)
    simp at hbit
  · next hlast =>
    apply BitVec.xor_eq_zero_iff.mp
    apply eq_of_getLsbD_eq
    intro i hi
    cases i with
    | zero => exact Bool.not_eq_true _ ▸ hlast
    | succ i =>
      have hbit := congrArg (·.getLsbD i) hzero
      simpa only [BitVec.getLsbD_ushiftRight, Nat.add_comm 1 i, BitVec.getLsbD_zero] using hbit

private theorem shifts_xor (n : ℕ) (x y : BitVec 32) : shift^[n] (x ^^^ y) = shift^[n] x ^^^ shift^[n] y := by
  induction n generalizing x y with
  | zero => rfl
  | succ n ih => rw [Function.iterate_succ_apply, shift_xor, ih, Function.iterate_succ_apply, Function.iterate_succ_apply]

/-- While zeros are shifted out, the rest just moves down. -/
theorem shifts_high (n : ℕ) (h : ∀ i < n, x.getLsbD i = false) : shift^[n] x = x >>> n := by
  induction n with
  | zero => exact (ushiftRight_zero x).symm
  | succ n ih =>
    rw [Function.iterate_succ_apply', ih fun i hi => h i (Nat.lt_succ_of_lt hi), shift, BitVec.getLsbD_ushiftRight, Nat.add_zero,
      h n (Nat.lt_succ_self n), if_neg Bool.false_ne_true, BitVec.shiftRight_add]

private theorem table_shifts : ∀ i < 256, crc32Table.getD i 0 = shift^[8] (BitVec.ofNat 32 i) ↔ ¬ Misprinted i := by decide +kernel

private theorem mask_getLsbD (i : ℕ) : (0xFF : BitVec 32).getLsbD i = decide (i < 8) := by
  have hbit : (0xFF : BitVec 32).getLsbD i = (decide (i < 32) && Nat.testBit (2 ^ 8 - 1) i) := getLsbD_ofNat 32 _ i
  rw [hbit, Nat.testBit_two_pow_sub_one, ← Bool.decide_and]
  exact decide_eq_decide.mpr ⟨And.right, fun h => ⟨Nat.lt_trans h (by decide), h⟩⟩

/-- The low byte goes through the division, and the rest moves down. -/
theorem shifts_eight (x : BitVec 32) : shift^[8] x = shift^[8] (x &&& 0xFF) ^^^ (x >>> 8) := by
  have hsplit : x = (x &&& 0xFF) ^^^ (x &&& ~~~0xFF) := by
    apply eq_of_getLsbD_eq
    intro i hi
    rw [getLsbD_xor, getLsbD_and, getLsbD_and, getLsbD_not, decide_eq_true hi]
    cases x.getLsbD i <;> cases (0xFF : BitVec 32).getLsbD i <;> rfl
  have hlow : ∀ i < 8, (x &&& ~~~0xFF).getLsbD i = false := by
    intro i hi
    rw [BitVec.getLsbD_and, BitVec.getLsbD_not, mask_getLsbD, decide_eq_true hi, Bool.not_true, Bool.and_false, Bool.and_false]
  have hhigh : (x &&& ~~~0xFF) >>> 8 = x >>> 8 := by
    apply eq_of_getLsbD_eq
    intro i hi
    rw [getLsbD_ushiftRight, getLsbD_ushiftRight, getLsbD_and, getLsbD_not, mask_getLsbD,
      decide_eq_false (show ¬ 8 + i < 8 by omega)]
    by_cases h : 8 + i < 32
    · rw [decide_eq_true h, Bool.not_false, Bool.and_true, Bool.and_true]
    · rw [BitVec.getLsbD_of_ge x _ (by omega), Bool.false_and]
  conv_lhs => rw [hsplit]
  rw [shifts_xor, shifts_high 8 hlow, hhigh]

/-! ### One byte -/

private theorem word_shift (crc : BitVec 32) (b : UInt8) : (crc ^^^ word b) >>> 8 = crc >>> 8 := by
  have hzero : word b >>> 8 = 0 := by
    apply eq_of_toNat_eq
    rw [toNat_ushiftRight, word, toNat_setWidth, Nat.shiftRight_eq_div_pow]
    exact Nat.div_eq_of_lt (Nat.lt_of_le_of_lt (Nat.mod_le ..) b.toBitVec.isLt)
  rw [ushiftRight_xor_distrib, hzero]
  exact BitVec.xor_zero

theorem index_lt (crc : BitVec 32) (b : UInt8) : index crc b < 256 := by
  rw [index, toNat_and]
  exact Nat.lt_succ_of_le Nat.and_le_right

private theorem bitwiseStep_eq (crc : BitVec 32) (b : UInt8) : bitwiseStep crc b = shift^[8] (BitVec.ofNat 32 (index crc b)) ^^^ (crc >>> 8) := by
  rw [bitwiseStep, shifts_eight, word_shift, index, BitVec.ofNat_toNat, BitVec.setWidth_eq]

/-- A step is right exactly where it does not come upon a misprint. -/
theorem crc32Step_eq_iff : crc32Step c b = bitwiseStep c b ↔ ¬ Misprinted (index c b) := by
  rw [crc32Step, bitwiseStep_eq, BitVec.xor_left_inj]
  exact table_shifts _ (index_lt c b)

private theorem bitwiseStep_inj : bitwiseStep c b = bitwiseStep d b ↔ c = d :=
  (shift_injective.iterate 8).eq_iff.trans (BitVec.xor_left_inj _)

/-! ### The whole message -/

/-- From equal checksums on, the two go apart at the first misprint; apart, they stay apart while there is none. -/
theorem folds_eq_iff (h : hits c data = 0) : data.foldl crc32Step c = data.foldl bitwiseStep d ↔ c = d := by
  induction data generalizing c d with
  | nil => rfl
  | cons b data ih =>
    rw [hits, Nat.add_eq_zero_iff] at h
    have hstep : crc32Step c b = bitwiseStep c b := crc32Step_eq_iff.mpr fun hm => by simp [hm] at h
    rw [List.foldl_cons, List.foldl_cons, ih h.2, hstep, bitwiseStep_inj]

private theorem folds_ne (h : hits c data = 1) : data.foldl crc32Step c ≠ data.foldl bitwiseStep c := by
  induction data generalizing c with
  | nil => cases h
  | cons b data ih =>
    rw [hits] at h
    rw [List.foldl_cons, List.foldl_cons]
    by_cases hm : Misprinted (index c b)
    · rw [if_pos hm] at h
      exact mt (folds_eq_iff (by omega)).mp (mt crc32Step_eq_iff.mp (not_not.mpr hm))
    · rw [if_neg hm, Nat.zero_add] at h
      rw [← crc32Step_eq_iff.mpr hm]
      exact ih h

/-- The checksum is that of the polynomial for a message that never comes upon a misprint of the table, and another one
for a message that comes upon them once. -/
theorem crc32_misprints (data : List UInt8) :
    (hits 0xFFFFFFFF data = 0 → crc32 data = bitwise data) ∧ (hits 0xFFFFFFFF data = 1 → crc32 data ≠ bitwise data) := by
  refine ⟨fun h => congrArg (~~~·) ((folds_eq_iff h).mpr rfl), fun h heq => folds_ne h ?_⟩
  have hback := congrArg (~~~·) heq
  simpa only [crc32, bitwise, BitVec.not_not] using hback

example : crc32 [0xA9] ≠ bitwise [0xA9] := by decide

end RetroOs.Apps.Crc32
