import Mathlib.Data.Nat.Digits.Lemmas
import RetroOs.Lib.Copying

/-! Numerals: the characters of digits, what a string of them reads as, and that the digits of a number read as the number. -/
namespace RetroOs.Lib
open List Nat

namespace CString

/-- Bytes that are not zero as a string. -/
def ofBytes (l : List UInt8) (h : ∀ c ∈ l, c ≠ 0) : CString := l.pmap Subtype.mk h

theorem map_ofBytes (l : List UInt8) (h : ∀ c ∈ l, c ≠ 0) : (ofBytes l h).map Subtype.val = l := by
  rw [ofBytes, map_pmap]
  exact pmap_eq_self.mpr fun _ _ => rfl

theorem terminated_ofBytes (l : List UInt8) (h : ∀ c ∈ l, c ≠ 0) : (ofBytes l h).terminated = l ++ [0] := by
  rw [terminated, map_ofBytes]

end CString

namespace Memory
variable {m m' : Memory} {a n : ℕ} {s t : CString} {u v l : List UInt8} {x y : UInt8}

theorem cstr_terminated (m : Memory) (h : s.length < n) : (m.memcpy a s.terminated).cstr a n = s := by
  have hstrcpy : m.memcpy a s.terminated = m.strcpy a s := by
    clear h
    induction s generalizing m a with
    | nil => exact (store8_eq m a 0).symm
    | cons c s ih => rw [CString.terminated_cons, ← memcpy_cons, ih, strcpy]
  rw [hstrcpy, cstr_strcpy m h]

theorem terminated_inj (h : m.memcpy a s.terminated = m'.memcpy a t.terminated) : s = t := by
  have hs := cstr_terminated (a := a) m (lt_succ_of_le (le_max_left s.length t.length))
  rw [h, cstr_terminated m' (lt_succ_of_le (le_max_right s.length t.length))] at hs
  exact hs.symm

theorem memcpy_read (m : Memory) (a : ℕ) (u v : List UInt8) (x : UInt8) : m.memcpy a (u ++ x :: v) (a + u.length) = x := by
  rw [memcpy_at (Nat.le_add_right ..) (by rw [List.length_append, List.length_cons]; omega)]
  simp only [Nat.add_sub_cancel_left, List.getElem_append_right (Nat.le_refl _), Nat.sub_self, List.getElem_cons_zero]

theorem memcpy_store (m : Memory) (a : ℕ) (u v : List UInt8) (x y : UInt8) :
    (m.memcpy a (u ++ x :: v)).store8 (a + u.length) y = m.memcpy a (u ++ y :: v) := by
  funext z
  rw [store8]
  split
  · next hz => rw [hz, memcpy_read]
  · next hz =>
    by_cases hin : a ≤ z ∧ z < a + (u ++ y :: v).length
    · have hlength : (u ++ x :: v).length = (u ++ y :: v).length := by simp only [length_append, length_cons]
      rw [memcpy_at hin.1 (by omega), memcpy_at hin.1 (by omega), getElem_append, getElem_append]
      split
      · rfl
      · rw [getElem_cons, getElem_cons, dif_neg (by omega), dif_neg (by omega)]
    · have hlength : (u ++ x :: v).length = (u ++ y :: v).length := by simp only [length_append, length_cons]
      rw [memcpy_outside (by omega), memcpy_outside (by omega)]

end Memory

/-! ### Digits -/

namespace Numerals

def digitChar (d : ℕ) : UInt8 := if 9 < d then UInt8.ofNat (d - 10 + 0x61) else UInt8.ofNat (d + 0x30)

/-- The digit of a character, below the base. -/
def digitValue (base : ℕ) (c : UInt8) : Option ℕ :=
  (if 0x30 ≤ c ∧ c ≤ 0x39 then some (c.toNat - 0x30)
    else if 0x61 ≤ c ∧ c ≤ 0x7A then some (c.toNat - 0x61 + 10) else none).filter (· < base)

/-- The number of a string of digits, the highest first. -/
def readDigits (base : ℕ) (s : List UInt8) : Option ℕ := s.foldlM (fun n c => (digitValue base c).map (n * base + ·)) 0

/-- A number without a sign has one digit or more. -/
def readUnsigned (base : ℕ) (s : List UInt8) : Option ℕ := if s = [] then none else readDigits base s

def minusSign : UInt8 := 0x2D

/-- A number with a sign, if it is negative. -/
def readSigned (base : ℕ) : List UInt8 → Option ℤ
  | [] => none
  | c :: s => if c = minusSign then (readUnsigned base s).map fun n : ℕ => -(n : ℤ) else (readUnsigned base (c :: s)).map Int.ofNat

/-- The digits of a number, the highest first. -/
def numeral (base n : ℕ) : List UInt8 := ((digits base n).map digitChar).reverse

variable {base d n : ℕ} {c : UInt8} {s : List UInt8}

theorem digitValue_digitChar (hbase : base ≤ 36) (hd : d < base) : digitValue base (digitChar d) = some d := by
  have hchar : ∀ d < 36, digitChar d ≠ 0 ∧ ((if 0x30 ≤ digitChar d ∧ digitChar d ≤ 0x39 then some ((digitChar d).toNat - 0x30)
      else if 0x61 ≤ digitChar d ∧ digitChar d ≤ 0x7A then some ((digitChar d).toNat - 0x61 + 10) else none) = some d) := by decide
  rw [digitValue, (hchar d (lt_of_lt_of_le hd hbase)).2, Option.filter_some, if_pos (decide_eq_true hd)]

theorem digitChar_ne_zero : ∀ d < 36, digitChar d ≠ 0 := by decide

theorem digitValue_below (hc : c < 0x30) : digitValue base c = none := by
  have h1 : ¬ (0x30 ≤ c ∧ c ≤ 0x39) := fun h => absurd hc (UInt8.not_lt.mpr h.1)
  have h2 : ¬ (0x61 ≤ c ∧ c ≤ 0x7A) := fun h => absurd (UInt8.lt_of_lt_of_le hc (by decide : (0x30 : UInt8) ≤ 0x61)) (UInt8.not_lt.mpr h.1)
  rw [digitValue, if_neg h1, if_neg h2]
  rfl

theorem readDigits_reverse (hbase : base ≤ 36) {ds : List ℕ} (hds : ∀ d ∈ ds, d < base) :
    readDigits base (ds.map digitChar).reverse = some (ofDigits base ds) := by
  induction ds with
  | nil => rfl
  | cons d ds ih =>
    have hrest := ih fun e he => hds e (.tail _ he)
    rw [readDigits] at hrest
    rw [map_cons, reverse_cons, readDigits, foldlM_append, hrest, Option.bind_eq_bind, Option.bind_some, foldlM_cons,
      digitValue_digitChar hbase (hds d mem_cons_self), ofDigits_cons, mul_comm, add_comm]
    rfl

theorem digits_lt (h2 : 2 ≤ base) : ∀ d ∈ Nat.digits base n, d < base := by
  obtain ⟨b, rfl⟩ := Nat.exists_eq_add_of_le' h2
  exact fun d hd => digits_lt_base' hd

theorem numeral_ne_nil (base : ℕ) (hn : n ≠ 0) : numeral base n ≠ [] := by
  rw [numeral, Ne, reverse_eq_nil_iff, map_eq_nil_iff]
  exact digits_ne_nil_iff_ne_zero.mpr hn

theorem readUnsigned_numeral (h2 : 2 ≤ base) (hbase : base ≤ 36) (hn : n ≠ 0) : readUnsigned base (numeral base n) = some n := by
  rw [readUnsigned, if_neg (numeral_ne_nil base hn), numeral, readDigits_reverse hbase (digits_lt h2), ofDigits_digits]

theorem numeral_digits (n : ℕ) (h2 : 2 ≤ base) (hbase : base ≤ 36) : ∀ c ∈ numeral base n, ∃ d < 36, c = digitChar d := by
  intro c hc
  obtain ⟨d, hd, rfl⟩ := mem_map.mp (mem_reverse.mp hc)
  exact ⟨d, lt_of_lt_of_le (digits_lt h2 d hd) hbase, rfl⟩

theorem numeral_ne_zero (h2 : 2 ≤ base) (hbase : base ≤ 36) : ∀ c ∈ numeral base n, c ≠ 0 := by
  intro c hc
  obtain ⟨d, hd, rfl⟩ := numeral_digits n h2 hbase c hc
  exact digitChar_ne_zero d hd

end Numerals
end RetroOs.Lib
