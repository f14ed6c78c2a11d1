import RetroOs.Lib.Memory

/-! C strings, and the string calls on a byte memory. -/
namespace RetroOs.Lib
open List Nat

abbrev CChar := { b : UInt8 // b ≠ 0 }

/-- The characters of a C string before its terminator. -/
abbrev CString := List CChar

def CString.ofString (s : String) : CString :=
  s.toList.filterMap fun c => if h : c.toNat.toUInt8 ≠ 0 then some ⟨c.toNat.toUInt8, h⟩ else none

namespace Memory

/-- The string in the `n` bytes from `a` on; all of them where there is no terminator. -/
def cstr (m : Memory) (a : Nat) : Nat → CString
  | 0 => []
  | n + 1 => if h : m a ≠ 0 then ⟨m a, h⟩ :: cstr m (a + 1) n else []

/-- `strcmp(a, s) == 0`. -/
def strEq (m : Memory) (a : Nat) : CString → Bool
  | [] => m a == 0
  | c :: s => m a == c.val && strEq m (a + 1) s

def strcpy (m : Memory) (a : Nat) : CString → Memory
  | [] => m.store8 a 0
  | c :: s => strcpy (m.store8 a c) (a + 1) s

def memcpy (m : Memory) (a : Nat) (bytes : List UInt8) : Memory :=
  fun x => if a ≤ x then bytes.getD (x - a) (m x) else m x

def move (m : Memory) (dst src n : Nat) : Memory :=
  fun x => if dst ≤ x ∧ x < dst + n then m (src + (x - dst)) else m x

variable {m m' : Memory} {a b n k : Nat} {s t : CString}

theorem strEq_iff (hs : s.length < n) : m.strEq a s ↔ m.cstr a n = s := by
  induction s generalizing a n with
  | nil =>
    cases n with
    | zero => exact absurd hs (lt_irrefl 0)
    | succ n => by_cases h : m a = 0 <;> simp [strEq, cstr, h]
  | cons c s ih =>
    cases n with
    | zero => exact absurd hs (not_lt_zero _)
    | succ n =>
      have hih := ih (a := a + 1) (lt_of_succ_lt_succ hs)
      by_cases h : m a = 0
      · have hc : (0 : UInt8) ≠ c.val := c.property.symm
        simp [strEq, cstr, h, hc]
      · simp only [strEq, cstr, Bool.and_eq_true, beq_iff_eq, hih, dif_pos h, cons.injEq,
          Subtype.ext_iff]

theorem strEq_nonzero {x : Nat} (h : m.strEq a s = true) (hx : x < s.length) : m (a + x) ≠ 0 := by
  induction s generalizing a x with
  | nil => exact absurd hx (not_lt_zero x)
  | cons c s ih =>
    obtain ⟨hc, hrest⟩ := Bool.and_eq_true_iff.mp h
    cases x with
    | zero =>
      rw [add_zero, beq_iff_eq.mp hc]
      exact c.property
    | succ x =>
      have hnext := ih hrest (lt_of_succ_lt_succ hx)
      rwa [add_right_comm] at hnext

theorem cstr_length_le (m : Memory) (a n : Nat) : (m.cstr a n).length ≤ n := by
  induction n generalizing a with
  | zero => exact le_refl 0
  | succ n ih =>
    rw [cstr]
    split
    · exact succ_le_succ (ih (a + 1))
    · exact zero_le _

theorem cstr_length_lt (h : (m.cstr a n).length < n) : m (a + (m.cstr a n).length) = 0 := by
  induction n generalizing a with
  | zero => exact absurd h (not_lt_zero _)
  | succ n ih =>
    rw [cstr] at h ⊢
    split at h
    · next h0 =>
      rw [dif_pos h0, length_cons]
      have hnext := ih (a := a + 1) (lt_of_succ_lt_succ h)
      rwa [add_right_comm] at hnext
    · next h0 =>
      rw [dif_neg h0]
      exact not_not.mp h0

theorem strEq_terminated (h : (m.cstr a n).length < n) : m.strEq a s = true ↔ m.cstr a n = s := by
  by_cases hlen : s.length < n
  · exact strEq_iff hlen
  · refine iff_of_false (fun heq => ?_) (fun heq => hlen (heq ▸ h))
    exact strEq_nonzero heq (lt_of_lt_of_le h (not_lt.mp hlen)) (cstr_length_lt h)

theorem strEq_of_bytes (h : ∀ x (hx : x < s.length), m (a + x) = (s[x]).val) (h0 : m (a + s.length) = 0) :
    m.strEq a s = true := by
  induction s generalizing a with
  | nil => exact beq_iff_eq.mpr h0
  | cons c s ih =>
    refine Bool.and_eq_true_iff.mpr ⟨beq_iff_eq.mpr (h 0 (succ_pos _)), ih (fun x hx => ?_) ?_⟩
    · rw [add_right_comm]
      exact h (x + 1) (succ_lt_succ hx)
    · rwa [add_right_comm]

theorem cstr_congr (h : ∀ x < n, m' (a + x) = m (b + x)) : m'.cstr a n = m.cstr b n := by
  induction n generalizing a b with
  | zero => rfl
  | succ n ih =>
    have ha : m' a = m b := h 0 (succ_pos n)
    have hih := ih (a := a + 1) (b := b + 1) fun x hx => by
      rw [add_right_comm, add_right_comm b]
      exact h (x + 1) (succ_lt_succ hx)
    by_cases h0 : m b = 0
    · simp [cstr, ha, h0]
    · simp [cstr, ha, h0, hih]

theorem AgreeOn.cstr (h : AgreeOn m m' a n) : m'.cstr a n = m.cstr a n :=
  cstr_congr fun x hx => h (a + x) (Nat.le_add_right ..) (Nat.add_lt_add_left hx a)

theorem strcpy_agreeOn (m : Memory) (s : CString) (h : a + n ≤ b ∨ b + s.length < a) :
    AgreeOn m (m.strcpy b s) a n := by
  induction s generalizing m b with
  | nil => exact store8_agreeOn m 0 (h.symm.imp id id)
  | cons c s ih =>
    rw [length_cons] at h
    have hc : AgreeOn m (m.store8 b c) a n := store8_agreeOn m _ (by omega)
    exact hc.trans (ih (m.store8 b c) (by omega))

theorem cstr_strcpy (m : Memory) (hs : s.length < n) : (m.strcpy a s).cstr a n = s := by
  apply (strEq_iff hs).mp
  induction s generalizing m a n with
  | nil => simp [strcpy, strEq, store8]
  | cons c s ih =>
    have hkeep := strcpy_agreeOn (m.store8 a c) s (a := a) (n := 1) (b := a + 1) (Or.inl (le_refl _))
    have ha : (m.strcpy a (c :: s)) a = c.val :=
      (hkeep a (le_refl a) (by omega)).trans (if_pos rfl)
    rw [length_cons] at hs
    have hrest := ih (m.store8 a c) (a := a + 1) (n := n) (by omega)
    simp only [strEq, ha, beq_self_eq_true, Bool.true_and]
    exact hrest

theorem bytes_getD (m : Memory) (v : UInt8) (h : k < n) : (m.bytes a n).getD k v = m (a + k) := by
  rw [getD_eq_getElem?_getD, bytes, getElem?_map, getElem?_range h, Option.map_some, Option.getD_some]

theorem bytes_memcpy (m : Memory) {l : List UInt8} (h : n ≤ l.length) : (m.memcpy a l).bytes a n = l.take n := by
  apply ext_getElem
  · rw [bytes, length_map, length_range, length_take, min_eq_left h]
  · intro i hi _
    rw [bytes, length_map, length_range] at hi
    have hget : l.getD i (m (a + i)) = l[i] := (getElem_eq_getD _).symm
    simp only [bytes, List.getElem_map, List.getElem_range, memcpy, Nat.le_add_right, if_true, Nat.add_sub_cancel_left,
      List.getElem_take]
    exact hget

theorem memcpy_agreeOn (m : Memory) (l : List UInt8) (h : a + n ≤ b ∨ b + l.length ≤ a) :
    AgreeOn m (m.memcpy b l) a n := by
  intro x hl hu
  simp only [memcpy]
  split
  · rw [getD_eq_getElem?_getD, getElem?_eq_none (by omega), Option.getD_none]
  · rfl

theorem move_agreeOn (m : Memory) (src : Nat) (h : a + n ≤ b ∨ b + k ≤ a) :
    AgreeOn m (m.move b src k) a n := by
  intro x hl hu
  simp only [move]
  rw [if_neg (by omega)]

end Memory
end RetroOs.Lib
