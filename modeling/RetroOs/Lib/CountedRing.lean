import Mathlib.Data.List.Range
import Mathlib.Data.Nat.ModEq

/-! A ring buffer that counts what it holds, so that every one of its `n` slots can be in use. -/
namespace RetroOs.Lib
open List Nat

structure CountedRing (α : Type) where
  buffer : ℕ → α
  head : ℕ
  tail : ℕ
  count : ℕ

namespace CountedRing
variable {α : Type} {n : ℕ} {r : CountedRing α}

def push (n : ℕ) (r : CountedRing α) (a : α) : CountedRing α :=
  ⟨Function.update r.buffer r.head a, (r.head + 1) % n, r.tail, r.count + 1⟩

def pop (n : ℕ) (r : CountedRing α) : CountedRing α := { r with tail := (r.tail + 1) % n, count := r.count - 1 }

/-- Put elements in while there is room, and count them. -/
def write (n : ℕ) (r : CountedRing α) : List α → ℕ × CountedRing α
  | [] => (0, r)
  | a :: as =>
    if r.count < n then
      let x := (r.push n a).write n as
      (x.1 + 1, x.2)
    else (0, r)

/-- Take at most some elements out. -/
def drain (n : ℕ) (r : CountedRing α) : ℕ → List α × CountedRing α
  | 0 => ([], r)
  | len + 1 =>
    if r.count = 0 then ([], r)
    else
      let x := (r.pop n).drain n len
      (r.buffer r.tail :: x.1, x.2)

/-- What is buffered, the oldest first. -/
def contents (n : ℕ) (r : CountedRing α) : List α := (range r.count).map fun i => r.buffer ((r.tail + i) % n)

/-- The head is where the next element goes. -/
structure Valid (n : ℕ) (r : CountedRing α) : Prop where
  head : r.head = (r.tail + r.count) % n
  tail : r.tail < n
  count : r.count ≤ n

theorem length_contents (n : ℕ) (r : CountedRing α) : (r.contents n).length = r.count := by
  rw [contents, length_map, length_range]

theorem Valid.push (h : r.Valid n) (hroom : r.count < n) (a : α) : (r.push n a).Valid n := by
  refine ⟨?_, h.tail, hroom⟩
  rw [CountedRing.push, h.head, mod_add_mod, add_assoc]

theorem Valid.pop (h : r.Valid n) (hsome : r.count ≠ 0) : (r.pop n).Valid n := by
  refine ⟨?_, Nat.mod_lt _ (Nat.zero_lt_of_lt h.tail), (Nat.sub_le _ _).trans h.count⟩
  simp only [CountedRing.pop]
  rw [h.head, Nat.mod_add_mod, Nat.add_assoc, Nat.add_sub_cancel' (Nat.pos_of_ne_zero hsome)]

theorem contents_push (h : r.Valid n) (hroom : r.count < n) (a : α) : (r.push n a).contents n = r.contents n ++ [a] := by
  simp only [contents, push]
  rw [range_succ, map_append, map_singleton, ← h.head, Function.update_self]
  congr 1
  refine map_congr_left fun i hi => Function.update_of_ne ?_ _ _
  -- within one round no slot comes twice
  have hlt := mem_range.mp hi
  rw [h.head]
  intro heq
  have hsame := (Nat.ModEq.add_left_cancel' r.tail heq).eq_of_lt_of_lt (hlt.trans hroom) hroom
  omega

theorem contents_pop (h : r.Valid n) (hsome : r.count ≠ 0) : r.contents n = r.buffer r.tail :: (r.pop n).contents n := by
  obtain ⟨k, hk⟩ := exists_eq_add_one_of_ne_zero hsome
  simp only [contents, pop]
  rw [hk, range_succ_eq_map, map_cons, map_map, add_zero, mod_eq_of_lt h.tail]
  congr 1
  refine map_congr_left fun i _ => congrArg r.buffer ?_
  rw [mod_add_mod, add_right_comm]
  rfl

/-- A write takes as many elements as there is room for. -/
theorem write_spec (as : List α) (h : r.Valid n) : (r.write n as).2.Valid n ∧
    (r.write n as).1 = min as.length (n - (r.contents n).length) ∧
    (r.write n as).2.contents n = r.contents n ++ as.take (r.write n as).1 := by
  induction as generalizing r with
  | nil => exact ⟨h, (Nat.zero_min _).symm, (append_nil _).symm⟩
  | cons a as ih =>
    rw [write]
    split
    · next hroom =>
      obtain ⟨hv, hn, hc⟩ := ih (h.push hroom a)
      rw [contents_push h hroom] at hn hc
      refine ⟨hv, ?_, ?_⟩
      · rw [length_append, length_singleton, length_contents] at hn
        rw [length_cons, length_contents]
        exact (congrArg (· + 1) hn).trans (by omega)
      · rw [take_succ_cons, append_cons]
        exact hc
    · next hfull =>
      refine ⟨h, ?_, (append_nil _).symm⟩
      rw [length_contents]
      omega

/-- What is taken out is the oldest. -/
theorem drain_spec (len : ℕ) (h : r.Valid n) : (r.drain n len).2.Valid n ∧
    (r.drain n len).1 = (r.contents n).take len ∧ (r.drain n len).2.contents n = (r.contents n).drop len := by
  induction len generalizing r with
  | zero => exact ⟨h, rfl, rfl⟩
  | succ len ih =>
    rw [drain]
    split
    · next hnone =>
      have hempty : r.contents n = [] := eq_nil_of_length_eq_zero ((length_contents n r).trans hnone)
      rw [hempty]
      exact ⟨h, rfl, rfl⟩
    · next hsome =>
      obtain ⟨hv, ht, hd⟩ := ih (h.pop hsome)
      rw [contents_pop h hsome]
      exact ⟨hv, congrArg _ ht, hd⟩

end CountedRing
end RetroOs.Lib
