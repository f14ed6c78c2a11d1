import Mathlib.Algebra.Group.Fin.Basic
import Mathlib.Algebra.GroupWithZero.Nat
import Mathlib.Data.List.Basic

/-! A ring buffer whose head and tail are equal when it is empty, so that one slot stays free. -/
namespace RetroOs.Lib
open List Nat

structure RingBuffer (n : ℕ) (α : Type) where
  slots : Fin n → α
  head : Fin n
  tail : Fin n

namespace RingBuffer
variable {n : ℕ} [NeZero n] {α : Type} {r : RingBuffer n α}

/-- What is buffered, the oldest first. -/
def contents (r : RingBuffer n α) : List α :=
  (range (r.tail - r.head).val).map fun i => r.slots (r.head + Fin.ofNat n i)

def pop (r : RingBuffer n α) : RingBuffer n α := { r with head := r.head + 1 }

def push (r : RingBuffer n α) (a : α) : RingBuffer n α :=
  { r with slots := Function.update r.slots r.tail a, tail := r.tail + 1 }

/-- Take at most some elements out, and stop where there are no more. -/
def take : ℕ → RingBuffer n α → List α × RingBuffer n α
  | 0, r => ([], r)
  | size + 1, r =>
    if r.head = r.tail then ([], r)
    else
      let x := take size r.pop
      (r.slots r.head :: x.1, x.2)

/-- Put elements in while there is room, and count them. -/
def put : List α → RingBuffer n α → ℕ × RingBuffer n α
  | [], r => (0, r)
  | a :: as, r =>
    if r.tail + 1 = r.head then (0, r)
    else
      let x := put as (r.push a)
      (x.1 + 1, x.2)

theorem length_contents (r : RingBuffer n α) : r.contents.length = (r.tail - r.head).val := by
  rw [contents, length_map, length_range]

theorem length_contents_lt (r : RingBuffer n α) : r.contents.length < n := by
  rw [length_contents]
  exact (r.tail - r.head).isLt

theorem contents_empty (h : r.head = r.tail) : r.contents = [] := by
  apply eq_nil_of_length_eq_zero
  rw [length_contents, h, sub_self]
  rfl

theorem val_sub_one_add_one {i : Fin n} (h : i ≠ 0) : (i - 1).val + 1 = i.val := by
  obtain ⟨m, rfl⟩ := exists_eq_succ_of_ne_zero (NeZero.ne n)
  have := Fin.val_ne_zero_iff.mpr h
  rw [Fin.coe_sub_one, if_neg h]
  omega

theorem ofNat_succ (i : ℕ) : Fin.ofNat n (i + 1) = 1 + Fin.ofNat n i := by
  apply Fin.ext
  rw [Fin.val_add, Fin.val_ofNat, Fin.val_ofNat, Fin.val_one', ← add_mod, add_comm]

theorem contents_pop (h : r.head ≠ r.tail) : r.contents = r.slots r.head :: r.pop.contents := by
  have hlen : (r.tail - (r.head + 1)).val + 1 = (r.tail - r.head).val := by
    rw [← sub_sub]
    exact val_sub_one_add_one (sub_ne_zero.mpr h.symm)
  rw [contents, ← hlen, range_succ_eq_map, map_cons, map_map]
  congr 1
  · exact congrArg r.slots (add_zero r.head)
  · refine map_congr_left fun i _ => ?_
    exact congrArg r.slots (by rw [ofNat_succ, ← add_assoc]; rfl)

theorem contents_push (a : α) (h : r.tail + 1 ≠ r.head) : (r.push a).contents = r.contents ++ [a] := by
  have hlen : (r.tail + 1 - r.head).val = (r.tail - r.head).val + 1 := by
    rw [← val_sub_one_add_one (sub_ne_zero.mpr h), sub_right_comm, add_sub_cancel_right]
  have htail : r.head + Fin.ofNat n (r.tail - r.head).val = r.tail := by
    rw [Fin.ofNat_val_eq_self, add_sub_cancel]
  rw [contents, push]
  dsimp only
  rw [hlen, range_succ, map_append, map_singleton, htail, Function.update_self]
  congr 1
  refine map_congr_left fun i hi => Function.update_of_ne (fun heq => ?_) _ _
  -- only the index of the new tail is that of the slot
  have hval := congrArg Fin.val (eq_sub_of_add_eq' heq)
  have hlt := mem_range.mp hi
  rw [Fin.val_ofNat, mod_eq_of_lt (hlt.trans (r.tail - r.head).isLt)] at hval
  omega

theorem contents_take (size : ℕ) (r : RingBuffer n α) : (r.take size).1 ++ (r.take size).2.contents = r.contents := by
  induction size generalizing r with
  | zero => rfl
  | succ size ih =>
    rw [take]
    split_ifs with h
    · rfl
    · rw [contents_pop h, ← ih r.pop]
      rfl

theorem contents_put (as : List α) (r : RingBuffer n α) :
    (r.put as).2.contents = r.contents ++ as.take (r.put as).1 := by
  induction as generalizing r with
  | nil => exact (append_nil _).symm
  | cons a as ih =>
    rw [put]
    split_ifs with h
    · exact (append_nil _).symm
    · dsimp only
      rw [ih, contents_push a h, append_assoc, take_succ_cons]
      rfl

theorem put_le_length (as : List α) (r : RingBuffer n α) : (r.put as).1 ≤ as.length := by
  induction as generalizing r with
  | nil => exact le_rfl
  | cons a as ih =>
    rw [put]
    split_ifs with h
    · exact zero_le _
    · exact succ_le_succ (ih (r.push a))

theorem full_iff : r.tail + 1 = r.head ↔ n ≤ r.contents.length + 1 := by
  rw [length_contents]
  constructor
  · intro h
    have hzero : (r.tail - r.head + 1).val = 0 := by rw [sub_add_eq_add_sub, h, sub_self, Fin.val_zero]
    have hlt := (r.tail - r.head).isLt
    rw [Fin.val_add, Fin.val_one', add_mod_mod] at hzero
    exact le_of_dvd (succ_pos _) (dvd_of_mod_eq_zero hzero)
  · intro h
    by_contra hne
    have hnext : (r.tail + 1 - r.head).val = (r.tail - r.head).val + 1 := by
      rw [← val_sub_one_add_one (sub_ne_zero.mpr hne), sub_right_comm, add_sub_cancel_right]
    omega

theorem take_eq (size : ℕ) (r : RingBuffer n α) :
    (r.take size).1 = r.contents.take size ∧ (r.take size).2.contents = r.contents.drop size := by
  induction size generalizing r with
  | zero => exact ⟨rfl, rfl⟩
  | succ size ih =>
    rw [take]
    split_ifs with h
    · rw [contents_empty h]
      exact ⟨rfl, rfl⟩
    · rw [contents_pop h]
      exact ⟨congrArg _ (ih r.pop).1, (ih r.pop).2⟩

theorem put_eq_min (as : List α) (r : RingBuffer n α) : (r.put as).1 = min as.length (n - 1 - r.contents.length) := by
  induction as generalizing r with
  | nil => exact (Nat.zero_min _).symm
  | cons a as ih =>
    rw [put, length_cons]
    split_ifs with h
    · have hfull := full_iff.mp h
      omega
    · have hlen : (r.push a).contents.length = r.contents.length + 1 := by
        rw [contents_push a h, length_append, length_singleton]
      have hroom := mt full_iff.mpr h
      dsimp only
      rw [ih, hlen]
      omega

theorem length_put (as : List α) (r : RingBuffer n α) : (r.put as).2.contents.length = r.contents.length + (r.put as).1 := by
  rw [contents_put, length_append, length_take_of_le (put_le_length as r)]

/-- What was put in and what was taken out so far: each writer's elements with how many were put in, in order. -/
structure Transfers (α : Type) where
  puts : List (List α × ℕ)
  takes : List (List α)

namespace Transfers
variable {t : Transfers α}

def accepted (t : Transfers α) : List α := (t.puts.map fun x => x.1.take x.2).flatten

def returned (t : Transfers α) : List α := t.takes.flatten

/-- No writer is told of more than it had, and nothing is lost, doubled or moved. -/
structure Fifo (t : Transfers α) (r : RingBuffer n α) : Prop where
  counts : ∀ x ∈ t.puts, x.2 ≤ x.1.length
  order : t.returned ++ r.contents = t.accepted

def addPut (t : Transfers α) (as : List α) (count : ℕ) : Transfers α := { t with puts := t.puts ++ [(as, count)] }

def addTake (t : Transfers α) (as : List α) : Transfers α := { t with takes := t.takes ++ [as] }

theorem Fifo.take (h : t.Fifo r) (size : ℕ) : (t.addTake (r.take size).1).Fifo (r.take size).2 := by
  refine ⟨h.counts, ?_⟩
  rw [returned, addTake, flatten_append, flatten_singleton, append_assoc, contents_take]
  exact h.order

theorem Fifo.added (h : t.Fifo r) {r' : RingBuffer n α} {as : List α} {count : ℕ} (hcount : count ≤ as.length)
    (hr : r'.contents = r.contents ++ as.take count) : (t.addPut as count).Fifo r' := by
  constructor
  · intro x hx
    obtain hx | hx := mem_append.mp hx
    · exact h.counts x hx
    · obtain rfl := mem_singleton.mp hx
      exact hcount
  · rw [hr, ← append_assoc, accepted, addPut, map_append, flatten_append, map_singleton,
      flatten_singleton]
    exact congrArg (· ++ as.take count) h.order

theorem Fifo.put (h : t.Fifo r) (as : List α) : (t.addPut as (r.put as).1).Fifo (r.put as).2 :=
  h.added (put_le_length as r) (contents_put as r)

theorem Fifo.take_none (h : t.Fifo r) : (t.addTake []).Fifo r := h.take 0

theorem Fifo.put_none (h : t.Fifo r) (as : List α) : (t.addPut as 0).Fifo r :=
  h.added (zero_le _) (append_nil _).symm

theorem Fifo.idle (hidle : ∀ x ∈ t.puts, x.2 = 0) (htakes : t.returned = []) (hr : r.contents = []) : t.Fifo r := by
  refine ⟨fun x hx => (hidle x hx).le.trans (zero_le _), ?_⟩
  rw [htakes, hr, accepted, eq_comm, nil_append, flatten_eq_nil_iff]
  intro l hl
  obtain ⟨x, hx, rfl⟩ := mem_map.mp hl
  rw [hidle x hx, take_zero]

end Transfers
end RingBuffer
end RetroOs.Lib
