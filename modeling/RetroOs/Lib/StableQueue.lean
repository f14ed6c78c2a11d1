import Mathlib.Data.List.Induction
import Mathlib.Data.List.Nodup
import Mathlib.Order.Basic

/-! Stable priority queues, by what was put in and taken out: of what waits, an item of the highest priority is taken,
and of these the one that came first. Items are told apart by their place in the order in which they came. -/
namespace RetroOs.Lib.StableQueue
open List
variable {ι κ : Type}

inductive Event (ι : Type) where
  | accepted (x : ι)
  | given (k : ℕ) (x : ι)

def accepted (log : List (Event ι)) : List ι := log.filterMap fun
  | .accepted x => some x
  | .given _ _ => none

def given (log : List (Event ι)) : List ℕ := log.filterMap fun
  | .accepted _ => none
  | .given k _ => some k

/-- The `k`-th item that came is `x`, and has not been taken out. -/
def Waits (log : List (Event ι)) (k : ℕ) (x : ι) : Prop := (accepted log)[k]? = some x ∧ k ∉ given log

variable [Preorder κ]

/-- The item `k` with `x` goes before the item `j` with `y`. -/
def Before (prio : ι → κ) (p q : ℕ × ι) : Prop := prio q.2 < prio p.2 ∨ prio q.2 = prio p.2 ∧ p.1 < q.1

/-- Whatever was taken out waited, and went before all else that waited. -/
def Stable (prio : ι → κ) (log : List (Event ι)) : Prop :=
  ∀ earlier k x later, log = earlier ++ .given k x :: later →
    Waits earlier k x ∧ ∀ j y, Waits earlier j y → j ≠ k → Before prio (k, x) (j, y)

/-- A queue in order holds what waits, after a history in which the right items were taken. -/
structure Holds (prio : ι → κ) (log : List (Event ι)) (l : List (ℕ × ι)) : Prop where
  sorted : l.Pairwise (Before prio)
  mem : ∀ k x, (k, x) ∈ l ↔ Waits log k x
  stable : Stable prio log

variable {prio : ι → κ} {log : List (Event ι)} {l xs ys : List (ℕ × ι)} {k : ℕ} {x : ι}

theorem accepted_append (x : ι) : accepted (log ++ [.accepted x]) = accepted log ++ [x] := by
  simp [accepted]

theorem accepted_given (k : ℕ) (x : ι) : accepted (log ++ [.given k x]) = accepted log := by
  simp [accepted]

theorem given_accepted (x : ι) : given (log ++ [.accepted x]) = given log := by
  simp [given]

theorem given_append (k : ℕ) (x : ι) : given (log ++ [.given k x]) = given log ++ [k] := by
  simp [given]

theorem Stable.snoc {e : Event ι} (h : Stable prio log)
    (he : ∀ k x, e = .given k x → Waits log k x ∧ ∀ j y, Waits log j y → j ≠ k → Before prio (k, x) (j, y)) :
    Stable prio (log ++ [e]) := by
  intro earlier k x later hlog
  rcases eq_nil_or_concat' later with rfl | ⟨later, last, rfl⟩
  · obtain ⟨rfl, hlast⟩ := append_inj' hlog rfl
    exact he k x (cons.inj hlast).1
  · rw [← cons_append, ← append_assoc] at hlog
    exact h earlier k x later (append_inj' hlog rfl).1

theorem Stable.given_nodup (h : Stable prio log) : (given log).Nodup ∧ ∀ k ∈ given log, k < (accepted log).length := by
  induction log using reverseRecOn with
  | nil => exact ⟨.nil, by simp [given]⟩
  | append_singleton log e ih =>
    obtain ⟨hnodup, hlt⟩ := ih fun earlier k x later hlog => h earlier k x (later ++ [e]) (by rw [hlog]; simp)
    cases e with
    | accepted x =>
      rw [given_accepted, accepted_append, length_append]
      exact ⟨hnodup, fun k hk => Nat.lt_add_right _ (hlt k hk)⟩
    | given k x =>
      obtain ⟨⟨hget, hnew⟩, -⟩ := h log k x [] rfl
      rw [given_append, accepted_given]
      refine ⟨nodup_append.mpr ⟨hnodup, nodup_singleton k, ?_⟩, ?_⟩
      · rintro a ha b hb rfl
        obtain rfl := mem_singleton.mp hb
        exact hnew ha
      · intro j hj
        rcases mem_append.mp hj with hj | hj
        · exact hlt j hj
        · obtain rfl := mem_singleton.mp hj
          exact (List.getElem?_eq_some_iff.mp hget).1

theorem waits_accepted (h : Stable prio log) {j : ℕ} {y : ι} :
    Waits (log ++ [.accepted x]) j y ↔ Waits log j y ∨ j = (accepted log).length ∧ y = x := by
  rw [Waits, Waits, accepted_append, given_accepted, List.getElem?_append]
  constructor
  · rintro ⟨hget, hnew⟩
    split_ifs at hget with hlt
    · exact .inl ⟨hget, hnew⟩
    · obtain ⟨hj, hx⟩ := List.getElem?_eq_some_iff.mp hget
      rw [length_singleton] at hj
      refine .inr ⟨by omega, ?_⟩
      rw [← hx, getElem_singleton]
  · rintro (⟨hget, hnew⟩ | ⟨rfl, rfl⟩)
    · rw [if_pos (List.getElem?_eq_some_iff.mp hget).1]
      exact ⟨hget, hnew⟩
    · rw [if_neg (Nat.lt_irrefl _), Nat.sub_self]
      exact ⟨rfl, fun hm => Nat.lt_irrefl _ (h.given_nodup.2 _ hm)⟩

theorem waits_given {j : ℕ} {y : ι} : Waits (log ++ [.given k x]) j y ↔ Waits log j y ∧ j ≠ k := by
  rw [Waits, Waits, accepted_given, given_append, mem_append, mem_singleton, not_or, and_assoc]

namespace Holds

theorem empty (prio : ι → κ) : Holds prio [] [] where
  sorted := .nil
  mem k x := by simp [Waits, accepted]
  stable earlier k x later h := by simp at h

theorem lt_length (h : Holds prio log l) (hm : (k, x) ∈ l) : k < (accepted log).length :=
  (List.getElem?_eq_some_iff.mp ((h.mem k x).mp hm).1).1

theorem accept (h : Holds prio log (xs ++ ys)) (hxs : ∀ p ∈ xs, prio x < prio p.2 ∨ prio x = prio p.2)
    (hys : ∀ p ∈ ys.head?, prio p.2 < prio x) :
    Holds prio (log ++ [.accepted x]) (xs ++ ((accepted log).length, x) :: ys) := by
  obtain ⟨hx, hy, hxy⟩ := pairwise_append.mp h.sorted
  have hys : ∀ p ∈ ys, prio p.2 < prio x := by
    cases ys with
    | nil => simp
    | cons q ys =>
      have hq := hys q rfl
      intro p hp
      rcases mem_cons.mp hp with rfl | hp
      · exact hq
      · rcases (pairwise_cons.mp hy).1 p hp with hlt | ⟨heq, -⟩
        · exact hlt.trans hq
        · rwa [heq]
  refine ⟨?_, fun j y => ?_, h.stable.snoc fun k x hx => nomatch hx⟩
  · refine pairwise_append.mpr ⟨hx, pairwise_cons.mpr ⟨fun p hp => .inl (hys p hp), hy⟩, fun p hp q hq => ?_⟩
    rcases mem_cons.mp hq with rfl | hq
    · exact (hxs p hp).imp id fun heq => ⟨heq, h.lt_length (mem_append_left _ hp)⟩
    · exact hxy p hp q hq
  · rw [waits_accepted h.stable, ← h.mem]
    simp only [mem_append, mem_cons, Prod.mk.injEq]
    tauto

theorem give (h : Holds prio log ((k, x) :: l)) : Holds prio (log ++ [.given k x]) l := by
  obtain ⟨hfirst, hrest⟩ := pairwise_cons.mp h.sorted
  have hwaits := (h.mem k x).mp (.head _)
  have hsame : ∀ {j y}, Waits log j y → j = k → y = x := by
    rintro j y hw rfl
    exact Option.some.inj (hw.1.symm.trans hwaits.1)
  refine ⟨hrest, fun j y => ?_, h.stable.snoc ?_⟩
  · rw [waits_given, ← h.mem, mem_cons]
    constructor
    · intro hm
      refine ⟨.inr hm, ?_⟩
      rintro rfl
      obtain rfl := hsame ((h.mem j y).mp (.tail _ hm)) rfl
      rcases hfirst _ hm with hlt | ⟨-, hlt⟩
      · exact lt_irrefl _ hlt
      · exact Nat.lt_irrefl _ hlt
    · rintro ⟨hm | hm, hne⟩
      · exact absurd (Prod.mk.inj hm).1 hne
      · exact hm
  · rintro k' x' hx'
    obtain ⟨rfl, rfl⟩ := Event.given.inj hx'
    refine ⟨hwaits, fun j y hw hne => ?_⟩
    rcases mem_cons.mp ((h.mem j y).mpr hw) with hm | hm
    · exact absurd (Prod.mk.inj hm).1 hne
    · exact hfirst _ hm

end Holds
end RetroOs.Lib.StableQueue
