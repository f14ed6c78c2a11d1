import Mathlib.Data.List.Nodup

/-! Doubly linked lists, given by what the links of their nodes are: how they are cut, extended and shortened. -/
namespace RetroOs.Lib
open List
variable {α : Type} {next next' prev prev' : α → α} {a b n p q : α} {l xs ys : List α}

/-- The nodes are linked in this order, the first back to `p` and the last on to `n`. -/
def DLinks (next prev : α → α) (p : α) : List α → α → Prop
  | [], _ => True
  | a :: l, n => prev a = p ∧ next a = l.head?.getD n ∧ DLinks next prev a l n

namespace DLinks

theorem append : DLinks next prev p (xs ++ ys) n ↔ DLinks next prev p xs (ys.head?.getD n) ∧ DLinks next prev (xs.getLast?.getD p) ys n := by
  induction xs generalizing p with
  | nil => simp [DLinks]
  | cons x xs ih =>
    have hlast : (x :: xs).getLast?.getD p = xs.getLast?.getD x := by
      rw [getLast?_cons]
      cases xs.getLast? <;> rfl
    have hhead : (xs ++ ys).head?.getD n = xs.head?.getD (ys.head?.getD n) := by
      cases xs <;> rfl
    simp only [cons_append, DLinks, ih, hlast, hhead, and_assoc]

theorem congr (h : DLinks next prev p l n) (hnext : ∀ x ∈ l, next' x = next x) (hprev : ∀ x ∈ l, prev' x = prev x) :
    DLinks next' prev' p l n := by
  induction l generalizing p with
  | nil => trivial
  | cons x l ih =>
    have hx := List.mem_cons_self (a := x) (l := l)
    refine ⟨(hprev x hx).trans h.1, (hnext x hx).trans h.2.1, ih h.2.2 (fun y hy => ?_) fun y hy => ?_⟩
    · exact hnext y (mem_cons_of_mem x hy)
    · exact hprev y (mem_cons_of_mem x hy)

theorem after [DecidableEq α] (h : DLinks next prev p l n) (hd : l.Nodup) (hnext : ∀ x ∈ l, next' x = next x)
    (hprev : ∀ x ∈ l, prev' x = if l.head? = some x then q else prev x) : DLinks next' prev' q l n := by
  cases l with
  | nil => trivial
  | cons x l =>
    have hx := List.mem_cons_self (a := x) (l := l)
    refine ⟨(hprev x hx).trans (if_pos rfl), (hnext x hx).trans h.2.1, h.2.2.congr (fun y hy => ?_) fun y hy => ?_⟩
    · exact hnext y (mem_cons_of_mem x hy)
    · have hne : ¬ (x :: l).head? = some y := by
        rintro heq
        cases heq
        exact (nodup_cons.mp hd).1 hy
      exact (hprev y (mem_cons_of_mem x hy)).trans (if_neg hne)

section
variable [DecidableEq α]

/-- A new node after `a`. -/
theorem insert (h : DLinks next prev p (xs ++ a :: ys) n) (hd : (xs ++ a :: ys).Nodup)
    (hnext : ∀ x ∈ xs ++ a :: ys, next' x = if x = a then b else next x)
    (hprev : ∀ x ∈ xs ++ a :: ys, prev' x = if ys.head? = some x then b else prev x) (hbnext : next' b = next a) (hbprev : prev' b = a) :
    DLinks next' prev' p (xs ++ a :: b :: ys) n := by
  obtain ⟨hxs, ha, hnexta, hys⟩ := append.mp h
  obtain ⟨-, hda, hdisj⟩ := nodup_append.mp hd
  obtain ⟨hay, hdy⟩ := nodup_cons.mp hda
  have hout : ∀ x, x ∈ xs ∨ x = a → ¬ ys.head? = some x := by
    intro x hx heq
    have hxy := mem_of_mem_head? heq
    rcases hx with hx | rfl
    · exact hdisj x hx x (mem_cons_of_mem a hxy) rfl
    · exact hay hxy
  refine append.mpr ⟨hxs.congr (fun x hx => ?_) fun x hx => ?_, ?_, ?_, hbprev, hbnext.trans hnexta, ?_⟩
  · have hne : x ≠ a := fun heq => hdisj x hx a (.head _) heq
    exact (hnext x (mem_append_left _ hx)).trans (if_neg hne)
  · exact (hprev x (mem_append_left _ hx)).trans (if_neg (hout x (.inl hx)))
  · exact ((hprev a (by simp)).trans (if_neg (hout a (.inr rfl)))).trans ha
  · exact (hnext a (by simp)).trans (if_pos rfl)
  · refine hys.after hdy (fun x hx => ?_) fun x hx => ?_
    · have hne : x ≠ a := fun heq => hay (heq ▸ hx)
      exact (hnext x (by simp [hx])).trans (if_neg hne)
    · exact hprev x (by simp [hx])

/-- The node after `a` goes. -/
theorem remove (h : DLinks next prev p (xs ++ a :: b :: ys) n) (hd : (xs ++ a :: b :: ys).Nodup)
    (hnext : ∀ x ∈ xs ++ a :: ys, next' x = if x = a then next b else next x)
    (hprev : ∀ x ∈ xs ++ a :: ys, prev' x = if ys.head? = some x then a else prev x) :
    DLinks next' prev' p (xs ++ a :: ys) n := by
  obtain ⟨hxs, ha, -, -, hnextb, hys⟩ := append.mp h
  obtain ⟨-, hda, hdisj⟩ := nodup_append.mp hd
  obtain ⟨hay, hdb⟩ := nodup_cons.mp hda
  obtain ⟨-, hdy⟩ := nodup_cons.mp hdb
  have hout : ∀ x, x ∈ xs ∨ x = a → ¬ ys.head? = some x := by
    intro x hx heq
    have hxy := mem_cons_of_mem b (mem_of_mem_head? heq)
    rcases hx with hx | rfl
    · exact hdisj x hx x (mem_cons_of_mem a hxy) rfl
    · exact hay hxy
  refine append.mpr ⟨hxs.congr (fun x hx => ?_) fun x hx => ?_, ?_, ?_, ?_⟩
  · have hne : x ≠ a := fun heq => hdisj x hx a (.head _) heq
    exact (hnext x (mem_append_left _ hx)).trans (if_neg hne)
  · exact (hprev x (mem_append_left _ hx)).trans (if_neg (hout x (.inl hx)))
  · exact ((hprev a (by simp)).trans (if_neg (hout a (.inr rfl)))).trans ha
  · exact ((hnext a (by simp)).trans (if_pos rfl)).trans hnextb
  · refine hys.after hdy (fun x hx => ?_) fun x hx => ?_
    · have hne : x ≠ a := fun heq => hay (heq ▸ mem_cons_of_mem b hx)
      exact (hnext x (by simp [hx])).trans (if_neg hne)
    · exact hprev x (by simp [hx])

end

theorem next_eq (h : DLinks next prev p (xs ++ a :: ys) n) : next a = ys.head?.getD n := (append.mp h).2.2.1

theorem prev_eq (h : DLinks next prev p (xs ++ a :: ys) n) : prev a = xs.getLast?.getD p := (append.mp h).2.1

end DLinks
end RetroOs.Lib
