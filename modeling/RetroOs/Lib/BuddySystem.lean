import RetroOs.Lib.Dyadic

/-! The buddy system on a list of free blocks: taking a block by splitting a larger one,
giving it back by merging with its buddies, and what both keep. -/
namespace RetroOs.Lib
open Block List

def addrsAt (l : List Block) (k : Nat) : List Nat := (l.filter (·.order = k)).map Block.addr

/-- Put aside the upper halves met on the way from order `k + n` down to order `k`. -/
def splitFree (a k : Nat) : Nat → List Block → List Block
  | 0, l => l
  | n + 1, l => splitFree a k n (⟨a + 2 ^ (k + n), k + n⟩ :: l)

def coalesceFree : Nat → Block → List Block → Block × List Block
  | 0, b, l => (b, l)
  | n + 1, b, l => if b.buddy ∈ l then coalesceFree n b.parent (l.erase b.buddy) else (b, l)

def giveBlock (top : Nat) (b : Block) (l : List Block) : List Block :=
  (coalesceFree (top - b.order) b l).1 :: (coalesceFree (top - b.order) b l).2

section
variable {l : List Block} {b c : Block} {a i k n x top : Nat}

theorem mem_addrsAt : a ∈ addrsAt l k ↔ ⟨a, k⟩ ∈ l := by
  simp only [addrsAt, mem_map, mem_filter, decide_eq_true_eq]
  constructor
  · rintro ⟨⟨_, _⟩, ⟨hb, rfl⟩, rfl⟩
    exact hb
  · intro h
    exact ⟨_, ⟨h, rfl⟩, rfl⟩

theorem addrsAt_cons :
    addrsAt (b :: l) k = if b.order = k then b.addr :: addrsAt l k else addrsAt l k := by
  by_cases h : b.order = k <;> simp [addrsAt, h]

theorem addrsAt_erase :
    addrsAt (l.erase b) k = if b.order = k then (addrsAt l k).erase b.addr else addrsAt l k := by
  induction l with
  | nil => simp [addrsAt]
  | cons c l ih =>
    by_cases hcb : c = b
    · subst hcb
      simp only [erase_cons_head, addrsAt_cons]
      split <;> simp
    · rw [erase_cons_tail (by simpa using hcb), addrsAt_cons, addrsAt_cons, ih]
      by_cases hb : b.order = k <;> by_cases hc : c.order = k <;> simp only [hb, hc, if_true, if_false]
      rw [erase_cons_tail]
      obtain ⟨a, o⟩ := b
      obtain ⟨a', o'⟩ := c
      simp_all

theorem addrsAt_length_le : (addrsAt l k).length ≤ l.length := by
  simpa [addrsAt] using length_filter_le (fun b : Block => decide (b.order = k)) l

theorem mem_splitFree : b ∈ splitFree a k n l ↔ b ∈ l ∨ ∃ i < n, b = ⟨a + 2 ^ (k + i), k + i⟩ := by
  induction n generalizing l with
  | zero => simp [splitFree]
  | succ n ih =>
    rw [splitFree, ih, mem_cons]
    constructor
    · rintro ((rfl | h) | ⟨i, hi, rfl⟩)
      · exact .inr ⟨n, by omega, rfl⟩
      · exact .inl h
      · exact .inr ⟨i, by omega, rfl⟩
    · rintro (h | ⟨i, hi, rfl⟩)
      · exact .inl (.inr h)
      · rcases Nat.lt_succ_iff_lt_or_eq.mp hi with hi | rfl
        · exact .inr ⟨i, hi, rfl⟩
        · exact .inl (.inl rfl)

theorem coverCount_splitFree :
    coverCount (⟨a, k⟩ :: splitFree a k n l) x = coverCount (⟨a, k + n⟩ :: l) x := by
  induction n generalizing l with
  | zero => rfl
  | succ n ih => rw [splitFree, ih, coverCount_split, Nat.add_assoc]

theorem NoBuddies.splitFree (hn : NoBuddies top l) (he : ∀ b ∈ l, k ≤ b.order → k + n ≤ b.order) :
    NoBuddies top (splitFree a k n (l.erase ⟨a, k + n⟩)) := by
  intro b hb hbt hbud
  have old : ∀ {c : Block}, c ∈ l.erase ⟨a, k + n⟩ → c ∈ l := mem_of_mem_erase
  rcases mem_splitFree.mp hb with hb | ⟨i, hi, rfl⟩ <;>
    rcases mem_splitFree.mp hbud with hc | ⟨j, hj, hc⟩
  · exact hn b (old hb) hbt (old hc)
  · have ho : b.order = k + j := congrArg Block.order hc
    have := he b (old hb) (by omega)
    omega
  · have := he _ (old hc) (by simp)
    simp only [buddy_order] at this
    omega
  · have hij : k + i = k + j := congrArg Block.order hc
    obtain rfl : i = j := by omega
    exact buddy_ne _ hc

theorem le_coalesceFree_order : b.order ≤ (coalesceFree n b l).1.order := by
  induction n generalizing b l with
  | zero => simp [coalesceFree]
  | succ n ih =>
    rw [coalesceFree]
    split
    · have := ih (b := b.parent) (l := l.erase b.buddy)
      simp only [parent_order] at this
      omega
    · exact le_rfl

theorem coalesceFree_subset : (coalesceFree n b l).2 ⊆ l := by
  induction n generalizing b l with
  | zero => exact fun _ h => h
  | succ n ih =>
    rw [coalesceFree]
    split
    · exact fun c hc => mem_of_mem_erase (ih hc)
    · exact fun _ h => h

theorem coverCount_coalesceFree (h : b.Aligned) :
    coverCount ((coalesceFree n b l).1 :: (coalesceFree n b l).2) x = coverCount (b :: l) x := by
  induction n generalizing b l with
  | zero => rfl
  | succ n ih =>
    rw [coalesceFree]
    split
    · next hm =>
      rw [ih h.parent, ← coverCount_merge h, coverCount_cons, coverCount_erase hm, coverCount_cons]
    · rfl

theorem coalesceFree_stuck (ho : (coalesceFree n b l).1.order < b.order + n) :
    (coalesceFree n b l).1.buddy ∉ (coalesceFree n b l).2 := by
  induction n generalizing b l with
  | zero => simp [coalesceFree] at ho
  | succ n ih =>
    by_cases hm : b.buddy ∈ l
    · rw [coalesceFree, if_pos hm] at ho ⊢
      exact ih (by rw [parent_order]; omega)
    · rw [coalesceFree, if_neg hm]
      exact hm

theorem coverCount_giveBlock (h : b.Aligned) :
    coverCount (giveBlock top b l) x = coverCount (b :: l) x := coverCount_coalesceFree h

theorem NoBuddies.giveBlock (hn : NoBuddies top l) : NoBuddies top (giveBlock top b l) := by
  have stuck : (coalesceFree (top - b.order) b l).1.order < top →
      (coalesceFree (top - b.order) b l).1.buddy ∉ (coalesceFree (top - b.order) b l).2 := by
    intro ho
    refine coalesceFree_stuck ?_
    omega
  intro c hc hct hbud
  rcases mem_cons.mp hc with rfl | hc <;> rcases mem_cons.mp hbud with he | hbud
  · exact buddy_ne _ he
  · exact stuck hct hbud
  · refine stuck (by rw [← he]; exact hct) ?_
    rw [← he, buddy_buddy]
    exact hc
  · exact hn c (coalesceFree_subset hc) hct (coalesceFree_subset hbud)

end
end RetroOs.Lib
