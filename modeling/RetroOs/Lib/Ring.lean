import RetroOs.Lib.Chain
import Mathlib.Data.List.Induction

/-! Circular lists: the nodes met by following `next` until it comes back, the loops that go around
them, and what insertion and removal do to them. -/
namespace RetroOs.Lib
open List
variable {α β : Type}

/-- Following `next` from `a` visits exactly the nodes of the list and comes back to `a`. -/
structure Ring (next : α → α) (a : α) (l : List α) : Prop where
  ne_nil : l ≠ []
  nodup : l.Nodup
  path : Path (fun _ => False) next a l a

def ringFold (next : α → α) (stop : α → Bool) (f : β → α → β) : Nat → α → β → Option β
  | 0, _, _ => none
  | fuel + 1, p, b => if stop (next p) then some (f b p) else ringFold next stop f fuel (next p) (f b p)

def ringFind (next : α → α) (stop test : α → Bool) : Nat → α → Option (Option α)
  | 0, _ => none
  | fuel + 1, p =>
    if test p then some (some p)
    else if stop (next p) then some none
    else ringFind next stop test fuel (next p)

/-- One round of a search for the least key, `z` standing for nothing found. -/
def leastStep [DecidableEq α] (z : α) (cand : α → Bool) (key : α → Int) (best p : α) : α :=
  if cand p ∧ (best = z ∨ key p < key best) then p else best

def FirstLeast (cand : α → Bool) (key : α → Int) (l : List α) (b : α) : Prop :=
  ∃ xs ys, l = xs ++ b :: ys ∧ cand b ∧ (∀ p ∈ xs, cand p → key b < key p) ∧ ∀ p ∈ ys, cand p → key b ≤ key p

def ringSeek (next : α → α) (test : α → Bool) : Nat → α → Option α
  | 0, _ => none
  | fuel + 1, p => if test p then some p else ringSeek next test fuel (next p)

/-- The list with `x` put in after the first `a`. -/
def insertAfter [DecidableEq α] (a x : α) : List α → List α
  | [] => []
  | b :: l => if b = a then b :: x :: l else b :: insertAfter a x l

section
variable {next next' : α → α} {a b c h k x : α} {l xs ys : List α} {stop test : α → Bool} {f : β → α → β}
  {cd : α → Bool} {key : α → Int} {p : α → Prop}

theorem Path.fold (hp : Path p next h l k) (hne : l ≠ []) (hl : ∀ x ∈ l.tail, stop x = false)
    (hk : stop k = true) (n : Nat) (hn : l.length ≤ n) (b : β) :
    ringFold next stop f n h b = some (l.foldl f b) := by
  induction l generalizing h n b with
  | nil => exact absurd rfl hne
  | cons x l ih =>
    obtain ⟨rfl, -, hp⟩ := hp
    cases n with
    | zero => exact absurd hn (Nat.not_succ_le_zero _)
    | succ n =>
      rw [ringFold]
      cases l with
      | nil =>
        have hk' : stop (next h) = true := by rw [hp]; exact hk
        rw [if_pos hk']
        rfl
      | cons y l =>
        have hy : stop (next h) = false := by rw [hp.1]; exact hl y (.head _)
        rw [hy, if_neg Bool.false_ne_true]
        exact ih hp (cons_ne_nil _ _) (fun z hz => hl z (.tail _ hz)) n
          (Nat.le_of_succ_le_succ hn) _

theorem Path.find (hp : Path p next h l k) (hne : l ≠ []) (hl : ∀ x ∈ l.tail, stop x = false)
    (hk : stop k = true) (n : Nat) (hn : l.length ≤ n) :
    ringFind next stop test n h = some (l.find? test) := by
  induction l generalizing h n with
  | nil => exact absurd rfl hne
  | cons x l ih =>
    obtain ⟨rfl, -, hp⟩ := hp
    cases n with
    | zero => exact absurd hn (Nat.not_succ_le_zero _)
    | succ n =>
      rw [ringFind, find?_cons]
      cases ht : test h with
      | true => rfl
      | false =>
        rw [if_neg Bool.false_ne_true]
        cases l with
        | nil =>
          have hk' : stop (next h) = true := by rw [hp]; exact hk
          rw [if_pos hk']
          rfl
        | cons y l =>
          have hy : stop (next h) = false := by rw [hp.1]; exact hl y (.head _)
          rw [hy, if_neg Bool.false_ne_true]
          exact ih hp (cons_ne_nil _ _) (fun z hz => hl z (.tail _ hz)) n
            (Nat.le_of_succ_le_succ hn)

theorem Path.seek (hp : Path p next h l k) (hx : l.find? test = some x) (n : Nat)
    (hn : l.length ≤ n) : ringSeek next test n h = some x := by
  induction l generalizing h n with
  | nil => cases hx
  | cons y l ih =>
    obtain ⟨rfl, -, hp⟩ := hp
    cases n with
    | zero => exact absurd hn (Nat.not_succ_le_zero _)
    | succ n =>
      rw [ringSeek]
      rw [find?_cons] at hx
      cases ht : test h with
      | true =>
        rw [ht] at hx
        exact hx
      | false =>
        rw [ht] at hx
        rw [if_neg Bool.false_ne_true]
        exact ih hp hx n (Nat.le_of_succ_le_succ hn)

variable (test) in
theorem find?_last [DecidableEq α] (hc : c ∉ l) :
    ∃ x, (l ++ [c]).find? (fun p => p == c || test p) = some x ∧ (x ≠ c ↔ ∃ p ∈ l, test p = true) := by
  rw [find?_append]
  cases hf : l.find? fun p => p == c || test p with
  | none =>
    have hno := find?_eq_none.mp hf
    refine ⟨c, by simp, fun h => absurd rfl h, ?_⟩
    rintro ⟨p, hp, ht⟩
    exact absurd (show (p == c || test p) = true by rw [ht, Bool.or_true]) (hno p hp)
  | some x =>
    have hx := find?_some hf
    have hmem := mem_of_find?_eq_some hf
    have hne : x ≠ c := fun h => hc (h ▸ hmem)
    refine ⟨x, rfl, fun _ => ⟨x, hmem, ?_⟩, fun _ => hne⟩
    rw [Bool.or_eq_true, beq_iff_eq] at hx
    exact hx.resolve_left hne

theorem Path.redirect (hp : Path p next h l c) (hb : b ∈ l) (hc : c ∉ l) (hn : next b = c)
    (hset : next' b = k) (he : ∀ x ∈ l, x ≠ b → next' x = next x) (hd : l.Nodup) :
    Path p next' h l k := by
  induction l generalizing h with
  | nil => cases hb
  | cons y l ih =>
    obtain ⟨rfl, hs, hp⟩ := hp
    obtain ⟨hy, hd⟩ := nodup_cons.mp hd
    refine ⟨rfl, hs, ?_⟩
    rcases mem_cons.mp hb with rfl | hb
    · cases l with
      | nil => exact hset
      | cons z l =>
        have hz : c = z := hn.symm.trans hp.1
        exact absurd (hz ▸ .tail _ (.head _)) hc
    · have hne : h ≠ b := fun heq => hy (heq ▸ hb)
      rw [he h (mem_cons_self ..) hne]
      exact ih hp hb (fun hm => hc (.tail _ hm))
        (fun x hx => he x (.tail _ hx)) hd

theorem foldl_leastStep [DecidableEq α] {z : α} (cand : α → Bool) (key : α → Int) (hz : z ∉ l) :
    l.foldl (leastStep z cand key) z = z ∧ (∀ p ∈ l, cand p = false) ∨
      FirstLeast cand key l (l.foldl (leastStep z cand key) z) := by
  induction l using reverseRecOn with
  | nil => exact Or.inl ⟨rfl, by simp⟩
  | append_singleton l x ih =>
    have hzl : z ∉ l := fun h => hz (mem_append_left _ h)
    rw [foldl_append, foldl_cons, foldl_nil]
    rcases ih hzl with ⟨hb, hn⟩ | ⟨xs, ys, hl, hc, hxs, hys⟩
    · rw [hb, leastStep]
      cases hcx : cand x with
      | false =>
        refine Or.inl ⟨by simp, fun p hp => ?_⟩
        rcases mem_append.mp hp with hp | hp
        · exact hn p hp
        · rw [mem_singleton.mp hp, hcx]
      | true =>
        rw [if_pos ⟨rfl, Or.inl rfl⟩]
        exact Or.inr ⟨l, [], rfl, hcx, fun p hp hcp => absurd hcp (by simp [hn p hp]), by simp⟩
    · generalize l.foldl (leastStep z cand key) z = b at hl hc hxs hys ⊢
      have hb : b ≠ z := fun h => hzl (h ▸ hl ▸ mem_append_right _ (.head _))
      right
      rw [leastStep]
      split
      · rename_i hlt
        obtain ⟨hcx, hlt⟩ := hlt
        have hlt := hlt.resolve_left hb
        refine ⟨l, [], rfl, hcx, fun p hp hcp => ?_, by simp⟩
        rw [hl] at hp
        rcases mem_append.mp hp with hp | hp
        · exact Int.lt_trans hlt (hxs p hp hcp)
        · rcases mem_cons.mp hp with rfl | hp
          · exact hlt
          · exact Int.lt_of_lt_of_le hlt (hys p hp hcp)
      · rename_i hlt
        refine ⟨xs, ys ++ [x], by rw [hl]; simp, hc, hxs, fun p hp hcp => ?_⟩
        rcases mem_append.mp hp with hp | hp
        · exact hys p hp hcp
        · obtain rfl := mem_singleton.mp hp
          exact Int.not_lt.mp fun h => hlt ⟨hcp, Or.inr h⟩

theorem FirstLeast.cand (h : FirstLeast cd key l b) : b ∈ l ∧ cd b = true := by
  obtain ⟨xs, ys, rfl, hc, -, -⟩ := h
  exact ⟨mem_append_right _ (.head _), hc⟩

theorem FirstLeast.le (h : FirstLeast cd key l b) (hx : x ∈ l) (hc : cd x = true) :
    key b ≤ key x := by
  obtain ⟨xs, ys, rfl, -, hxs, hys⟩ := h
  rcases mem_append.mp hx with hx | hx
  · exact Int.le_of_lt (hxs x hx hc)
  · rcases mem_cons.mp hx with rfl | hx
    · exact Int.le_refl _
    · exact hys x hx hc

theorem FirstLeast.last (h : FirstLeast cd key (l ++ [c]) c) (hc : c ∉ l)
    (hx : x ∈ l) (hcx : cd x = true) : key c < key x := by
  obtain ⟨xs, ys, he, -, hxs, -⟩ := h
  refine hxs x ?_ hcx
  rcases append_eq_append_iff.mp he with ⟨as, rfl, -⟩ | ⟨bs, rfl, hb⟩
  · exact mem_append_left _ hx
  · cases bs with
    | nil => exact (append_nil xs) ▸ hx
    | cons b bs =>
      obtain ⟨rfl, -⟩ := cons.inj hb
      exact absurd (mem_append_right xs (.head _)) hc

variable (stop) in
theorem Ring.fold (hr : Ring next a l) (hl : ∀ x ∈ l, stop x = true ↔ x = a) {n : Nat} (hn : l.length ≤ n) (b : β) :
    ringFold next stop f n a b = some (l.foldl f b) := by
  have hd := hr.nodup
  have hp := hr.path
  cases l with
  | nil => exact absurd rfl hr.ne_nil
  | cons x l =>
    obtain rfl := hp.1
    refine hp.fold (cons_ne_nil _ _) (fun y hy => ?_) ((hl a (.head _)).mpr rfl) n hn b
    refine Bool.eq_false_iff.mpr fun hs => (nodup_cons.mp hd).1 ?_
    exact (hl y (.tail _ hy)).mp hs ▸ hy

theorem Ring.find (hr : Ring next a l) (hl : ∀ x ∈ l, stop x = true ↔ x = a) {n : Nat} (hn : l.length ≤ n) :
    ringFind next stop test n a = some (l.find? test) := by
  have hd := hr.nodup
  have hp := hr.path
  cases l with
  | nil => exact absurd rfl hr.ne_nil
  | cons x l =>
    obtain rfl := hp.1
    refine hp.find (cons_ne_nil _ _) (fun y hy => ?_) ((hl a (.head _)).mpr rfl) n hn
    refine Bool.eq_false_iff.mpr fun hs => (nodup_cons.mp hd).1 ?_
    exact (hl y (.tail _ hy)).mp hs ▸ hy

theorem Ring.rotate (hr : Ring next a (xs ++ b :: ys)) : Ring next b (b :: (ys ++ xs)) := by
  obtain ⟨m, hxs, hm, hs, hys⟩ := path_append.mp hr.path
  subst hm
  refine ⟨cons_ne_nil _ _, ?_, rfl, hs, path_append.mpr ⟨a, hys, hxs⟩⟩
  have hperm : (m :: ys ++ xs).Perm (xs ++ m :: ys) := perm_append_comm
  exact hperm.nodup_iff.mpr hr.nodup

theorem Ring.after (hr : Ring next a (xs ++ b :: ys)) : Ring next (next b) (ys ++ xs ++ [b]) := by
  have hrot := hr.rotate
  obtain ⟨-, hs, hp⟩ := hrot.path
  refine ⟨by simp, ?_, path_append.mpr ⟨b, hp, rfl, hs, rfl⟩⟩
  exact (perm_append_singleton b (ys ++ xs)).nodup_iff.mpr hrot.nodup

theorem Ring.head_mem (hr : Ring next a l) : a ∈ l := by
  cases l with
  | nil => exact absurd rfl hr.ne_nil
  | cons x l => exact hr.path.1 ▸ (.head _)

theorem Ring.pred (hr : Ring next a l) (hc : c ∈ l) : ∃ b ∈ l, next b = c := by
  obtain ⟨xs, ys, rfl⟩ := append_of_mem hc
  have hrot := hr.rotate
  rcases eq_nil_or_concat (c :: (ys ++ xs)) with h | ⟨zs, b, h⟩
  · cases h
  · rw [concat_eq_append] at h
    refine ⟨b, ?_, ?_⟩
    · have hb : b ∈ c :: (ys ++ xs) := h ▸ mem_append_right _ (mem_singleton_self b)
      simp only [mem_append, mem_cons] at hb ⊢
      tauto
    · obtain ⟨m, -, hm, -, hn⟩ := path_append.mp (h ▸ hrot.path)
      rw [← hm]
      exact hm ▸ hn

theorem Ring.next_self (hr : Ring next a l) (hc : c ∈ l) (hn : next c = c) : l = [c] := by
  obtain ⟨xs, ys, rfl⟩ := append_of_mem hc
  have haft := hr.after
  have hp := haft.path
  rw [hn] at hp
  cases hz : ys ++ xs with
  | nil =>
    obtain ⟨rfl, rfl⟩ := append_eq_nil_iff.mp hz
    rfl
  | cons z zs =>
    rw [hz] at hp
    have hd := haft.nodup
    rw [hz] at hd
    exact absurd (mem_append_right zs (mem_singleton_self c)) (hp.1 ▸ (nodup_cons.mp hd).1)

theorem insertAfter_of_not_mem [DecidableEq α] (h : b ∉ xs) : insertAfter b x (xs ++ b :: ys) = xs ++ b :: x :: ys := by
  induction xs with
  | nil => simp [insertAfter]
  | cons z xs ih =>
    have hz : z ≠ b := fun hz => h (hz ▸ (.head _))
    rw [cons_append, insertAfter, if_neg hz, ih fun hm => h (.tail _ hm)]
    rfl

theorem erase_of_not_mem [DecidableEq α] (h : b ∉ xs) : (xs ++ b :: ys).erase b = xs ++ ys := by
  rw [erase_append_right _ h, erase_cons_head]

/-- A new node linked in after `b`. -/
theorem Ring.insert (hr : Ring next a (xs ++ b :: ys)) (hx : x ∉ xs ++ b :: ys) (hb : next' b = x)
    (hn : next' x = next b) (he : ∀ y ∈ xs ++ ys, next' y = next y) :
    Ring next' a (xs ++ b :: x :: ys) := by
  obtain ⟨m, hxs, hm, hs, hys⟩ := path_append.mp hr.path
  subst hm
  refine ⟨by simp, ?_, path_append.mpr ⟨m, ?_, rfl, hs, hb, hs, ?_⟩⟩
  · have hperm : (xs ++ m :: x :: ys).Perm (x :: (xs ++ m :: ys)) := by
      rw [show xs ++ m :: x :: ys = (xs ++ [m]) ++ x :: ys by simp, show xs ++ m :: ys = (xs ++ [m]) ++ ys by simp]
      exact perm_middle
    exact hperm.nodup_iff.mpr (nodup_cons.mpr ⟨hx, hr.nodup⟩)
  · exact hxs.congr fun y hy => he y (mem_append_left _ hy)
  · rw [hn]
    exact hys.congr fun y hy => he y (mem_append_right _ hy)

theorem Ring.remove [DecidableEq α] (hr : Ring next a (xs ++ c :: ys)) (hb : b ∈ xs ++ ys) (hn : next b = c)
    (hset : next' b = next c) (he : ∀ y ∈ xs ++ ys, y ≠ b → next' y = next y) :
    Ring next' (if a = c then next c else a) (xs ++ ys) := by
  obtain ⟨m, hxs, hm, hs, hys⟩ := path_append.mp hr.path
  subst hm
  have hd : (m :: (xs ++ ys)).Nodup := perm_middle.nodup_iff.mp hr.nodup
  obtain ⟨hm, hd⟩ := nodup_cons.mp hd
  refine ⟨ne_nil_of_mem hb, hd, ?_⟩
  obtain ⟨hdx, hdy, -⟩ := nodup_append.mp hd
  cases xs with
  | nil =>
    obtain rfl : a = m := hxs
    rw [if_pos rfl]
    exact hys.redirect hb hm hn hset he hdy
  | cons x xs =>
    obtain rfl : a = x := hxs.1
    have hne : a ≠ m := fun h => hm (h ▸ mem_append_left _ (.head _))
    rw [if_neg hne]
    -- The predecessor is in the part before the node, since the part after it ends at the head.
    have hby : b ∉ ys := by
      intro hby
      obtain ⟨us, vs, rfl⟩ := append_of_mem hby
      obtain ⟨k, -, hk, -, hv⟩ := path_append.mp hys
      rw [hn] at hv
      cases vs with
      | nil => exact hne hv.symm
      | cons v vs =>
        have hv : m = v := hv.1
        exact hm (hv ▸ mem_append_right _ (mem_append_right _ (by simp)))
    have hbx : b ∈ a :: xs := (mem_append.mp hb).resolve_right hby
    refine path_append.mpr ⟨next m, hxs.redirect hbx (fun h => hm (mem_append_left _ h)) hn hset
      (fun y hy => he y (mem_append_left _ hy)) hdx, hys.congr fun y hy => ?_⟩
    exact he y (mem_append_right _ hy) fun h => hby (h ▸ hy)

end
end RetroOs.Lib
