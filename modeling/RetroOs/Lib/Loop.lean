import Mathlib.Data.Nat.Basic

/-! Counting loops and loops that break: their invariant rules, and searches. -/
namespace RetroOs.Lib
open List
variable {σ : Type}

section
variable {α : Type}

/-- What a turn of a loop comes to: the loop goes on, or breaks with a result. -/
inductive Turn (σ α : Type) where
  | again (s : σ)
  | done (a : α)

def Turn.Meets (R : σ → Prop) (Q : α → Prop) : Turn σ α → Prop
  | .again s => R s
  | .done a => Q a

/-- `while (true)`, for at most `n` turns. -/
def loop (turn : σ → Option (Turn σ α)) : Nat → σ → Option α
  | 0, _ => none
  | n + 1, s =>
    match turn s with
    | some (.again t) => loop turn n t
    | some (.done a) => some a
    | none => none

theorem loop_spec {turn : σ → Option (Turn σ α)} (Inv : σ → Prop) {Q : α → Prop} (μ : σ → Nat)
    (hturn : ∀ s, Inv s → ∃ r ∈ turn s, r.Meets (fun t => Inv t ∧ μ t < μ s) Q) {n : Nat} {s : σ}
    (h : Inv s) (hn : μ s < n) : ∃ a ∈ loop turn n s, Q a := by
  induction n generalizing s with
  | zero => exact absurd hn (Nat.not_lt_zero _)
  | succ n ih =>
    obtain ⟨r, hr, hs⟩ := hturn s h
    rw [loop, Option.mem_def.mp hr]
    cases r with
    | again t =>
      obtain ⟨hi, hlt⟩ := hs
      exact ih hi (by omega)
    | done a => exact ⟨a, rfl, hs⟩

/-- The loop breaks with the result, after however many turns. -/
inductive Loops (turn : σ → Option (Turn σ α)) : σ → α → Prop where
  | again {s t : σ} {a : α} (hs : turn s = some (.again t)) (hr : Loops turn t a) : Loops turn s a
  | done {s : σ} {a : α} (hs : turn s = some (.done a)) : Loops turn s a

theorem Loops.unique {turn : σ → Option (Turn σ α)} {s : σ} {a b : α} (h : Loops turn s a) (h' : Loops turn s b) : a = b := by
  induction h with
  | again hs _ ih =>
    cases h' with
    | again hs' hr' =>
      cases hs.symm.trans hs'
      exact ih hr'
    | done hs' => cases hs.symm.trans hs'
  | done hs =>
    cases h' with
    | again hs' _ => cases hs.symm.trans hs'
    | done hs' =>
      cases hs.symm.trans hs'
      rfl

theorem Loops.of_loop {turn : σ → Option (Turn σ α)} {n : Nat} {s : σ} {a : α} (h : loop turn n s = some a) : Loops turn s a := by
  induction n generalizing s with
  | zero => cases h
  | succ n ih =>
    rw [loop] at h
    split at h
    · next hs => exact .again hs (ih h)
    · next hs =>
      cases h
      exact .done hs
    · cases h

def Turn.map (f : σ → σ) (g : α → α) : Turn σ α → Turn σ α
  | .again s => .again (f s)
  | .done a => .done (g a)

theorem Loops.map {turn : σ → Option (Turn σ α)} {f : σ → σ} {g : α → α} (hturn : ∀ s r, turn s = some r → turn (f s) = some (r.map f g))
    {s : σ} {a : α} (h : Loops turn s a) : Loops turn (f s) (g a) := by
  induction h with
  | again hs _ ih => exact .again (hturn _ _ hs) ih
  | done hs => exact .done (hturn _ _ hs)

/-- Both go on, or both break. -/
def Turn.Related (R : σ → σ → Prop) (Q : α → α → Prop) : Turn σ α → Turn σ α → Prop
  | .again s, .again t => R s t
  | .done a, .done b => Q a b
  | _, _ => False

theorem Loops.related {turn : σ → Option (Turn σ α)} {R : σ → σ → Prop} {Q : α → α → Prop}
    (hturn : ∀ s t, R s t → ∃ r ∈ turn s, ∃ r' ∈ turn t, r.Related R Q r') {s t : σ} {a b : α}
    (h : Loops turn s a) (h' : Loops turn t b) (hst : R s t) : Q a b := by
  induction h generalizing t with
  | @again s u a hs _ ih =>
    obtain ⟨r, hr, r', hr', hrel⟩ := hturn s t hst
    cases hs.symm.trans hr
    cases h' with
    | again hs' hr2 =>
      cases hs'.symm.trans hr'
      exact ih hr2 hrel
    | done hs' =>
      cases hs'.symm.trans hr'
      exact hrel.elim
  | @done s a hs =>
    obtain ⟨r, hr, r', hr', hrel⟩ := hturn s t hst
    cases hs.symm.trans hr
    cases h' with
    | again hs' _ =>
      cases hs'.symm.trans hr'
      exact hrel.elim
    | done hs' =>
      cases hs'.symm.trans hr'
      exact hrel

end

def forUpto (body : Nat → σ → σ) : Nat → σ → σ
  | 0, s => s
  | n + 1, s => body n (forUpto body n s)

theorem forUpto_invariant {body : Nat → σ → σ} {n : Nat} {s : σ} (I : Nat → σ → Prop)
    (h0 : I 0 s) (hstep : ∀ i < n, ∀ t, I i t → I (i + 1) (body i t)) :
    I n (forUpto body n s) := by
  induction n with
  | zero => exact h0
  | succ n ih => exact hstep n (Nat.lt_succ_self n) _ (ih fun i hi => hstep i (Nat.lt_succ_of_lt hi))

theorem findSome?_range {α : Type} {g : Nat → Option α} {n : Nat} {x : α}
    (h : (range n).findSome? g = some x) : ∃ i < n, g i = some x ∧ ∀ j < i, g j = none := by
  induction n with
  | zero => cases h
  | succ n ih =>
    rw [range_succ, findSome?_append] at h
    cases hp : (range n).findSome? g with
    | some y =>
      rw [hp, Option.some_or] at h
      obtain ⟨i, hi, hx, hj⟩ := ih (hp.trans h)
      exact ⟨i, by omega, hx, hj⟩
    | none =>
      rw [hp, Option.none_or, findSome?_singleton] at h
      exact ⟨n, by omega, h, fun j hj => findSome?_eq_none_iff.mp hp j (mem_range.mpr hj)⟩

section
variable {α β γ : Type} {f g : α → Option β} {l : List α}

theorem findSome?_congr (h : ∀ x ∈ l, f x = g x) : l.findSome? f = l.findSome? g := by
  induction l with
  | nil => rfl
  | cons x l ih =>
    rw [findSome?_cons, findSome?_cons, h x (mem_cons_self ..),
      ih fun y hy => h y (.tail _ hy)]

theorem findSome?_flatMap (f : β → Option γ) (g : α → List β) (l : List α) :
    (l.flatMap g).findSome? f = l.findSome? fun x => (g x).findSome? f := by
  induction l with
  | nil => rfl
  | cons x l ih =>
    rw [flatMap_cons, findSome?_append, findSome?_cons, ih]
    cases (g x).findSome? f <;> rfl

end
end RetroOs.Lib
