import Mathlib.Data.Set.Finite.Basic
import Mathlib.Order.WellFounded

/-! Loops that go round by round: a round goes on with a state, stops with a result, or waits for ever.
Over finitely many states such a loop returns unless it waits or comes back to a state it was in. -/
namespace RetroOs.Lib
open Relation List
variable {σ ρ : Type}

inductive Round (σ ρ : Type) where
  | goes (s : σ)
  | stops (r : ρ)
  | waits
  deriving DecidableEq

/-- From a state the loop returns, with a result. -/
inductive Returns (round : σ → Round σ ρ) : σ → ρ → Prop where
  | stop {s : σ} {r : ρ} (h : round s = .stops r) : Returns round s r
  | go {s t : σ} {r : ρ} (h : round s = .goes t) (ht : Returns round t r) : Returns round s r

namespace Round
variable {α β : Type} {f : α → σ → Round σ ρ} {s : σ} {P : σ → Prop} {l : List α}

def each (f : α → σ → Round σ ρ) : List α → σ → Round σ ρ
  | [], s => .goes s
  | a :: l, s =>
    match f a s with
    | .goes s => each f l s
    | .stops r => .stops r
    | .waits => .waits

def andThen (r : Round σ ρ) (k : σ → Round σ ρ) : Round σ ρ :=
  match r with
  | .goes s => k s
  | .stops r => .stops r
  | .waits => .waits

theorem each_cons (a : α) (l : List α) (s : σ) : each f (a :: l) s = (f a s).andThen (each f l) := rfl

theorem each_append (l l' : List α) (s : σ) : each f (l ++ l') s = (each f l s).andThen (each f l') := by
  induction l generalizing s with
  | nil => rfl
  | cons a l ih =>
    rw [cons_append, each_cons, each_cons]
    cases f a s with
    | goes t => exact ih t
    | stops r => rfl
    | waits => rfl

theorem each_flatMap (g : β → List α) (l : List β) (s : σ) :
    each f (l.flatMap g) s = each (fun b s => each f (g b) s) l s := by
  induction l generalizing s with
  | nil => rfl
  | cons b l ih =>
    rw [flatMap_cons, each_append, each_cons]
    cases each f (g b) s with
    | goes t => exact ih t
    | stops r => rfl
    | waits => rfl

theorem each_map (g : β → α) (l : List β) (s : σ) : each f (l.map g) s = each (fun b s => f (g b) s) l s := by
  induction l generalizing s with
  | nil => rfl
  | cons b l ih =>
    rw [map_cons, each_cons, each_cons]
    cases f (g b) s with
    | goes t => exact ih t
    | stops r => rfl
    | waits => rfl

theorem each_congr {g : α → σ → Round σ ρ} (h : ∀ a ∈ l, ∀ s, g a s = f a s) (s : σ) :
    each g l s = each f l s := by
  induction l generalizing s with
  | nil => rfl
  | cons a l ih =>
    rw [each_cons, each_cons, h a mem_cons_self]
    cases f a s with
    | goes t => exact ih (fun b hb => h b (.tail _ hb)) t
    | stops r => rfl
    | waits => rfl

theorem each_goes {I : σ → Prop} {t : σ} (hI : ∀ a ∈ l, ∀ s t, I s → f a s = .goes t → I t) (hs : I s)
    (h : each f l s = .goes t) : I t := by
  induction l generalizing s with
  | nil =>
    cases h
    exact hs
  | cons a l ih =>
    rw [each_cons] at h
    cases hf : f a s with
    | goes u =>
      rw [hf] at h
      exact ih (fun b hb => hI b (.tail _ hb)) (hI a (.head _) s u hs hf) h
    | stops r =>
      rw [hf] at h
      cases h
    | waits =>
      rw [hf] at h
      cases h

def ofOption : Option ρ → Round Unit ρ
  | some r => .stops r
  | none => .goes ()

theorem each_ofOption (g : α → Option ρ) (l : List α) :
    each (fun a (_ : Unit) => ofOption (g a)) l () = ofOption (l.findSome? g) := by
  induction l with
  | nil => rfl
  | cons a l ih =>
    rw [each_cons, findSome?_cons]
    cases g a with
    | some r => rfl
    | none => exact ih

theorem each_stops {r : ρ} (h : each f l s = .stops r) : ∃ a ∈ l, ∃ t, f a t = .stops r := by
  induction l generalizing s with
  | nil => cases h
  | cons a l ih =>
    rw [each_cons] at h
    cases hf : f a s with
    | goes u =>
      rw [hf] at h
      obtain ⟨b, hb, hfb⟩ := ih h
      exact ⟨b, .tail _ hb, hfb⟩
    | stops r' =>
      rw [hf] at h
      cases h
      exact ⟨a, .head _, s, hf⟩
    | waits =>
      rw [hf] at h
      cases h

theorem each_goes_mem {t : σ} (h : each f l s = .goes t) {a : α} (ha : a ∈ l) : ∃ u v, f a u = .goes v := by
  induction l generalizing s with
  | nil => cases ha
  | cons b l ih =>
    rw [each_cons] at h
    cases hf : f b s with
    | goes u =>
      rw [hf] at h
      rcases mem_cons.mp ha with rfl | ha
      · exact ⟨s, u, hf⟩
      · exact ih h ha
    | stops r =>
      rw [hf] at h
      cases h
    | waits =>
      rw [hf] at h
      cases h

def ended : Round σ ρ → Option (Option ρ)
  | .goes _ => some none
  | .stops r => some (some r)
  | .waits => none

end Round

variable {round : σ → Round σ ρ} {s t u : σ} {r r' : ρ}

theorem Returns.stops_iff (h : round s = .stops r) : Returns round s r' ↔ r' = r := by
  constructor
  · intro hr
    cases hr with
    | stop h' =>
      rw [h] at h'
      cases h'
      rfl
    | go h' _ =>
      rw [h] at h'
      cases h'
  · rintro rfl
    exact .stop h

theorem Returns.goes_iff (h : round s = .goes t) : Returns round s r ↔ Returns round t r := by
  constructor
  · intro hr
    cases hr with
    | stop h' =>
      rw [h] at h'
      cases h'
    | go h' ht =>
      rw [h] at h'
      cases h'
      exact ht
  · exact .go h

theorem Returns.not_waits (h : round s = .waits) : ¬ Returns round s r := by
  intro hr
  cases hr with
  | stop h' =>
    rw [h] at h'
    cases h'
  | go h' _ =>
    rw [h] at h'
    cases h'

theorem Returns.unique (h : Returns round s r) (h' : Returns round s r') : r = r' := by
  induction h with
  | stop hs => exact ((Returns.stops_iff hs).mp h').symm
  | go hg _ ih => exact ih ((Returns.goes_iff hg).mp h')

def Leads (round : σ → Round σ ρ) (s t : σ) : Prop := round s = .goes t

/-- In every state that the loop comes to. -/
def Throughout (round : σ → Round σ ρ) (P : σ → Prop) (s : σ) : Prop := ∀ t, ReflTransGen (Leads round) s t → P t

/-- The loop comes to no state that waits, and to none a second time. -/
def Straight (round : σ → Round σ ρ) (s : σ) : Prop :=
  ∀ t, ReflTransGen (Leads round) s t → round t ≠ .waits ∧ ¬ TransGen (Leads round) t t

theorem Leads.cases_head (h : Leads round s t) (hu : ReflTransGen (Leads round) s u) :
    u = s ∨ ReflTransGen (Leads round) t u := by
  rcases hu.cases_head with rfl | ⟨t', ht', hu⟩
  · exact .inl rfl
  · have he : Round.goes t = .goes t' := h.symm.trans ht'
    cases he
    exact .inr hu

theorem Throughout.head (h : Throughout round P s) : P s := h s .refl

theorem Throughout.goes_iff (h : round s = .goes t) : Throughout round P s ↔ P s ∧ Throughout round P t := by
  constructor
  · intro hs
    exact ⟨hs.head, fun u hu => hs u (.head h hu)⟩
  · rintro ⟨hs, ht⟩ u hu
    rcases Leads.cases_head h hu with rfl | hu
    · exact hs
    · exact ht u hu

theorem Throughout.stops_iff (h : round s = .stops r) : Throughout round P s ↔ P s := by
  refine ⟨fun hs => hs.head, fun hs u hu => ?_⟩
  rcases hu.cases_head with rfl | ⟨t, ht, -⟩
  · exact hs
  · have he : Round.stops r = .goes t := h.symm.trans ht
    cases he

theorem Returns.straight (h : Returns round s r) : Straight round s := by
  induction h with
  | stop hs =>
    have hno : ∀ t, ¬ Leads round _ t := fun t ht => by
      rw [Leads, hs] at ht
      cases ht
    intro t ht
    rcases ht.cases_head with rfl | ⟨u, hu, -⟩
    · refine ⟨fun hw => ?_, fun hc => ?_⟩
      · rw [hs] at hw
        cases hw
      · obtain ⟨u, hu, -⟩ := TransGen.head'_iff.mp hc
        exact hno u hu
    · exact absurd hu (hno u)
  | @go s t r hg _ ih =>
    intro u hu
    rcases Leads.cases_head hg hu with rfl | hu
    · refine ⟨fun hw => ?_, fun hc => ?_⟩
      · rw [hg] at hw
        cases hw
      · -- The way back to the state goes through the next one, which is then on a cycle too.
        obtain ⟨v, hv, hvs⟩ := TransGen.head'_iff.mp hc
        have he : Round.goes t = .goes v := hg.symm.trans hv
        cases he
        exact (ih u hvs).2 hc
    · exact ih u hu

theorem returns_iff_straight {S : Set σ} (hfin : S.Finite) (hS : ∀ s ∈ S, ∀ t, Leads round s t → t ∈ S) (hs : s ∈ S) :
    (∃ r, Returns round s r) ↔ Straight round s := by
  refine ⟨fun ⟨r, h⟩ => h.straight, fun h => ?_⟩
  have : Finite {t // t ∈ S ∧ ReflTransGen (Leads round) s t} :=
    (hfin.subset fun t ht => ht.1).to_subtype
  let before : {t // t ∈ S ∧ ReflTransGen (Leads round) s t} → {t // t ∈ S ∧ ReflTransGen (Leads round) s t} → Prop :=
    fun a b => TransGen (Leads round) b.1 a.1
  have : IsTrans _ before := ⟨fun _ _ _ hab hbc => hbc.trans hab⟩
  have : Std.Irrefl before := ⟨fun a ha => (h a.1 a.2.2).2 ha⟩
  have hwf : WellFounded before := Finite.wellFounded_of_trans_of_irrefl before
  have key : ∀ t : {t // t ∈ S ∧ ReflTransGen (Leads round) s t}, ∃ r, Returns round t.1 r := by
    intro t
    induction t using hwf.induction with
    | _ t ih =>
      cases hr : round t.1 with
      | stops r => exact ⟨r, .stop hr⟩
      | waits => exact absurd hr (h t.1 t.2.2).1
      | goes u =>
        have hu : Leads round t.1 u := hr
        obtain ⟨r, hret⟩ := ih ⟨u, hS t.1 t.2.1 u hu, t.2.2.tail hu⟩ (.single hu)
        exact ⟨r, .go hr hret⟩
  exact key ⟨s, hs, .refl⟩

end RetroOs.Lib
