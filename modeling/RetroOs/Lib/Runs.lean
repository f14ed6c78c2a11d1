import Mathlib.Data.List.Induction
import Mathlib.Logic.Relation

/-! Runs of a machine and the rules for them: invariants of a deterministic machine whose every step
meets a condition, and simulation of one labelled machine by another. -/
namespace RetroOs.Lib
variable {σ τ ι : Type} {Inv : σ → Prop} {P Q : σ → ι → Prop} {es : List ι} {exec : σ → ι → σ} {s t : σ}
  {C cond : σ → ι → Prop} {step : σ → ι → σ → Prop}

/-- A run whose every step meets the condition on the state it starts from. -/
def Runs (exec : σ → ι → σ) (cond : σ → ι → Prop) : σ → σ → Prop :=
  Relation.ReflTransGen fun s t => ∃ op, cond s op ∧ t = exec s op

theorem Runs.invariant
    (hr : Runs exec cond s t) (h : Inv s) (hstep : ∀ s op, Inv s → cond s op → Inv (exec s op)) : Inv t := by
  induction hr with
  | refl => exact h
  | tail _ hs ih =>
    obtain ⟨op, hc, rfl⟩ := hs
    exact hstep _ op ih hc

/-- A run of a labelled machine, with its labels in order. -/
inductive Trace (step : σ → ι → σ → Prop) (s : σ) : List ι → σ → Prop where
  | nil : Trace step s [] s
  | snoc {l : List ι} {e : ι} {t u : σ} (hr : Trace step s l t) (hs : step t e u) :
      Trace step s (l ++ [e]) u

theorem Trace.mono {step' : σ → ι → σ → Prop} (hr : Trace step s es t)
    (h : ∀ s e t, step s e t → step' s e t) : Trace step' s es t := by
  induction hr with
  | nil => exact .nil
  | snoc _ hs ih => exact ih.snoc (h _ _ _ hs)

theorem Trace.simulates {step' : τ → ι → τ → Prop} {R : σ → τ → Prop} {a : τ} (hr : Trace step s es t) (h : R s a)
    (hstep : ∀ s a e t, R s a → step s e t → ∃ b, step' a e b ∧ R t b) :
    ∃ b, Trace step' a es b ∧ R t b := by
  induction hr with
  | nil => exact ⟨a, .nil, h⟩
  | snoc _ hs ih =>
    obtain ⟨b, hb, hR⟩ := ih
    obtain ⟨c, hc, hR'⟩ := hstep _ _ _ _ hR hs
    exact ⟨c, hb.snoc hc, hR'⟩

theorem trace_of_foldlM {exec : σ → ι → Option σ} (h : es.foldlM exec s = some t) :
    Trace (fun s e t => exec s e = some t) s es t := by
  induction es using List.reverseRecOn generalizing t with
  | nil =>
    cases h
    exact .nil
  | append_singleton es e ih =>
    rw [List.foldlM_append] at h
    obtain ⟨u, hu, he⟩ := Option.bind_eq_some_iff.mp h
    obtain ⟨v, hv, ht⟩ := Option.bind_eq_some_iff.mp he
    cases ht
    exact (ih hu).snoc hv

theorem trace_of_checked {exec : σ → ι → Option σ} [∀ s e, Decidable (cond s e)]
    (h : es.foldlM (fun s e => if cond s e then exec s e else none) s = some t) :
    Trace (fun s e t => cond s e ∧ exec s e = some t) s es t := by
  apply (trace_of_foldlM h).mono
  intro s e t he
  split at he
  · next hc => exact ⟨hc, he⟩
  · cases he

/-- A condition on each step of a run of a deterministic machine, and on the state it starts from. -/
def Along (exec : σ → ι → σ) (P : σ → ι → Prop) : σ → List ι → Prop
  | _, [] => True
  | s, e :: es => P s e ∧ Along exec P (exec s e) es

instance Along.decidable {exec : σ → ι → σ} {P : σ → ι → Prop} [h : ∀ s e, Decidable (P s e)] :
    ∀ s es, Decidable (Along exec P s es)
  | _, [] => instDecidableTrue
  | s, e :: es => @instDecidableAnd _ _ (h s e) (Along.decidable (exec s e) es)

theorem Along.congr (h : ∀ s e, P s e ↔ Q s e) :
    Along exec P s es ↔ Along exec Q s es := by
  induction es generalizing s with
  | nil => rfl
  | cons e es ih => exact and_congr (h s e) ih

theorem Along.of_invariant
    (hkeep : ∀ s e, Inv s → C s e → Inv (exec s e)) (hstep : ∀ s e, Inv s → C s e → P s e) (h : Inv s)
    (hc : Along exec C s es) : Along exec P s es := by
  induction es generalizing s with
  | nil => trivial
  | cons e es ih => exact ⟨hstep s e h hc.1, ih (hkeep s e h hc.1) hc.2⟩

theorem Along.iff (hiff : ∀ s e, Inv s → (P s e ↔ Q s e))
    (hkeep : ∀ s e, Inv s → P s e → Inv (exec s e)) (h : Inv s) :
    Along exec P s es ↔ Along exec Q s es := by
  induction es generalizing s with
  | nil => rfl
  | cons e es ih =>
    constructor
    · rintro ⟨he, hes⟩
      exact ⟨(hiff s e h).mp he, (ih (hkeep s e h he)).mp hes⟩
    · rintro ⟨he, hes⟩
      have hp := (hiff s e h).mpr he
      exact ⟨hp, (ih (hkeep s e h hp)).mpr hes⟩

theorem Along.iff_under
    (hiff : ∀ s e, Inv s → C s e → (P s e ↔ Q s e)) (hkeep : ∀ s e, Inv s → C s e → Q s e → Inv (exec s e))
    (h : Inv s) (hc : Along exec C s es) : Along exec P s es ↔ Along exec Q s es := by
  induction es generalizing s with
  | nil => rfl
  | cons e es ih =>
    obtain ⟨he, hes⟩ := hc
    constructor
    · rintro ⟨hp, hps⟩
      have hq := (hiff s e h he).mp hp
      exact ⟨hq, (ih (hkeep s e h he hq) hes).mp hps⟩
    · rintro ⟨hq, hqs⟩
      exact ⟨(hiff s e h he).mpr hq, (ih (hkeep s e h he hq) hes).mpr hqs⟩

theorem Along.keeps_iff (hstep : ∀ s e, Inv s → (Inv (exec s e) ↔ Q s e)) (h : Inv s) :
    Along exec (fun s e => Inv (exec s e)) s es ↔ Along exec Q s es :=
  Along.iff hstep (fun _ _ _ h => h) h

theorem Along.relates {R : σ → σ → Prop} (hrefl : ∀ s, R s s)
    (htrans : ∀ {s t u}, R s t → R t u → R s u) (hstep : ∀ s e, P s e → R s (exec s e))
    (h : Along exec P s es) : R s (es.foldl exec s) := by
  induction es generalizing s with
  | nil => exact hrefl s
  | cons e es ih => exact htrans (hstep s e h.1) (ih h.2)

end RetroOs.Lib
