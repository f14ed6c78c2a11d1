import Mathlib.Order.Basic

/-! Scanners: a machine goes on from step to step until it hands out an item. -/
namespace RetroOs.Lib
variable {σ ι : Type}

inductive Scan (σ ι : Type) where
  | again (s : σ)
  | emit (i : ι) (s : σ)
  | stuck

/-- The scanner goes on to a state with `R`, or hands out an item with `Q`; it is not stuck. -/
def Scan.Meets (R : σ → Prop) (Q : ι → σ → Prop) : Scan σ ι → Prop
  | .again s => R s
  | .emit i s => Q i s
  | .stuck => False

theorem Scan.Meets.imp {R R' : σ → Prop} {Q Q' : ι → σ → Prop} {r : Scan σ ι} (h : r.Meets R Q)
    (hR : ∀ s, R s → R' s) (hQ : ∀ i s, Q i s → Q' i s) : r.Meets R' Q' := by
  cases r with
  | again s => exact hR s h
  | emit i s => exact hQ i s h
  | stuck => exact h

/-- The next item, in at most `n` steps. -/
def scan (step : σ → Scan σ ι) : Nat → σ → Option (ι × σ)
  | 0, _ => none
  | n + 1, s =>
    match step s with
    | .again s => scan step n s
    | .emit i s => some (i, s)
    | .stuck => none

theorem scan_spec {step : σ → Scan σ ι} (Inv : σ → Prop) {Q : ι → σ → Prop} (μ : σ → Nat)
    (hstep : ∀ s, Inv s → (step s).Meets (fun t => Inv t ∧ μ t < μ s) Q) {n : Nat} {s : σ}
    (h : Inv s) (hn : μ s < n) : ∃ i t, scan step n s = some (i, t) ∧ Q i t := by
  induction n generalizing s with
  | zero => exact absurd hn (Nat.not_lt_zero _)
  | succ n ih =>
    have hs := hstep s h
    cases hr : step s with
    | again t =>
      rw [hr] at hs
      obtain ⟨hi, hlt⟩ := hs
      obtain ⟨i, u, hu, hq⟩ := ih hi (by omega)
      exact ⟨i, u, by rw [scan, hr]; exact hu, hq⟩
    | emit i t =>
      rw [hr] at hs
      exact ⟨i, t, by rw [scan, hr], hs⟩
    | stuck =>
      rw [hr] at hs
      exact hs.elim

end RetroOs.Lib
