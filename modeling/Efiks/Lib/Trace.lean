import Mathlib.Logic.Basic

/-!
# Traces of labelled steps

A system takes steps, and each of them has an event that an observer sees. One system simulates
another if it can answer each step with one of the same event; it then has all of its traces.

## Main definitions

* `Trace step` — steps one after the other, with the list of their events.

## Main results

* `Trace.simulated` — a simulation of steps is one of traces.
-/
namespace Efiks.Lib

variable {σ τ ε : Type}

/-- Steps one after the other, with what happens in each of them. -/
inductive Trace (step : σ → ε → σ → Prop) : σ → List ε → σ → Prop
  | nil (s : σ) : Trace step s [] s
  | cons {s s' s'' : σ} {e : ε} {es : List ε} (hstep : step s e s') (hrun : Trace step s' es s'') :
    Trace step s (e :: es) s''

/-- **Simulation**: if each step is answered by one with the same event, so is each trace. -/
theorem Trace.simulated {step : σ → ε → σ → Prop} {step' : τ → ε → τ → Prop} {R : σ → τ → Prop}
    (hsim : ∀ s t e s', R s t → step s e s' → ∃ t', step' t e t' ∧ R s' t') {s s' : σ} {es : List ε}
    (hrun : Trace step s es s') {t : τ} (hR : R s t) : ∃ t', Trace step' t es t' ∧ R s' t' := by
  induction hrun generalizing t with
  | nil s => exact ⟨t, .nil t, hR⟩
  | cons hstep _ ih =>
    obtain ⟨t₁, hstep', hR₁⟩ := hsim _ t _ _ hR hstep
    obtain ⟨t₂, hrun', hR₂⟩ := ih hR₁
    exact ⟨t₂, .cons hstep' hrun', hR₂⟩

end Efiks.Lib
