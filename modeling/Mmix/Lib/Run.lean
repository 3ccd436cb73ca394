import Mathlib

/-!
# Runs of a transition system

A system takes a step for an event that is enabled in its state. A run is a
list of events; a condition on single steps selects the runs all of whose
steps meet it.
-/

namespace Mmix.Run

variable {σ ε : Type*} {step : σ → ε → Option σ} {cond : σ → ε → Prop} {I : σ → Prop}

/-- The state after a list of events, if all of them are enabled. -/
def run (step : σ → ε → Option σ) : σ → List ε → Option σ
  | s, [] => some s
  | s, e :: es => (step s e).bind fun s' => run step s' es

/-- Every step of the run from a state meets a condition. -/
def Along (step : σ → ε → Option σ) (cond : σ → ε → Prop) : σ → List ε → Prop
  | _, [] => True
  | s, e :: es => cond s e ∧ ∀ s', step s e = some s' → Along step cond s' es

instance decidableAlong [∀ s e, Decidable (cond s e)] :
    ∀ s es, Decidable (Along step cond s es)
  | _, [] => isTrue trivial
  | s, e :: es =>
    have := fun s' => decidableAlong s' es
    inferInstanceAs (Decidable (cond s e ∧ ∀ s' ∈ step s e, Along step cond s' es))

@[simp] theorem run_nil (s : σ) : run step s [] = some s := rfl

theorem run_cons {s s' : σ} {e : ε} {es : List ε} (h : run step s (e :: es) = some s') :
    ∃ s₁, step s e = some s₁ ∧ run step s₁ es = some s' :=
  Option.bind_eq_some_iff.mp h

theorem run_append {s s' s'' : σ} {es es' : List ε} (h : run step s es = some s')
    (h' : run step s' es' = some s'') : run step s (es ++ es') = some s'' := by
  induction es generalizing s with
  | nil =>
    cases h
    exact h'
  | cons e es ih =>
    obtain ⟨s₁, h₁, hrest⟩ := run_cons h
    exact Option.bind_eq_some_iff.mpr ⟨s₁, h₁, ih hrest⟩

/-- The state after a list of events, if all of them are enabled and meet the
condition. -/
def runIf (step : σ → ε → Option σ) (cond : σ → ε → Prop) [∀ s e, Decidable (cond s e)] :
    σ → List ε → Option σ
  | s, [] => some s
  | s, e :: es => if cond s e then (step s e).bind fun s' => runIf step cond s' es else none

theorem runIf_eq_some [∀ s e, Decidable (cond s e)] {s s' : σ} {es : List ε}
    (h : runIf step cond s es = some s') : Along step cond s es ∧ run step s es = some s' := by
  induction es generalizing s with
  | nil => exact ⟨trivial, h⟩
  | cons e es ih =>
    obtain ⟨hc, hrest⟩ := Option.ite_none_right_eq_some.mp h
    obtain ⟨s₁, h₁, hrun⟩ := Option.bind_eq_some_iff.mp hrest
    obtain ⟨halong, hrun'⟩ := ih hrun
    refine ⟨⟨hc, fun s₂ h₂ => ?_⟩, Option.bind_eq_some_iff.mpr ⟨s₁, h₁, hrun'⟩⟩
    obtain rfl := Option.some.inj (h₁.symm.trans h₂)
    exact halong

/-- What every conditioned step preserves holds after every conditioned run. -/
theorem invariant_along (hstep : ∀ s e s', I s → cond s e → step s e = some s' → I s')
    {s s' : σ} {es : List ε} (hs : I s) (hcond : Along step cond s es)
    (hrun : run step s es = some s') : I s' := by
  induction es generalizing s with
  | nil =>
    cases hrun
    exact hs
  | cons e es ih =>
    obtain ⟨s₁, h₁, hrest⟩ := run_cons hrun
    exact ih (hstep s e s₁ hs hcond.1 h₁) (hcond.2 s₁ h₁) hrest

/-- Two conditions that agree on the steps from the states of an invariant, which
the first one preserves, select the same runs. -/
theorem along_congr {cond' : σ → ε → Prop}
    (hstep : ∀ s e s', I s → cond s e → step s e = some s' → I s')
    (hiff : ∀ s e s', I s → step s e = some s' → (cond s e ↔ cond' s e))
    {s s' : σ} {es : List ε} (hs : I s) (hrun : run step s es = some s') :
    Along step cond s es ↔ Along step cond' s es := by
  induction es generalizing s with
  | nil => exact Iff.rfl
  | cons e es ih =>
    obtain ⟨s₁, h₁, hrest⟩ := run_cons hrun
    have hhead := hiff s e s₁ hs h₁
    constructor
    · rintro ⟨hc, hall⟩
      refine ⟨hhead.mp hc, fun s₂ h₂ => ?_⟩
      obtain rfl := Option.some.inj (h₁.symm.trans h₂)
      exact (ih (hstep s e s₁ hs hc h₁) hrest).mp (hall s₁ h₁)
    · rintro ⟨hc, hall⟩
      refine ⟨hhead.mpr hc, fun s₂ h₂ => ?_⟩
      obtain rfl := Option.some.inj (h₁.symm.trans h₂)
      exact (ih (hstep s e s₁ hs (hhead.mpr hc) h₁) hrest).mpr (hall s₁ h₁)

theorem along_true (s : σ) (es : List ε) : Along step (fun _ _ => True) s es := by
  induction es generalizing s with
  | nil => trivial
  | cons e es ih => exact ⟨trivial, fun s' _ => ih s'⟩

/-- What every step preserves holds after every run. -/
theorem invariant (hstep : ∀ s e s', I s → step s e = some s' → I s')
    {s s' : σ} {es : List ε} (hs : I s) (hrun : run step s es = some s') : I s' :=
  invariant_along (fun s e s' h _ => hstep s e s' h) hs (along_true s es) hrun

end Mmix.Run
