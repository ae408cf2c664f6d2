/-
# Refinement

A system refines another one when each of its steps is, as a view of the states
shows it, some steps of the other system, or none at all.  What stands side by side
is refined one component at a time.
-/

import ScaleStore.Lib.System
import Mathlib.Logic.Function.Basic

namespace ScaleStore.System

variable {P S A : Type}

/-- Every step of `sys` is some steps of `spec`, or none. -/
structure Refines (sys : System S) (spec : System A) (view : S → A) : Prop where
  init : ∀ s, sys.Init s → spec.Init (view s)
  step : ∀ s s', sys.Reachable s → sys.Step s s' →
    Relation.ReflTransGen spec.Step (view s) (view s')

section Beside

variable [DecidableEq P]

/-- Systems side by side; one of them takes a step at a time. -/
def beside (sys : P → System S) : System (P → S) where
  Init σ := ∀ p, (sys p).Init (σ p)
  Step σ σ' := ∃ p s', (sys p).Step (σ p) s' ∧ σ' = Function.update σ p s'

variable {spec : P → System A} {σ : P → S}

/-- What one of them does is a run of them all. -/
theorem run_beside {view : S → A} (p : P) {s' : S}
    (h : Relation.ReflTransGen (spec p).Step (view (σ p)) (view s')) :
    Relation.ReflTransGen (beside spec).Step (fun q => view (σ q))
      fun q => view (Function.update σ p s' q) := by
  have hview : (fun q => view (Function.update σ p s' q)) =
      Function.update (fun q => view (σ q)) p (view s') :=
    funext fun q => Function.apply_update (fun _ => view) σ p s' q
  have hlift : Relation.ReflTransGen (beside spec).Step
      (Function.update (fun q => view (σ q)) p (view (σ p)))
      (Function.update (fun q => view (σ q)) p (view s')) :=
    h.lift (Function.update (fun q => view (σ q)) p) fun a a' hst =>
      ⟨p, a', by simpa using hst, by simp⟩
  rw [hview]
  rwa [Function.update_eq_self] at hlift

/-- A system refines systems that stand side by side when each of its steps changes one component,
and does there what the view shows as steps of the system at that place. -/
theorem Refines.beside {sys : System (P → S)} {view : S → A}
    (init : ∀ σ, sys.Init σ → ∀ p, (spec p).Init (view (σ p)))
    (step : ∀ σ σ', sys.Reachable σ → sys.Step σ σ' → ∃ p s', σ' = Function.update σ p s' ∧
      Relation.ReflTransGen (spec p).Step (view (σ p)) (view s')) :
    sys.Refines (System.beside spec) fun σ p => view (σ p) := by
  constructor
  case init => exact init
  case step =>
    intro σ σ' hσ hst
    obtain ⟨p, s', rfl, hrun⟩ := step σ σ' hσ hst
    exact run_beside p hrun

end Beside

end ScaleStore.System
