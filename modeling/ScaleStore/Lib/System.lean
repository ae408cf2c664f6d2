/-
# Transition systems

States reached from the initial ones by any number of steps, and the two rules
that every safety argument of the development uses: an invariant that steps keep
holds in every reachable state, and a step may assume what is known to be
invariant already.
-/

import Mathlib.Logic.Relation

namespace ScaleStore

universe u

/-- A transition system, given by its initial states and its steps. -/
structure System (State : Type u) where
  Init : State → Prop
  Step : State → State → Prop

namespace System

variable {State : Type u} {sys : System State}

/-- The states some run of the system goes through. -/
inductive Reachable (sys : System State) : State → Prop
  | init {s : State} (h : sys.Init s) : Reachable sys s
  | step {s s' : State} (hs : Reachable sys s) (h : sys.Step s s') : Reachable sys s'

/-- What holds initially and is kept by every step holds in every reachable
state; a step may assume that it starts in a reachable state. -/
theorem Reachable.invariant {P : State → Prop} (hinit : ∀ s, sys.Init s → P s)
    (hstep : ∀ s s', sys.Reachable s → P s → sys.Step s s' → P s') {s : State}
    (hs : sys.Reachable s) : P s := by
  induction hs with
  | init h => exact hinit _ h
  | step hs h ih => exact hstep _ _ hs ih h

/-- The runs all of whose steps are `good`. -/
def restrict (sys : System State) (good : State → State → Prop) : System State where
  Init := sys.Init
  Step s s' := sys.Step s s' ∧ good s s'

theorem Reachable.weaken {good better : State → State → Prop} {s : State}
    (h : (sys.restrict better).Reachable s) (hgood : ∀ s s', better s s' → good s s') :
    (sys.restrict good).Reachable s := by
  induction h with
  | init h => exact .init h
  | step _ h ih => exact ih.step ⟨h.1, hgood _ _ h.2⟩

/-- When every step of a run is good, nothing is left out. -/
theorem Reachable.restrict {good : State → State → Prop} {s : State} (h : sys.Reachable s)
    (hgood : ∀ s s', sys.Reachable s → sys.Step s s' → good s s') :
    (sys.restrict good).Reachable s := by
  induction h with
  | init h => exact .init h
  | step hs h ih => exact ih.step ⟨h, hgood _ _ hs h⟩

/-- A run with only good steps is a run. -/
theorem Reachable.of_restrict {good : State → State → Prop} {s : State}
    (h : (sys.restrict good).Reachable s) : sys.Reachable s := by
  induction h with
  | init h => exact .init h
  | step _ h ih => exact ih.step h.1

/-! ## Computed runs -/

section Acts

variable {α : Type} {act : α → State → Option State} {s s' : State} {as : List α}

/-- Where a list of acts leads to, if all of them can be done. -/
def runActs (act : α → State → Option State) (s : State) : List α → Option State
  | [] => some s
  | a :: as => (act a s).bind fun s' => runActs act s' as

theorem Reachable.acts (hact : ∀ a s s', act a s = some s' → sys.Step s s')
    (hs : sys.Reachable s) (h : runActs act s as = some s') : sys.Reachable s' := by
  induction as generalizing s with
  | nil =>
    obtain rfl := Option.some.inj h
    exact hs
  | cons a as ih =>
    obtain ⟨s₁, h₁, hrest⟩ := Option.bind_eq_some_iff.mp h
    exact ih (hs.step (hact a s s₁ h₁)) hrest

/-- A computed run shows that a state is reached. -/
theorem reachable_of_acts (hact : ∀ a s s', act a s = some s' → sys.Step s s') {p : State → Bool}
    (hs : sys.Init s) (h : (runActs act s as).any p = true) :
    ∃ s', sys.Reachable s' ∧ p s' = true := by
  rcases hrun : runActs act s as with _ | s'
  · simp [hrun] at h
  · exact ⟨s', .acts hact (.init hs) hrun, by simpa [hrun] using h⟩

/-- The same for runs that are to be good. -/
theorem reachable_of_good_acts (hact : ∀ a s s', act a s = some s' → sys.Step s s')
    {good : State → State → Prop} [∀ s s', Decidable (good s s')] {p : State → Bool}
    (hs : sys.Init s)
    (h : (runActs (fun a s => (act a s).filter fun s' => decide (good s s')) s as).any p = true) :
    ∃ s', (sys.restrict good).Reachable s' ∧ p s' = true := by
  refine reachable_of_acts (fun a s s' ha => ?_) hs h
  obtain ⟨hstep, hgood⟩ := Option.filter_eq_some_iff.mp ha
  exact ⟨hact a s s' hstep, of_decide_eq_true hgood⟩

end Acts

end System

end ScaleStore
