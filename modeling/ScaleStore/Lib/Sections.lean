/-
# Versions and exclusive sections

A version that moves on whenever somebody enters or leaves an exclusive section,
and by at least two.  Whoever finds the version unchanged knows that nobody has
entered or left a section in the meantime, in whatever order the steps came.
-/

import ScaleStore.Lib.System

namespace ScaleStore

variable {S T : Type} {sys : System S} {version : S → Nat} {inside : S → T → Prop} {s s' : S}

theorem System.Reachable.run (hs : sys.Reachable s) (h : Relation.ReflTransGen sys.Step s s') :
    sys.Reachable s' := by
  induction h with
  | refl => exact hs
  | tail _ hstep ih => exact ih.step hstep

/-- Steps that enter or leave a section move the version on. -/
structure Versioned (sys : System S) (version : S → Nat) (inside : S → T → Prop) : Prop where
  grows : ∀ {s s'}, sys.Reachable s → sys.Step s s' →
    version s' = version s ∨ version s + 2 ≤ version s'
  stays : ∀ {s s'}, sys.Reachable s → sys.Step s s' → version s' = version s →
    ∀ t, inside s' t ↔ inside s t

namespace Versioned

variable (hv : Versioned sys version inside)

include hv

/-- Versions never come back. -/
theorem run_grows (hs : sys.Reachable s) (h : Relation.ReflTransGen sys.Step s s') :
    version s' = version s ∨ version s + 2 ≤ version s' := by
  induction h with
  | refl => exact .inl rfl
  | tail hrun hstep ih =>
    have hone := hv.grows (hs.run hrun) hstep
    omega

theorem run_stays (hs : sys.Reachable s) (h : Relation.ReflTransGen sys.Step s s')
    (heq : version s' = version s) (t : T) : inside s' t ↔ inside s t := by
  induction h with
  | refl => exact Iff.rfl
  | tail hrun hstep ih =>
    have hbefore := hv.run_grows hs hrun
    have hone := hv.grows (hs.run hrun) hstep
    exact (hv.stays (hs.run hrun) hstep (by omega) t).trans (ih (by omega))

variable {s₁ x s₂ : S}

/-- Between two states with one version everybody stays inside or outside. -/
theorem between (hs : sys.Reachable s₁) (hbefore : Relation.ReflTransGen sys.Step s₁ x)
    (hafter : Relation.ReflTransGen sys.Step x s₂) (heq : version s₂ = version s₁) (t : T) :
    inside x t ↔ inside s₁ t := by
  have hx := hv.run_grows hs hbefore
  have hx' := hv.run_grows (hs.run hbefore) hafter
  exact hv.run_stays hs hbefore (by omega) t

/-- When a section has been entered since and nothing else, nobody else has been inside. -/
theorem between_entered (hs : sys.Reachable s₁) (hbefore : Relation.ReflTransGen sys.Step s₁ x)
    (hafter : Relation.ReflTransGen sys.Step x s₂) (heq : version s₂ = version s₁ + 2) {t : T}
    (hout : ¬ inside s₁ t) (hin : inside x t) : inside s₂ t := by
  have hx := hv.run_grows hs hbefore
  have hx' := hv.run_grows (hs.run hbefore) hafter
  by_cases hsame : version x = version s₁
  · exact absurd ((hv.run_stays hs hbefore hsame t).mp hin) hout
  · exact (hv.run_stays (hs.run hbefore) hafter (by omega) t).mpr hin

end Versioned

end ScaleStore
