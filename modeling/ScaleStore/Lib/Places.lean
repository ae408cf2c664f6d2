/-
# Things that are in one place

Places hold bags of things.  A thing that is in exactly one place, once, stays
so when a bag of things is transferred from one place to another, when places
change their names and when other things come or go.
-/

import Mathlib.Data.Multiset.Count
import Mathlib.Data.Multiset.AddSub
import Mathlib.Logic.Equiv.Defs
import Mathlib.Tactic.Common

namespace ScaleStore

universe u v

variable {κ : Type u} {α : Type v} [DecidableEq α] {c c' : κ → Multiset α} {x : α}

/-- `x` is in exactly one place, and there only once. -/
def InOnePlace (c : κ → Multiset α) (x : α) : Prop :=
  ∃ k, (c k).count x = 1 ∧ ∀ k', k' ≠ k → x ∉ c k'

/-- The bag `m` goes from place `a` to place `b`. -/
structure Transfer (c c' : κ → Multiset α) (a b : κ) (m : Multiset α) : Prop where
  source : c a = m + c' a
  target : c' b = m + c b
  other : ∀ k, k ≠ a → k ≠ b → c' k = c k

omit [DecidableEq α] in
/-- A transfer written as two updates. -/
theorem Transfer.of_update [DecidableEq κ] {a b : κ} {m ma mb : Multiset α} (hab : a ≠ b)
    (hsource : c a = m + ma) (htarget : mb = m + c b) :
    Transfer c (Function.update (Function.update c a ma) b mb) a b m := by
  constructor
  · rw [Function.update_of_ne hab, Function.update_self]
    exact hsource
  · rw [Function.update_self]
    exact htarget
  · intro k hka hkb
    rw [Function.update_of_ne hkb, Function.update_of_ne hka]

namespace InOnePlace

/-- A thing that is only in `k`, by where it is afterwards. -/
theorem of_count {k : κ} (h : (c k).count x = 1) (hother : ∀ k', k' ≠ k → (c k').count x = 0) :
    InOnePlace c x :=
  ⟨k, h, fun k' hk' => Multiset.count_eq_zero.mp (hother k' hk')⟩

theorem transfer {a b : κ} {m : Multiset α} (h : InOnePlace c x) (ht : Transfer c c' a b m)
    (hab : a ≠ b) : InOnePlace c' x := by
  obtain ⟨k, hk, hother⟩ := h
  have hnone : ∀ k', k' ≠ k → (c k').count x = 0 :=
    fun k' hk' => Multiset.count_eq_zero.mpr (hother k' hk')
  have hsource := congrArg (Multiset.count x) ht.source
  have htarget := congrArg (Multiset.count x) ht.target
  rw [Multiset.count_add] at hsource htarget
  -- where the thing is now depends on whether it is in the bag that moves
  by_cases hm : m.count x = 0
  · refine of_count (k := k) ?_ ?_
    · by_cases hka : k = a
      · subst hka
        omega
      · by_cases hkb : k = b
        · subst hkb
          omega
        · rw [ht.other k hka hkb]
          exact hk
    · intro k' hk'
      have hzero := hnone k' hk'
      by_cases hka : k' = a
      · subst hka
        omega
      · by_cases hkb : k' = b
        · subst hkb
          omega
        · rw [ht.other k' hka hkb]
          exact hzero
  · have hka : k = a := by
      by_contra hne
      have hzero := hnone a (Ne.symm hne)
      omega
    subst hka
    have hb := hnone b (Ne.symm hab)
    refine of_count (k := b) (by omega) ?_
    intro k' hk'
    by_cases hka : k' = k
    · subst hka
      omega
    · rw [ht.other k' hka hk']
      exact hnone k' hka

/-- A thing stays in one place when a bag moves from `a` to `b`. -/
theorem move [DecidableEq κ] {a b : κ} {m ma mb : Multiset α} (h : InOnePlace c x) (hab : a ≠ b)
    (hsource : c a = m + ma) (htarget : mb = m + c b) :
    InOnePlace (Function.update (Function.update c a ma) b mb) x :=
  h.transfer (.of_update hab hsource htarget) hab

/-- The same, with the target written first. -/
theorem move_back [DecidableEq κ] {a b : κ} {m ma mb : Multiset α} (h : InOnePlace c x)
    (hab : a ≠ b) (hsource : c a = m + ma) (htarget : mb = m + c b) :
    InOnePlace (Function.update (Function.update c b mb) a ma) x := by
  rw [Function.update_comm hab.symm]
  exact h.move hab hsource htarget

theorem permute (h : InOnePlace c x) (σ : κ ≃ κ) (hσ : ∀ k, c' k = c (σ k)) : InOnePlace c' x := by
  obtain ⟨k, hk, hother⟩ := h
  refine ⟨σ.symm k, by simpa [hσ] using hk, ?_⟩
  intro k' hk'
  rw [hσ]
  refine hother (σ k') ?_
  rintro rfl
  simp at hk'

/-- Only how often a thing is in each place matters. -/
theorem congr_count (h : InOnePlace c x) (heq : ∀ k, (c' k).count x = (c k).count x) :
    InOnePlace c' x := by
  obtain ⟨k, hk, hother⟩ := h
  refine of_count (k := k) ((heq k).trans hk) ?_
  intro k' hk'
  exact (heq k').trans (Multiset.count_eq_zero.mpr (hother k' hk'))

theorem congr (h : InOnePlace c x) (heq : ∀ k, c' k = c k) : InOnePlace c' x :=
  h.congr_count fun k => congrArg (Multiset.count x) (heq k)

/-- Other things may be taken away. -/
theorem drop [DecidableEq κ] {a : κ} {m ma : Multiset α} (h : InOnePlace c x)
    (hsource : c a = m + ma) (hx : x ∉ m) : InOnePlace (Function.update c a ma) x := by
  refine h.congr_count fun k => ?_
  by_cases hka : k = a
  · subst hka
    rw [Function.update_self, hsource, Multiset.count_add, Multiset.count_eq_zero.mpr hx,
      Nat.zero_add]
  · rw [Function.update_of_ne hka]

/-- With more in the places, a thing is still in one place exactly when it is not in what came
in addition. -/
theorem add_iff {extra : κ → Multiset α} (h : InOnePlace c x) :
    InOnePlace (fun k => extra k + c k) x ↔ ∀ k, x ∉ extra k := by
  constructor
  · rintro ⟨k, hk, hother⟩ k' hx
    obtain ⟨k₀, hk₀, _⟩ := h
    -- both the addition and the thing itself are where the thing is now
    have hat : k' = k := by
      by_contra hne
      exact hother k' hne (Multiset.mem_add.mpr (Or.inl hx))
    have hat₀ : k₀ = k := by
      by_contra hne
      have hmem : x ∈ c k₀ := Multiset.count_pos.mp (by omega)
      exact hother k₀ hne (Multiset.mem_add.mpr (Or.inr hmem))
    subst hat hat₀
    have hpos := Multiset.count_pos.mpr hx
    rw [Multiset.count_add] at hk
    omega
  · intro hx
    refine h.congr_count fun k => ?_
    rw [Multiset.count_add, Multiset.count_eq_zero.mpr (hx k), Nat.zero_add]

end InOnePlace

end ScaleStore
