/-
# Binary search over a counted key array

A node of a search tree keeps its keys in an array of which only the first
`count` cells are meaningful.  The search loops below are the two usual ones:
the three-way do-while bisection and the branch-free variant that keeps a base
offset and a remaining length.  Both are written with an explicit step budget,
so that they run on concrete arrays, and both are characterised by the one
notion callers need: the position that cuts the meaningful cells into those
satisfying a predicate and those that do not.
-/

import Mathlib.Data.Nat.Count
import Mathlib.Order.Nat
import Mathlib.Tactic

namespace ScaleStore.Search

universe u

variable {K : Type u}

/-- `pos` separates the cells satisfying `below` from the others. -/
structure Cut (key : Nat → K) (count : Nat) (below : K → Prop) (pos : Nat) : Prop where
  le_count : pos ≤ count
  of_lt : ∀ i, i < pos → below (key i)
  not_of_le : ∀ i, pos ≤ i → i < count → ¬ below (key i)

/-- A cut is determined by the cells it separates. -/
theorem Cut.unique {key : Nat → K} {count first second : Nat} {below : K → Prop}
    (hfirst : Cut key count below first) (hsecond : Cut key count below second) :
    first = second := by
  rcases Nat.lt_trichotomy first second with h | h | h
  · exact absurd (hsecond.of_lt first h)
      (hfirst.not_of_le first le_rfl (lt_of_lt_of_le h hsecond.le_count))
  · exact h
  · exact absurd (hfirst.of_lt second h)
      (hsecond.not_of_le second le_rfl (lt_of_lt_of_le h hfirst.le_count))

/-- A cut counts the cells in front of it. -/
theorem Cut.count_eq {key : Nat → K} {count pos : Nat} {below : K → Prop} [DecidablePred below]
    (hcut : Cut key count below pos) : Nat.count (fun i => below (key i)) count = pos := by
  have hfilter : {i ∈ Finset.range count | below (key i)} = Finset.range pos := by
    ext i
    rw [Finset.mem_filter, Finset.mem_range, Finset.mem_range]
    refine ⟨fun ⟨hi, hb⟩ => ?_, fun hi => ⟨lt_of_lt_of_le hi hcut.le_count, hcut.of_lt i hi⟩⟩
    by_contra hle
    exact hcut.not_of_le i (Nat.le_of_not_lt hle) hi hb
  rw [Nat.count_eq_card_filter_range, hfilter, Finset.card_range]

/-- The cells of a list seen as an array: past the end they hold stale data. -/
def cells [Inhabited K] (xs : List K) (i : Nat) : K := xs.getD i default

theorem cells_eq_getElem [Inhabited K] {xs : List K} {i : Nat} (h : i < xs.length) :
    cells xs i = xs[i] := by
  simp [cells, h]

theorem Cut.of_mem_take [Inhabited K] {xs : List K} {below : K → Prop} {pos : Nat}
    (hcut : Cut (cells xs) xs.length below pos) {x : K} (hx : x ∈ xs.take pos) : below x := by
  obtain ⟨i, hi, rfl⟩ := List.mem_iff_getElem.mp hx
  rw [List.length_take] at hi
  rw [List.getElem_take, ← cells_eq_getElem (by omega)]
  exact hcut.of_lt i (by omega)

theorem Cut.not_of_mem_drop [Inhabited K] {xs : List K} {below : K → Prop} {pos : Nat}
    (hcut : Cut (cells xs) xs.length below pos) {x : K} (hx : x ∈ xs.drop pos) : ¬ below x := by
  obtain ⟨i, hi, rfl⟩ := List.mem_iff_getElem.mp hx
  rw [List.length_drop] at hi
  rw [List.getElem_drop, ← cells_eq_getElem (by omega)]
  exact hcut.not_of_le (pos + i) (by omega) (by omega)

variable [LinearOrder K]

/-- The first `count` cells are strictly increasing. -/
def SortedTo (key : Nat → K) (count : Nat) : Prop :=
  ∀ i j, i < j → j < count → key i < key j

theorem sortedTo_cells [Inhabited K] {xs : List K} (h : xs.Pairwise (· < ·)) :
    SortedTo (cells xs) xs.length := by
  intro i j hij hj
  rw [cells_eq_getElem (by omega), cells_eq_getElem hj]
  exact List.pairwise_iff_getElem.mp h i j (by omega) hj hij

/-- The bisection shared by both inclusive searches: `goLeft` sends the search
to the lower half, `goRight` to the upper half, and otherwise `mid` is the
answer.  The loop body runs before its condition is tested, as in the source. -/
def bisect (goLeft goRight : K → Bool) (key : Nat → K) : Nat → Nat → Nat → Nat
  | 0, lower, _ => lower
  | fuel + 1, lower, upper =>
      let mid := (upper - lower) / 2 + lower
      if goLeft (key mid) then
        if lower < mid then bisect goLeft goRight key fuel lower mid else lower
      else if goRight (key mid) then
        if mid + 1 < upper then bisect goLeft goRight key fuel (mid + 1) upper else mid + 1
      else mid

/-- The first key which matches `k` if it exists, otherwise the next larger one. -/
def lowerBound (key : Nat → K) (count : Nat) (k : K) : Nat :=
  bisect (fun x => decide (k < x)) (fun x => decide (x < k)) key (count + 1) 0 count

/-- The first key which is larger than `k`. -/
def upperBound (key : Nat → K) (count : Nat) (k : K) : Nat :=
  bisect (fun x => decide (k < x)) (fun x => decide (x ≤ k)) key (count + 1) 0 count

/-- The branch-free loop: `base` moves to the upper half when its first key is
still smaller than `k`, and the remaining length shrinks by a half either way. -/
def branchFree (key : Nat → K) (k : K) : Nat → Nat → Nat → Nat
  | 0, base, _ => base
  | fuel + 1, base, n =>
      if 1 < n then
        let half := n / 2
        branchFree key k fuel (if key (base + half) < k then base + half else base) (n - half)
      else base

/-- The branch-free lower bound. -/
def lowerBoundBF (key : Nat → K) (count : Nat) (k : K) : Nat :=
  let base := branchFree key k count 0 count
  if key base < k then base + 1 else base

/-! ## What the searches return -/

/-- Everything a bisection has to know about its predicate: it is decided by
`goLeft`/`goRight` and holds on an initial segment of the sorted cells. -/
structure Splits (goLeft goRight : K → Bool) (below : K → Prop) : Prop where
  left : ∀ x, goLeft x = true → ¬ below x
  right : ∀ x, goLeft x = false → goRight x = true → below x
  mono : ∀ x y, x < y → below y → below x
  /-- The three-way exit: a cell that sends the search to neither side is the
  first one above the cut. -/
  exact_hit : ∀ x, goLeft x = false → goRight x = false → ¬ below x ∧ ∀ y, y < x → below y

theorem bisect_cut {key : Nat → K} {count : Nat} {goLeft goRight : K → Bool}
    {below : K → Prop} (hs : Splits goLeft goRight below) (hsorted : SortedTo key count) :
    ∀ (fuel lower upper : Nat), upper - lower < fuel → lower < upper → upper ≤ count →
      (∀ i, i < lower → below (key i)) → (∀ i, upper ≤ i → i < count → ¬ below (key i)) →
      Cut key count below (bisect goLeft goRight key fuel lower upper) := by
  intro fuel
  induction fuel with
  | zero => intro lower upper hfuel; omega
  | succ fuel ih =>
      intro lower upper hfuel hlt hcount hlow hhigh
      have hmid : (upper - lower) / 2 + lower < upper := by omega
      have hmidc : (upper - lower) / 2 + lower < count := by omega
      simp only [bisect]
      generalize hm : (upper - lower) / 2 + lower = mid at *
      -- above an undecided middle everything fails, below a decided one everything holds
      have habove : ∀ x, ¬ below (key mid) → mid ≤ x → x < count → ¬ below (key x) := by
        intro x hx hle hxc hb
        rcases Nat.eq_or_lt_of_le hle with rfl | hlt'
        · exact hx hb
        · exact hx (hs.mono _ _ (hsorted mid x hlt' hxc) hb)
      split
      · rename_i hl
        have hnot := hs.left _ hl
        split
        · exact ih lower mid (by omega) ‹_› (by omega) hlow (fun i hi hc => habove i hnot hi hc)
        · have hml : mid = lower := by omega
          exact ⟨by omega, hlow, fun i hi hc => habove i hnot (by omega) hc⟩
      · rename_i hl
        have hl' : goLeft (key mid) = false := by simpa using hl
        split
        · rename_i hr
          have hb := hs.right _ hl' hr
          have hbelow : ∀ i, i < mid + 1 → below (key i) := by
            intro i hi
            rcases Nat.lt_succ_iff_lt_or_eq.mp hi with hi | rfl
            · exact hs.mono _ _ (hsorted i mid hi hmidc) hb
            · exact hb
          split
          · exact ih (mid + 1) upper (by omega) ‹_› hcount hbelow hhigh
          · exact ⟨by omega, hbelow, fun i hi hc => hhigh i (by omega) hc⟩
        · rename_i hr
          obtain ⟨hnot, hall⟩ := hs.exact_hit _ hl' (by simpa using hr)
          exact ⟨by omega, fun i hi => hall _ (hsorted i mid hi hmidc),
            fun i hi hc => habove i hnot hi hc⟩

theorem lowerBound_cut {key : Nat → K} {count : Nat} (hsorted : SortedTo key count)
    (hcount : 0 < count) (k : K) : Cut key count (· < k) (lowerBound key count k) := by
  have hsplits : Splits (fun x => decide (k < x)) (fun x => decide (x < k)) (· < k) := by
    refine ⟨?_, ?_, fun x y hxy hy => lt_trans hxy hy, ?_⟩
    · intro x hx
      simpa using le_of_lt (of_decide_eq_true hx)
    · intro x _ hx
      exact of_decide_eq_true hx
    · intro x hl hr
      have hxk : x = k := le_antisymm (by simpa using hl) (by simpa using hr)
      subst hxk
      exact ⟨lt_irrefl x, fun y hy => hy⟩
  exact bisect_cut hsplits hsorted _ 0 count (by omega) hcount le_rfl
    (fun i hi => absurd hi (Nat.not_lt_zero i)) (fun i hi hc => absurd hc (not_lt.mpr hi))

theorem upperBound_cut {key : Nat → K} {count : Nat} (hsorted : SortedTo key count)
    (hcount : 0 < count) (k : K) : Cut key count (· ≤ k) (upperBound key count k) := by
  have hsplits : Splits (fun x => decide (k < x)) (fun x => decide (x ≤ k)) (· ≤ k) := by
    refine ⟨?_, ?_, fun x y hxy hy => le_trans (le_of_lt hxy) hy, ?_⟩
    · intro x hx
      simpa using of_decide_eq_true hx
    · intro x _ hx
      exact of_decide_eq_true hx
    · intro x hl hr
      exact absurd (by simpa using hl) (by simpa using hr)
  exact bisect_cut hsplits hsorted _ 0 count (by omega) hcount le_rfl
    (fun i hi => absurd hi (Nat.not_lt_zero i)) (fun i hi hc => absurd hc (not_lt.mpr hi))

/-- The branch-free loop keeps the cut inside the window it still looks at. -/
theorem branchFree_window {key : Nat → K} {count : Nat} (hsorted : SortedTo key count) (k : K) :
    ∀ (fuel base n : Nat), n ≤ fuel + 1 → 0 < n → base + n ≤ count →
      (∀ i, i < base → key i < k) → (∀ i, base + n ≤ i → i < count → ¬ key i < k) →
      branchFree key k fuel base n < count ∧
        (∀ i, i < branchFree key k fuel base n → key i < k) ∧
        (∀ i, branchFree key k fuel base n + 1 ≤ i → i < count → ¬ key i < k) := by
  intro fuel
  induction fuel with
  | zero =>
      intro base n hn hpos hle hlow hhigh
      obtain rfl : n = 1 := by omega
      exact ⟨by simp only [branchFree]; omega, hlow, hhigh⟩
  | succ fuel ih =>
      intro base n hn hpos hle hlow hhigh
      simp only [branchFree]
      split
      · have hhalf : 0 < n / 2 ∧ n / 2 < n := by omega
        by_cases hk : key (base + n / 2) < k
        · simp only [if_pos hk]
          refine ih _ _ (by omega) (by omega) (by omega) ?_ (fun i hi hc => hhigh i (by omega) hc)
          intro i hi
          exact lt_trans (hsorted i _ hi (by omega)) hk
        · simp only [if_neg hk]
          refine ih _ _ (by omega) (by omega) (by omega) hlow ?_
          intro i hi hc hlt
          rcases Nat.eq_or_lt_of_le (show base + n / 2 ≤ i by omega) with heq | hgt
          · exact hk (heq ▸ hlt)
          · exact hk (lt_trans (hsorted _ i hgt hc) hlt)
      · obtain rfl : n = 1 := by omega
        exact ⟨by omega, hlow, hhigh⟩

theorem lowerBoundBF_cut {key : Nat → K} {count : Nat} (hsorted : SortedTo key count)
    (hcount : 0 < count) (k : K) : Cut key count (· < k) (lowerBoundBF key count k) := by
  obtain ⟨hlt, hlow, hhigh⟩ := branchFree_window hsorted k count 0 count (by omega) hcount
    (by omega) (fun i hi => absurd hi (Nat.not_lt_zero i)) (fun i hi hc => absurd hc (by omega))
  simp only [lowerBoundBF]
  split
  · rename_i hk
    refine ⟨by omega, ?_, hhigh⟩
    intro i hi
    rcases Nat.lt_succ_iff_lt_or_eq.mp hi with hi | rfl
    · exact hlow i hi
    · exact hk
  · rename_i hk
    refine ⟨by omega, hlow, ?_⟩
    intro i hi hc
    rcases Nat.eq_or_lt_of_le hi with rfl | hgt
    · exact hk
    · exact hhigh i hgt hc

/-- Both lower-bound searches return the same position. -/
theorem lowerBoundBF_eq_lowerBound {key : Nat → K} {count : Nat} (hsorted : SortedTo key count)
    (hcount : 0 < count) (k : K) : lowerBoundBF key count k = lowerBound key count k :=
  (lowerBoundBF_cut hsorted hcount k).unique (lowerBound_cut hsorted hcount k)

end ScaleStore.Search
