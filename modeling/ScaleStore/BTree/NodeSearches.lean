/-
# What the searches in a node return

Leaves and inner nodes are searched by the same three loops, and one operation descends
with another search than the next.  On sorted keys each search returns the number of keys
in front of the place that it looks for, so that they all agree.

The loops have a budget of rounds here.  From a certain budget on nothing changes any
more, neither the result nor the reads: the loops end by themselves.
-/

import ScaleStore.BTree.NodeArrays

namespace ScaleStore

/-- All that a program does is to read cells below `count`. -/
def Traced.Below {α : Type} (capacity count : Nat) (m : Traced α) : Prop :=
  ∀ access ∈ m.accesses, ∃ i, i < count ∧ access = .cell capacity i

namespace Traced

variable {α β : Type} {capacity count : Nat}

theorem below_pure (a : α) : (pure a : Traced α).Below capacity count := fun _ h => nomatch h

theorem below_bind {m : Traced α} {f : α → Traced β} :
    (m >>= f).Below capacity count ↔ m.Below capacity count ∧ (f m.value).Below capacity count :=
  List.forall_mem_append

theorem below_ite {p : Prop} [Decidable p] {m m' : Traced α} :
    (if p then m else m').Below capacity count ↔
      (p → m.Below capacity count) ∧ (¬ p → m'.Below capacity count) := by
  split <;> simp_all

theorem below_readCell {array : Nat → α} {i : Nat} (h : i < count) :
    (readCell capacity array i).Below capacity count := by
  intro access haccess
  exact ⟨i, h, List.mem_singleton.mp haccess⟩

end Traced

end ScaleStore

namespace ScaleStore.BTree

open ScaleStore.Search (SortedTo)
open Traced

section Bisection

variable {K : Type} (goLeft goRight : K → Bool) (capacity : Nat) (keys : Nat → K)

theorem below_searchCells {count fuel lower upper : Nat} (hlt : lower < upper)
    (hupper : upper ≤ count) :
    (searchCells goLeft goRight capacity keys fuel lower upper).Below capacity count := by
  induction fuel generalizing lower upper with
  | zero => exact below_pure _
  | succ fuel ih =>
    simp only [searchCells, below_bind, below_ite]
    refine ⟨below_readCell (by omega), fun _ => ⟨?_, fun _ => below_pure _⟩,
      fun _ => ⟨fun _ => ⟨?_, fun _ => below_pure _⟩, fun _ => below_pure _⟩⟩
    · exact fun hmid => ih hmid (by omega)
    · exact fun hmid => ih hmid hupper

/-- Each round leaves fewer cells between the bounds. -/
theorem searchCells_fuel {fuel fuel' lower upper : Nat} (h : upper - lower < fuel)
    (h' : upper - lower < fuel') :
    searchCells goLeft goRight capacity keys fuel lower upper =
      searchCells goLeft goRight capacity keys fuel' lower upper := by
  induction fuel generalizing fuel' lower upper with
  | zero => omega
  | succ fuel ih =>
    obtain ⟨fuel', rfl⟩ : ∃ n, fuel' = n + 1 := ⟨fuel' - 1, by omega⟩
    refine congrArg (readCell capacity keys _ >>= ·) (funext fun key => ?_)
    have hleft : lower < (upper - lower) / 2 + lower →
        searchCells goLeft goRight capacity keys fuel lower ((upper - lower) / 2 + lower) =
          searchCells goLeft goRight capacity keys fuel' lower ((upper - lower) / 2 + lower) :=
      fun hlt => ih (by omega) (by omega)
    have hright : (upper - lower) / 2 + lower + 1 < upper →
        searchCells goLeft goRight capacity keys fuel ((upper - lower) / 2 + lower + 1) upper =
          searchCells goLeft goRight capacity keys fuel' ((upper - lower) / 2 + lower + 1) upper :=
      fun hlt => ih (by omega) (by omega)
    split_ifs with _ hlt _ hlt
    · exact hleft hlt
    · rfl
    · exact hright hlt
    · rfl
    · rfl

end Bisection

section BranchFree

variable {K : Type} [LinearOrder K] (capacity : Nat) (keys : Nat → K) (k : K)

theorem below_branchFree {count fuel base n : Nat} (h : base + n ≤ count) :
    (branchFree capacity keys k fuel base n).Below capacity count := by
  induction fuel generalizing base n with
  | zero => exact below_pure _
  | succ fuel ih =>
    simp only [branchFree, below_bind, below_ite]
    refine ⟨fun hn => ⟨below_readCell (by omega), ih ?_⟩, fun _ => below_pure _⟩
    split <;> omega

/-- With one cell left the loop is over. -/
theorem branchFree_of_le_one (fuel base : Nat) {n : Nat} (h : n ≤ 1) :
    branchFree capacity keys k fuel base n = pure base := by
  cases fuel with
  | zero => rfl
  | succ fuel => exact if_neg (by omega)

theorem branchFree_fuel {fuel fuel' base n : Nat} (h : n ≤ fuel + 1) (h' : n ≤ fuel' + 1) :
    branchFree capacity keys k fuel base n = branchFree capacity keys k fuel' base n := by
  induction fuel generalizing fuel' base n with
  | zero => rw [branchFree_of_le_one _ _ _ _ _ h, branchFree_of_le_one _ _ _ _ _ h]
  | succ fuel ih =>
    by_cases hn : 1 < n
    · obtain ⟨fuel', rfl⟩ : ∃ m, fuel' = m + 1 := ⟨fuel' - 1, by omega⟩
      rw [branchFree, branchFree, if_pos hn, if_pos hn]
      exact congrArg (readCell capacity keys _ >>= ·) (funext fun key => ih (by omega) (by omega))
    · have hle : n ≤ 1 := Nat.le_of_not_lt hn
      rw [branchFree_of_le_one _ _ _ _ _ hle, branchFree_of_le_one _ _ _ _ _ hle]

end BranchFree

section Searches

variable {K : Type} [LinearOrder K] (capacity : Nat) {count : Nat} {keys : Nat → K}

theorem below_lowerBoundBF (hcount : 1 ≤ count) (k : K) :
    (lowerBoundBF capacity keys count k).Below capacity count := by
  have hbase := (safe_branchFree count keys k count 0 count (by omega)).2 hcount
  simp only [lowerBoundBF, below_bind, value_branchFree]
  exact ⟨below_branchFree _ _ _ (by omega), below_readCell (by omega), below_pure _⟩

/-- The lower bounds of leaves and inner nodes return the number of smaller keys, the upper bound
the number of keys that are not larger.  They read only keys that are in use, and all of their loops
come to an end. -/
theorem searches_agree (hsorted : SortedTo keys count) (hcount : 1 ≤ count) (k : K) :
    (lowerBound capacity keys count k).value = Nat.count (fun i => keys i < k) count ∧
    (lowerBoundBF capacity keys count k).value = Nat.count (fun i => keys i < k) count ∧
    (upperBound capacity keys count k).value = Nat.count (fun i => keys i ≤ k) count ∧
    ((lowerBound capacity keys count k).Below capacity count ∧
      (lowerBoundBF capacity keys count k).Below capacity count ∧
      (upperBound capacity keys count k).Below capacity count) ∧
    ∀ fuel, count < fuel →
      searchCells (fun x => decide (k < x)) (fun x => decide (x < k)) capacity keys fuel 0 count =
        lowerBound capacity keys count k ∧
      branchFree capacity keys k fuel 0 count = branchFree capacity keys k count 0 count ∧
      searchCells (fun x => decide (k < x)) (fun x => decide (x ≤ k)) capacity keys fuel 0 count =
        upperBound capacity keys count k := by
  refine ⟨?_, ?_, ?_, ⟨?_, below_lowerBoundBF _ hcount k, ?_⟩, fun fuel hfuel => ⟨?_, ?_, ?_⟩⟩
  · rw [value_lowerBound]
    exact (Search.lowerBound_cut hsorted hcount k).count_eq.symm
  · rw [value_lowerBoundBF]
    exact (Search.lowerBoundBF_cut hsorted hcount k).count_eq.symm
  · rw [value_upperBound]
    exact (Search.upperBound_cut hsorted hcount k).count_eq.symm
  · exact below_searchCells _ _ _ _ hcount le_rfl
  · exact below_searchCells _ _ _ _ hcount le_rfl
  · exact searchCells_fuel _ _ _ _ (by omega) (by omega)
  · exact branchFree_fuel _ _ _ (by omega) (by omega)
  · exact searchCells_fuel _ _ _ _ (by omega) (by omega)

/-- Five even keys in an array of eight. -/
theorem searches_agree_five :
    (lowerBound 8 (fun i => 2 * i) 5 6).value = 3 ∧
      (lowerBoundBF 8 (fun i => 2 * i) 5 6).value = 3 ∧
    (upperBound 8 (fun i => 2 * i) 5 6).value = 4 := by
  have hsorted : SortedTo (fun i => 2 * i) 5 := fun i j hij _ => by
    show 2 * i < 2 * j
    omega
  obtain ⟨hlower, hbranchFree, hupper, -⟩ :=
    searches_agree 8 hsorted (by decide) 6
  exact ⟨hlower.trans (by decide), hbranchFree.trans (by decide), hupper.trans (by decide)⟩

end Searches

end ScaleStore.BTree
