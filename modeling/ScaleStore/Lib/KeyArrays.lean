/-
# Insertion and removal in a counted key array

A cell is put into an array by moving the cells behind it one to the right, and
taken out by moving them one to the left.  On a sorted array, at the position where
a search for the key ends, both keep the array sorted.
-/

import ScaleStore.Lib.ArrayAccess
import ScaleStore.Lib.Search

namespace ScaleStore.Search

universe u

variable {α : Type u}

def insertAt (f : Nat → α) (pos : Nat) (x : α) (i : Nat) : α :=
  if i < pos then f i else if i = pos then x else f (i - 1)

def removeAt (f : Nat → α) (pos i : Nat) : α := if i < pos then f i else f (i + 1)

variable {f : Nat → α} {pos count i : Nat} {x : α}

theorem insertAt_of_lt (h : i < pos) : insertAt f pos x i = f i := if_pos h

theorem insertAt_self : insertAt f pos x pos = x := by simp [insertAt]

theorem insertAt_of_gt (h : pos < i) : insertAt f pos x i = f (i - 1) := by
  rw [insertAt, if_neg (by omega), if_neg (by omega)]

theorem removeAt_of_lt (h : i < pos) : removeAt f pos i = f i := if_pos h

theorem removeAt_of_le (h : pos ≤ i) : removeAt f pos i = f (i + 1) := if_neg (by omega)

theorem insertAt_forall {P : α → Prop} (hf : ∀ i, i < count → P (f i)) (hx : P x)
    (hi : i < count + 1) (hpos : pos ≤ count) : P (insertAt f pos x i) := by
  rcases Nat.lt_trichotomy i pos with hlt | rfl | hgt
  · rw [insertAt_of_lt hlt]
    exact hf i (by omega)
  · rw [insertAt_self]
    exact hx
  · rw [insertAt_of_gt hgt]
    exact hf (i - 1) (by omega)

theorem removeAt_forall {P : α → Prop} (hf : ∀ i, i < count → P (f i)) (hi : i < count - 1) :
    P (removeAt f pos i) := by
  rcases Nat.lt_or_ge i pos with hlt | hge
  · rw [removeAt_of_lt hlt]
    exact hf i (by omega)
  · rw [removeAt_of_le hge]
    exact hf (i + 1) (by omega)

/-- What a `memmove` to the right and the write behind it leave in the first cells. -/
theorem insertAt_move {capacity m : Nat} (hpos : pos ≤ m) (hi : i ≤ m) :
    Function.update (moveBlock capacity f (pos + 1) pos ((m : Int) - pos)).value pos x i =
      insertAt f pos x i := by
  rcases Nat.lt_trichotomy i pos with hlt | rfl | hgt
  · rw [Function.update_of_ne hlt.ne, value_moveBlock, if_neg (by omega), insertAt_of_lt hlt]
  · rw [Function.update_self, insertAt_self]
  · rw [Function.update_of_ne hgt.ne', value_moveBlock, if_pos (by omega), insertAt_of_gt hgt]
    exact congrArg f (by omega)

/-- What a `memmove` to the left leaves in the first cells. -/
theorem removeAt_move {capacity m : Nat} (hi : i + 1 < m) :
    (moveBlock capacity f pos (pos + 1) ((m : Int) - (pos + 1 : Nat))).value i =
      removeAt f pos i := by
  rcases Nat.lt_or_ge i pos with hlt | hge
  · rw [value_moveBlock, if_neg (by omega), removeAt_of_lt hlt]
  · rw [value_moveBlock, if_pos (by omega), removeAt_of_le hge]
    exact congrArg f (by omega)

variable {K : Type u} [LinearOrder K] {key key' : Nat → K} {k : K}

theorem SortedTo.mono (h : SortedTo key count) {count' : Nat} (hle : count' ≤ count) :
    SortedTo key count' := fun i j hij hj => h i j hij (by omega)

theorem SortedTo.congr (h : SortedTo key count) (heq : ∀ i, i < count → key' i = key i) :
    SortedTo key' count := fun i j hij hj => by
  rw [heq i (by omega), heq j hj]
  exact h i j hij hj

theorem SortedTo.shift (h : SortedTo key count) (m : Nat) :
    SortedTo (fun i => key (m + i)) (count - m) := fun i j hij hj => h _ _ (by omega) (by omega)

theorem SortedTo.insertAt (h : SortedTo key count) (hpos : pos ≤ count)
    (hlow : ∀ i, i < pos → key i < k) (hhigh : ∀ i, pos ≤ i → i < count → k < key i) :
    SortedTo (insertAt key pos k) (count + 1) := by
  intro i j hij hj
  rcases Nat.lt_trichotomy j pos with hlt | rfl | hgt
  · rw [insertAt_of_lt hlt, insertAt_of_lt (by omega)]
    exact h i j hij (by omega)
  · rw [insertAt_self, insertAt_of_lt hij]
    exact hlow i hij
  · rw [insertAt_of_gt hgt]
    rcases Nat.lt_trichotomy i pos with hlt' | rfl | hgt'
    · rw [insertAt_of_lt hlt']
      exact h i (j - 1) (by omega) (by omega)
    · rw [insertAt_self]
      exact hhigh (j - 1) (by omega) (by omega)
    · rw [insertAt_of_gt hgt']
      exact h (i - 1) (j - 1) (by omega) (by omega)

theorem SortedTo.removeAt (h : SortedTo key count) : SortedTo (removeAt key pos) (count - 1) := by
  intro i j hij hj
  rcases Nat.lt_or_ge j pos with hlt | hge
  · rw [removeAt_of_lt hlt, removeAt_of_lt (by omega)]
    exact h i j hij (by omega)
  · rw [removeAt_of_le hge]
    rcases Nat.lt_or_ge i pos with hlt' | hge'
    · rw [removeAt_of_lt hlt']
      exact h i (j + 1) (by omega) (by omega)
    · rw [removeAt_of_le hge']
      exact h (i + 1) (j + 1) (by omega) (by omega)

/-- At a cut that does not hold the key, all keys behind are larger. -/
theorem Cut.lt_of_ne (hcut : Cut key count (· < k) pos) (hsorted : SortedTo key count)
    (hne : pos < count → key pos ≠ k) (hle : pos ≤ i) (hi : i < count) : k < key i := by
  have hfirst : k < key pos :=
    lt_of_le_of_ne (not_lt.mp (hcut.not_of_le pos le_rfl (by omega))) (hne (by omega)).symm
  rcases Nat.eq_or_lt_of_le hle with rfl | hlt
  · exact hfirst
  · exact hfirst.trans (hsorted pos i hlt hi)

end ScaleStore.Search
