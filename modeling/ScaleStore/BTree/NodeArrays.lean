/-
# Nodes as arrays

The nodes of `BTree.hpp` once more, now with the arrays that they keep in their
page: `count` says how many cells are in use, and what is behind them is stale.
Every operation is a program that records the cells it touches and the blocks that
it moves.

`count` has 16 bits.  Lengths of blocks are computed in integers, so that one that
comes out negative shows.
-/

import ScaleStore.BTree.Node
import ScaleStore.Lib.KeyArrays

namespace ScaleStore.BTree

open ScaleStore.Search (SortedTo Cut insertAt removeAt)

/-- `maxEntries` of the two node kinds.  An array has a cell at least, and a page has fewer than
`2 ^ 16` bytes. -/
structure ArraySizes where
  leaf : Nat
  inner : Nat
  leaf_pos : 0 < leaf
  inner_pos : 0 < inner
  leaf_lt : leaf < 2 ^ 16
  inner_lt : inner < 2 ^ 16

structure BTreeLeaf (K : Type) (V : Type) where
  lower : FenceKey K
  upper : FenceKey K
  count : Nat
  keys : Nat → K
  payloads : Nat → V

structure BTreeInner (K : Type) where
  lower : FenceKey K
  upper : FenceKey K
  count : Nat
  keys : Nat → K
  children : Nat → PID

/-! ## Searches -/

section Searches

variable {K : Type} (goLeft goRight : K → Bool) (capacity : Nat) (keys : Nat → K)

/-- The do-while loop of `lowerBound` and `upperBound`. -/
def searchCells : Nat → Nat → Nat → Traced Nat
  | 0, lower, _ => pure lower
  | fuel + 1, lower, upper => do
      let mid := (upper - lower) / 2 + lower
      let key ← readCell capacity keys mid
      if goLeft key then
        if lower < mid then searchCells fuel lower mid else pure lower
      else if goRight key then
        if mid + 1 < upper then searchCells fuel (mid + 1) upper else pure (mid + 1)
      else pure mid

theorem value_searchCells (fuel lower upper : Nat) :
    (searchCells goLeft goRight capacity keys fuel lower upper).value =
      Search.bisect goLeft goRight keys fuel lower upper := by
  induction fuel generalizing lower upper with
  | zero => rfl
  | succ fuel ih =>
      simp only [searchCells, Search.bisect, Traced.value_bind, Traced.value_ite,
        Traced.value_pure, ih]

/-- The first round looks at a cell even if there is none between the bounds. -/
theorem safe_searchCells {fuel lower upper : Nat} (h : lower + (upper - lower) / 2 < capacity)
    (hupper : upper ≤ capacity) :
    (searchCells goLeft goRight capacity keys fuel lower upper).Safe := by
  induction fuel generalizing lower upper with
  | zero => exact Traced.safe_pure _
  | succ fuel ih =>
      simp only [searchCells, Traced.safe_bind, safe_readCell, Traced.safe_ite]
      refine ⟨by omega, fun _ => ⟨fun hlt => ih (by omega) (by omega), fun _ => Traced.safe_pure _⟩,
        fun _ => ⟨fun _ => ⟨fun hlt => ih (by omega) hupper, fun _ => Traced.safe_pure _⟩,
          fun _ => Traced.safe_pure _⟩⟩

variable [LinearOrder K] (count : Nat) (k : K)

def lowerBound : Traced Nat :=
  searchCells (fun x => decide (k < x)) (fun x => decide (x < k)) capacity keys (count + 1) 0 count

def upperBound : Traced Nat :=
  searchCells (fun x => decide (k < x)) (fun x => decide (x ≤ k)) capacity keys (count + 1) 0 count

/-- The loop of `lowerBoundBF`. -/
def branchFree : Nat → Nat → Nat → Traced Nat
  | 0, base, _ => pure base
  | fuel + 1, base, n =>
      if 1 < n then do
        let half := n / 2
        let key ← readCell capacity keys (base + half)
        branchFree fuel (if key < k then base + half else base) (n - half)
      else pure base

def lowerBoundBF : Traced Nat := do
  let base ← branchFree capacity keys k count 0 count
  let key ← readCell capacity keys base
  pure (if key < k then base + 1 else base)

theorem value_branchFree (fuel base n : Nat) :
    (branchFree capacity keys k fuel base n).value = Search.branchFree keys k fuel base n := by
  induction fuel generalizing base n with
  | zero => rfl
  | succ fuel ih =>
      simp only [branchFree, Search.branchFree, Traced.value_ite, Traced.value_bind,
        Traced.value_pure, ih]

theorem safe_branchFree (fuel base n : Nat) (h : base + n ≤ capacity) :
    (branchFree capacity keys k fuel base n).Safe ∧
      (0 < n → Search.branchFree keys k fuel base n < base + n) := by
  induction fuel generalizing base n with
  | zero => exact ⟨Traced.safe_pure _, fun hn => by simpa [Search.branchFree] using hn⟩
  | succ fuel ih =>
      simp only [branchFree, Search.branchFree, Traced.safe_ite, Traced.safe_bind, safe_readCell]
      by_cases hk : keys (base + n / 2) < k
      · have := ih (base + n / 2) (n - n / 2) (by omega)
        simp only [if_pos hk]
        refine ⟨⟨fun hn => ⟨by omega, this.1⟩, fun _ => Traced.safe_pure _⟩, fun hn => ?_⟩
        split
        · have := this.2 (by omega)
          omega
        · omega
      · have := ih base (n - n / 2) (by omega)
        simp only [if_neg hk]
        refine ⟨⟨fun hn => ⟨by omega, this.1⟩, fun _ => Traced.safe_pure _⟩, fun hn => ?_⟩
        split
        · have := this.2 (by omega)
          omega
        · omega

variable {capacity keys count}

@[simp] theorem value_lowerBound :
    (lowerBound capacity keys count k).value = Search.lowerBound keys count k :=
  value_searchCells ..

@[simp] theorem value_upperBound :
    (upperBound capacity keys count k).value = Search.upperBound keys count k :=
  value_searchCells ..

@[simp] theorem value_lowerBoundBF :
    (lowerBoundBF capacity keys count k).value = Search.lowerBoundBF keys count k := by
  simp only [lowerBoundBF, Search.lowerBoundBF, Traced.value_bind, Traced.value_pure,
    value_branchFree]

theorem safe_lowerBound (hpos : 0 < capacity) (hcount : count ≤ capacity) :
    (lowerBound capacity keys count k).Safe :=
  safe_searchCells _ _ _ _ (by omega) hcount

theorem safe_upperBound (hpos : 0 < capacity) (hcount : count ≤ capacity) :
    (upperBound capacity keys count k).Safe :=
  safe_searchCells _ _ _ _ (by omega) hcount

theorem safe_lowerBoundBF (hpos : 0 < capacity) (hcount : count ≤ capacity) :
    (lowerBoundBF capacity keys count k).Safe := by
  have h := safe_branchFree capacity keys k count 0 count (by omega)
  simp only [lowerBoundBF, Traced.safe_bind, safe_readCell, value_branchFree, Traced.safe_pure,
    and_true]
  refine ⟨h.1, ?_⟩
  rcases Nat.eq_zero_or_pos count with rfl | hne
  · exact hpos
  · have := h.2 hne
    omega

/-- Of no keys at all, a search looks at the stale one in front. -/
theorem lowerBound_zero : Search.lowerBound keys 0 k = if keys 0 < k then 1 else 0 := by
  simp only [Search.lowerBound, Search.bisect]
  rcases lt_trichotomy k (keys 0) with h | h | h
  · simp [h, h.not_gt]
  · simp [h]
  · simp [h, h.not_gt]

theorem upperBound_zero : Search.upperBound keys 0 k = if keys 0 ≤ k then 1 else 0 := by
  simp only [Search.upperBound, Search.bisect]
  rcases lt_or_ge k (keys 0) with h | h
  · simp [h, h.not_ge]
  · simp [h, h.not_gt]

theorem lowerBoundBF_zero : Search.lowerBoundBF keys 0 k = if keys 0 < k then 1 else 0 := rfl

end Searches

/-! ## Leaves -/

namespace BTreeLeaf

variable {K V : Type} (c : ArraySizes)

def isFull (l : BTreeLeaf K V) : Bool := l.count == c.leaf

def isUnderflow (l : BTreeLeaf K V) : Bool := l.count ≤ c.leaf / 4

variable [LinearOrder K] (l : BTreeLeaf K V)

/-- `(pos < count) && (keys[pos] == k)`. -/
def holds (pos : Nat) (k : K) : Traced Bool :=
  if pos < l.count then do
    let key ← readCell c.leaf l.keys pos
    pure (decide (key = k))
  else pure false

def remove (k : K) : Traced (BTreeLeaf K V × Bool) :=
  if l.count = 0 then pure (l, false)
  else do
    let pos ← lowerBound c.leaf l.keys l.count k
    if ← l.holds c pos k then
      let keys ← moveBlock c.leaf l.keys pos (pos + 1) (l.count - (pos + 1 : Nat))
      let payloads ← moveBlock c.leaf l.payloads pos (pos + 1) (l.count - (pos + 1 : Nat))
      pure ({ l with keys, payloads, count := (l.count + (2 ^ 16 - 1)) % 2 ^ 16 }, true)
    else pure (l, false)

def insert (k : K) (p : V) : Traced (BTreeLeaf K V) :=
  if l.count = 0 then do
    let keys ← writeCell c.leaf l.keys 0 k
    let payloads ← writeCell c.leaf l.payloads 0 p
    pure { l with keys, payloads, count := (l.count + 1) % 2 ^ 16 }
  else do
    let pos ← lowerBound c.leaf l.keys l.count k
    if ← l.holds c pos k then
      let payloads ← writeCell c.leaf l.payloads pos p
      pure { l with payloads }
    else
      let keys ← moveBlock c.leaf l.keys (pos + 1) pos (l.count - pos)
      let payloads ← moveBlock c.leaf l.payloads (pos + 1) pos (l.count - pos)
      let keys ← writeCell c.leaf keys pos k
      let payloads ← writeCell c.leaf payloads pos p
      pure { l with keys, payloads, count := (l.count + 1) % 2 ^ 16 }

/-- `split`, when the new leaf has the arrays of `fresh`: both leaves and the separator. -/
def split (fresh : BTreeLeaf K V) : Traced (BTreeLeaf K V × BTreeLeaf K V × K) := do
  let newCount := l.count - l.count / 2
  let count := l.count - newCount
  let keys ← copyBlock c.leaf fresh.keys 0 c.leaf l.keys count newCount
  let payloads ← copyBlock c.leaf fresh.payloads 0 c.leaf l.payloads count newCount
  let sep ← readAt c.leaf l.keys (count - 1)
  pure ({ l with count, upper := some sep },
    { lower := some sep, upper := l.upper, count := newCount, keys, payloads }, sep)

/-- The entries of the right sibling are put behind those of the leaf. -/
def merge (right : BTreeLeaf K V) : Traced (BTreeLeaf K V) := do
  let keys ← copyBlock c.leaf l.keys l.count c.leaf right.keys 0 right.count
  let payloads ← copyBlock c.leaf l.payloads l.count c.leaf right.payloads 0 right.count
  pure { l with upper := right.upper, keys, payloads, count := (l.count + right.count) % 2 ^ 16 }

end BTreeLeaf

/-! ## Inner nodes -/

namespace BTreeInner

variable {K : Type} (c : ArraySizes) (n : BTreeInner K)

def isFull : Bool := n.count == c.inner - 1

/-- `split`, when the new node has the arrays of `fresh`: both nodes and the separator. -/
def split (fresh : BTreeInner K) : Traced (BTreeInner K × BTreeInner K × K) := do
  let newCount := n.count - n.count / 2
  let count := (n.count + 2 ^ 16 - newCount - 1) % 2 ^ 16
  let sep ← readCell c.inner n.keys count
  let keys ← copyBlock c.inner fresh.keys 0 c.inner n.keys (count + 1) (newCount + 1)
  let children ← copyBlock c.inner fresh.children 0 c.inner n.children (count + 1) (newCount + 1)
  pure ({ n with count, upper := some sep },
    { lower := some sep, upper := n.upper, count := newCount, keys, children }, sep)

/-- `remove(pos)`: the key at the position, and the child behind it. -/
def remove (pos : Nat) : Traced (BTreeInner K × Bool) :=
  if n.count ≠ 0 ∧ pos < n.count then do
    let keys ← moveBlock c.inner n.keys pos (pos + 1) (n.count - (pos + 1 : Nat))
    let children ← moveBlock c.inner n.children (pos + 1) (pos + 2) (n.count - (pos + 2 : Nat) + 1)
    pure ({ n with keys, children, count := (n.count + (2 ^ 16 - 1)) % 2 ^ 16 }, true)
  else pure (n, false)

/-- `makeRoot`, in a node with the arrays of `fresh`. -/
def makeRoot (fresh : BTreeInner K) (k : K) (left right : PID) : Traced (BTreeInner K) := do
  let keys ← writeCell c.inner fresh.keys 0 k
  let children ← writeCell c.inner fresh.children 0 left
  let children ← writeCell c.inner children 1 right
  pure { lower := none, upper := none, count := 1, keys, children }

variable [LinearOrder K]

/-- `insert`; nothing is returned where the node has no room and `ensure` throws. -/
def insert (k : K) (child : PID) : Traced (Option (BTreeInner K)) :=
  if n.count < c.inner - 1 then do
    let pos ← lowerBound c.inner n.keys n.count k
    let keys ← moveBlock c.inner n.keys (pos + 1) pos (n.count - pos + 1)
    let children ← moveBlock c.inner n.children (pos + 1) pos (n.count - pos + 1)
    let keys ← writeCell c.inner keys pos k
    let children ← writeCell c.inner children pos child
    -- `std::swap(children[pos], children[pos + 1])`
    let left ← readCell c.inner children pos
    let right ← readCell c.inner children (pos + 1)
    let children ← writeCell c.inner children pos right
    let children ← writeCell c.inner children (pos + 1) left
    pure (some { n with keys, children, count := (n.count + 1) % 2 ^ 16 })
  else pure none

end BTreeInner

end ScaleStore.BTree
