/-
# Leaves and inner nodes

The node layouts of `BTree.hpp` and the operations on a single node: the
searches, the upsert and the removal of a leaf, both splits, and the insertion
and removal of a separator in an inner node.  A node's arrays are lists of
exactly `count` cells (an inner node has one child more than it has keys); what
lies behind them in the page is stale and shows only as the default a search of
an empty node may compare against.

Every operation comes with the facts about it that a caller needs, stated on the
membership of entries, so that no later proof looks into an array again.
-/

import ScaleStore.Lib.OrderedMap
import ScaleStore.Lib.Search

namespace ScaleStore.BTree

open ScaleStore.Search

universe u v

/-- Page identifiers as the tree stores them in its inner nodes. -/
abbrev PID := Nat

/-- A fence key; `none` is the infinite fence. -/
abbrev FenceKey (K : Type u) := Option K

/-- `maxEntries` of the two node kinds, with the bounds the layouts guarantee. -/
structure Capacity where
  leaf : Nat
  inner : Nat
  two_le_leaf : 2 ≤ leaf
  five_le_inner : 5 ≤ inner

structure Leaf (K : Type u) (V : Type v) where
  /-- Exclusive lower fence. -/
  lower : FenceKey K
  /-- Inclusive upper fence. -/
  upper : FenceKey K
  entries : List (K × V)
  deriving DecidableEq, Repr

structure Inner (K : Type u) where
  lower : FenceKey K
  upper : FenceKey K
  keys : List K
  children : List PID
  deriving DecidableEq, Repr

/-! ## Leaf -/

namespace Leaf

variable {K : Type u} {V : Type v}

/-- The constructor `BTreeLeaf()`: no entries, infinite fences. -/
def empty : Leaf K V := ⟨none, none, []⟩

def count (l : Leaf K V) : Nat := l.entries.length

def keys (l : Leaf K V) : List K := l.entries.map Prod.fst

def isFull (c : Capacity) (l : Leaf K V) : Bool := l.count == c.leaf

/-- `underflowSize` is a quarter of the capacity. -/
def isUnderflow (c : Capacity) (l : Leaf K V) : Bool := l.count ≤ c.leaf / 4

def setFences (l : Leaf K V) (lower upper : FenceKey K) : Leaf K V :=
  { l with lower, upper }

variable [LinearOrder K] [Inhabited K]

def lowerBound (l : Leaf K V) (k : K) : Nat := Search.lowerBound (cells l.keys) l.count k

/-- The position of `k`, when the cell the search ends at really holds it. -/
def find (l : Leaf K V) (k : K) : Option Nat :=
  let pos := l.lowerBound k
  if pos < l.count ∧ cells l.keys pos = k then some pos else none

def remove (l : Leaf K V) (k : K) : Leaf K V × Bool :=
  if l.count ≠ 0 then
    match l.find k with
    | some pos => ({ l with entries := l.entries.take pos ++ l.entries.drop (pos + 1) }, true)
    | none => (l, false)
  else (l, false)

/-- Upsert: the payload of a present key is overwritten, an absent key is put in
front of the first larger one. -/
def insert (l : Leaf K V) (k : K) (p : V) : Leaf K V :=
  if l.count ≠ 0 then
    match l.find k with
    | some pos => { l with entries := l.entries.take pos ++ (k, p) :: l.entries.drop (pos + 1) }
    | none =>
        let pos := l.lowerBound k
        { l with entries := l.entries.take pos ++ (k, p) :: l.entries.drop pos }
  else { l with entries := [(k, p)] }

/-- The size of the left half after a split. -/
def splitCount (l : Leaf K V) : Nat := l.count - (l.count - l.count / 2)

/-- The separator is the last key that stays in the left half. -/
def splitKey (l : Leaf K V) : K := cells l.keys (l.splitCount - 1)

def splitLeft (l : Leaf K V) : Leaf K V :=
  { lower := l.lower, upper := some l.splitKey, entries := l.entries.take l.splitCount }

def splitRight (l : Leaf K V) : Leaf K V :=
  { lower := some l.splitKey, upper := l.upper, entries := l.entries.drop l.splitCount }

/-- The body of the merge in `BTree::remove`: the right sibling's cells follow
the leaf's own, and the upper fence is the sibling's. -/
def mergeRight (l right : Leaf K V) : Leaf K V :=
  { lower := l.lower, upper := right.upper, entries := l.entries ++ right.entries }

/-! ### What the leaf operations do to the entries -/

/-- Keys are strictly increasing. -/
def Sorted (l : Leaf K V) : Prop := l.entries.Pairwise (fun a b => a.1 < b.1)

omit [Inhabited K] in
theorem Sorted.keys {l : Leaf K V} (h : l.Sorted) : l.keys.Pairwise (· < ·) := by
  rw [Leaf.keys, List.pairwise_map]
  exact h

omit [LinearOrder K] [Inhabited K] in
theorem length_keys (l : Leaf K V) : l.keys.length = l.count := by
  simp [keys, count]

theorem lowerBound_cut {l : Leaf K V} (h : l.Sorted) (hcount : l.count ≠ 0) (k : K) :
    Cut (cells l.keys) l.keys.length (· < k) (l.lowerBound k) := by
  have hsorted := sortedTo_cells h.keys
  rw [length_keys] at hsorted ⊢
  exact Search.lowerBound_cut hsorted (Nat.pos_of_ne_zero hcount) k

/-- Entries left of the searched position are smaller, the others are not. -/
theorem lowerBound_take_drop {l : Leaf K V} (h : l.Sorted) (hcount : l.count ≠ 0) (k : K) :
    (∀ e ∈ l.entries.take (l.lowerBound k), e.1 < k) ∧
      (∀ e ∈ l.entries.drop (l.lowerBound k), k ≤ e.1) := by
  have hcut := lowerBound_cut h hcount k
  constructor
  · intro e he
    exact hcut.of_mem_take (by rw [keys, ← List.map_take]; exact List.mem_map_of_mem he)
  · intro e he
    exact not_lt.mp (hcut.not_of_mem_drop
      (by rw [keys, ← List.map_drop]; exact List.mem_map_of_mem he))

/-- A found position splits the entries around the one that binds the key. -/
theorem find_eq_some {l : Leaf K V} {k : K} {pos : Nat} (h : l.find k = some pos) :
    ∃ p, l.entries = l.entries.take pos ++ (k, p) :: l.entries.drop (pos + 1) := by
  simp only [find, Option.ite_none_right_eq_some] at h
  obtain ⟨⟨hlt, hkey⟩, hpos⟩ := h
  obtain rfl : l.lowerBound k = pos := by simpa using hpos
  have hlt' : l.lowerBound k < l.entries.length := hlt
  have hcell : (l.entries[l.lowerBound k]).1 = k := by
    rw [cells_eq_getElem (by simpa [keys] using hlt')] at hkey
    simpa [keys] using hkey
  refine ⟨(l.entries[l.lowerBound k]).2, ?_⟩
  conv_lhs => rw [← List.take_append_drop (l.lowerBound k) l.entries]
  rw [List.drop_eq_getElem_cons hlt']
  exact congrArg (fun e => l.entries.take (l.lowerBound k) ++
    e :: l.entries.drop (l.lowerBound k + 1)) (Prod.ext hcell rfl)

/-- In a sorted leaf the entries around a found position are strictly smaller
and strictly larger. -/
theorem find_lt_gt {l : Leaf K V} (hs : l.Sorted) {k : K} {pos : Nat}
    (h : l.find k = some pos) :
    (∀ e ∈ l.entries.take pos, e.1 < k) ∧ (∀ e ∈ l.entries.drop (pos + 1), k < e.1) := by
  obtain ⟨p, hp⟩ := find_eq_some h
  have hs' := hs
  rw [Sorted, hp, List.pairwise_append, List.pairwise_cons] at hs'
  obtain ⟨_, ⟨hright, _⟩, hleft⟩ := hs'
  exact ⟨fun e he => hleft e he (k, p) List.mem_cons_self, fun e he => hright e he⟩

theorem find_eq_none_iff {l : Leaf K V} (hs : l.Sorted) {k : K} :
    l.find k = none ↔ ∀ p, (k, p) ∉ l.entries := by
  constructor
  · intro h p hp
    have hcount : l.count ≠ 0 := by
      intro h0
      simp [List.length_eq_zero_iff.mp h0] at hp
    obtain ⟨hlt, hge⟩ := lowerBound_take_drop hs hcount k
    have hdrop : (k, p) ∈ l.entries.drop (l.lowerBound k) := by
      rw [← List.take_append_drop (l.lowerBound k) l.entries, List.mem_append] at hp
      exact hp.resolve_left fun hmem => lt_irrefl k (hlt _ hmem)
    obtain ⟨i, hi, heq⟩ := List.mem_iff_getElem.mp hdrop
    rw [List.length_drop] at hi
    have hpos : l.lowerBound k < l.entries.length := by omega
    -- the first entry right of the cut is not below `k`, and not above it either
    have hfirst : (l.entries[l.lowerBound k]).1 = k := by
      refine le_antisymm ?_ (hge _ ?_)
      · rw [List.getElem_drop] at heq
        rcases Nat.eq_zero_or_pos i with rfl | hipos
        · exact le_of_eq (congrArg Prod.fst heq)
        · have := List.pairwise_iff_getElem.mp hs _ _ hpos (by omega)
            (show l.lowerBound k < l.lowerBound k + i by omega)
          rw [heq] at this
          exact le_of_lt this
      · rw [List.drop_eq_getElem_cons hpos]
        exact List.mem_cons_self
    have hkey : cells l.keys (l.lowerBound k) = k := by
      rw [cells_eq_getElem (by simpa [keys] using hpos)]
      simpa [keys] using hfirst
    simp only [find] at h
    rw [if_pos ⟨hpos, hkey⟩] at h
    exact absurd h (Option.some_ne_none _)
  · intro h
    cases hf : l.find k with
    | none => rfl
    | some pos =>
        obtain ⟨p, hp⟩ := find_eq_some hf
        exact absurd (by rw [hp]; simp) (h p)

theorem find_some_payload {l : Leaf K V} {k : K} {pos : Nat} (h : l.find k = some pos) :
    ∃ p, l.entries[pos]? = some (k, p) ∧ (k, p) ∈ l.entries := by
  obtain ⟨p, hp⟩ := find_eq_some h
  have hlt : pos < l.entries.length := by
    simp only [find, Option.ite_none_right_eq_some] at h
    obtain ⟨⟨hlt, _⟩, hpos⟩ := h
    obtain rfl : l.lowerBound k = pos := by simpa using hpos
    exact hlt
  refine ⟨p, ?_, by rw [hp]; simp⟩
  rw [hp, List.getElem?_append_right (by simp)]
  simp [Nat.min_eq_left (le_of_lt hlt)]

omit [Inhabited K] in
/-- Cells around a key, with that key between them or not, stay sorted. -/
theorem sorted_around {l : Leaf K V} {k : K} {left right : List (K × V)} {middle : List (K × V)}
    (hleft : left.Pairwise (fun a b => a.1 < b.1)) (hright : right.Pairwise (fun a b => a.1 < b.1))
    (hl : ∀ e ∈ left, e.1 < k) (hr : ∀ e ∈ right, k < e.1)
    (hmiddle : middle = [] ∨ ∃ p, middle = [(k, p)]) :
    ({ l with entries := left ++ middle ++ right } : Leaf K V).Sorted := by
  have hcross : ∀ a ∈ left, ∀ b ∈ right, a.1 < b.1 := fun a ha b hb => (hl a ha).trans (hr b hb)
  rcases hmiddle with rfl | ⟨p, rfl⟩
  · simpa [Sorted, List.pairwise_append, hleft, hright] using fun a p ha b q hb =>
      hcross (a, p) ha (b, q) hb
  · simp only [Sorted, List.pairwise_append, List.pairwise_cons, List.mem_append]
    refine ⟨⟨hleft, by simp, ?_⟩, hright, ?_⟩
    · intro a ha b hb
      obtain rfl : b = (k, p) := by simpa using hb
      exact hl a ha
    · rintro a (ha | ha) b hb
      · exact hcross a ha b hb
      · obtain rfl : a = (k, p) := by simpa using ha
        exact hr b hb

/-- Inserting binds the key and leaves every other binding as it is. -/
theorem insert_spec {l : Leaf K V} (hs : l.Sorted) (k : K) (p : V) :
    (l.insert k p).Sorted ∧
      (∀ e, e ∈ (l.insert k p).entries ↔ e = (k, p) ∨ e ∈ l.entries ∧ e.1 ≠ k) ∧
      (l.insert k p).lower = l.lower ∧ (l.insert k p).upper = l.upper ∧
      (l.insert k p).count ≤ l.count + 1 := by
  unfold insert
  split
  · rename_i hcount
    split
    · rename_i pos hf
      obtain ⟨q, hq⟩ := find_eq_some hf
      obtain ⟨hlt, hgt⟩ := find_lt_gt hs hf
      have hleft := List.Pairwise.sublist (List.take_sublist pos l.entries) hs
      have hright := List.Pairwise.sublist (List.drop_sublist (pos + 1) l.entries) hs
      refine ⟨?_, ?_, rfl, rfl, ?_⟩
      · simpa using sorted_around (l := l) hleft hright hlt hgt (Or.inr ⟨p, rfl⟩)
      · intro e
        conv_rhs => rw [hq]
        simp only [List.mem_append, List.mem_cons]
        constructor
        · rintro (he | rfl | he)
          · exact Or.inr ⟨Or.inl he, ne_of_lt (hlt e he)⟩
          · exact Or.inl rfl
          · exact Or.inr ⟨Or.inr (Or.inr he), ne_of_gt (hgt e he)⟩
        · rintro (rfl | ⟨he | rfl | he, hne⟩)
          · exact Or.inr (Or.inl rfl)
          · exact Or.inl he
          · exact absurd rfl hne
          · exact Or.inr (Or.inr he)
      · have hlen := congrArg List.length hq
        simp only [List.length_append, List.length_cons, List.length_take, List.length_drop,
          count] at hlen ⊢
        omega
    · rename_i hf
      obtain ⟨hlt, hge⟩ := lowerBound_take_drop hs hcount k
      have habsent := (find_eq_none_iff hs).mp hf
      have hgt : ∀ e ∈ l.entries.drop (l.lowerBound k), k < e.1 := by
        intro e he
        refine lt_of_le_of_ne (hge e he) ?_
        rintro rfl
        exact habsent e.2 (List.mem_of_mem_drop he)
      have hleft := List.Pairwise.sublist (List.take_sublist (l.lowerBound k) l.entries) hs
      have hright := List.Pairwise.sublist (List.drop_sublist (l.lowerBound k) l.entries) hs
      refine ⟨?_, ?_, rfl, rfl, ?_⟩
      · simpa using sorted_around (l := l) hleft hright hlt hgt (Or.inr ⟨p, rfl⟩)
      · intro e
        have hsplit : e ∈ l.entries ↔ e ∈ l.entries.take (l.lowerBound k) ∨
            e ∈ l.entries.drop (l.lowerBound k) := by
          rw [← List.mem_append, List.take_append_drop]
        simp only [List.mem_append, List.mem_cons, hsplit]
        constructor
        · rintro (he | rfl | he)
          · exact Or.inr ⟨Or.inl he, ne_of_lt (hlt e he)⟩
          · exact Or.inl rfl
          · exact Or.inr ⟨Or.inr he, ne_of_gt (hgt e he)⟩
        · rintro (rfl | ⟨he | he, _⟩)
          · exact Or.inr (Or.inl rfl)
          · exact Or.inl he
          · exact Or.inr (Or.inr he)
      · simp only [List.length_append, List.length_cons, List.length_take, List.length_drop, count]
        omega
  · rename_i hcount
    have hnil : l.entries = [] := List.length_eq_zero_iff.mp (not_not.mp hcount)
    simp [Sorted, hnil, count]

/-- Removing unbinds exactly the key, and the result says whether it was bound. -/
theorem remove_spec {l : Leaf K V} (hs : l.Sorted) (k : K) :
    (l.remove k).1.Sorted ∧
      (∀ e, e ∈ (l.remove k).1.entries ↔ e ∈ l.entries ∧ e.1 ≠ k) ∧
      ((l.remove k).2 = true ↔ ∃ p, (k, p) ∈ l.entries) ∧
      (l.remove k).1.lower = l.lower ∧ (l.remove k).1.upper = l.upper ∧
      (l.remove k).1.count ≤ l.count := by
  have habsent : l.find k = none → (∀ e, e ∈ l.entries ↔ e ∈ l.entries ∧ e.1 ≠ k) ∧
      (false = true ↔ ∃ p, (k, p) ∈ l.entries) := by
    intro hf
    have hnot := (find_eq_none_iff hs).mp hf
    refine ⟨fun e => ⟨fun he => ⟨he, ?_⟩, And.left⟩, ?_⟩
    · rintro rfl
      exact hnot e.2 he
    · simpa using hnot
  unfold remove
  split
  · split
    · rename_i pos hf
      obtain ⟨q, hq⟩ := find_eq_some hf
      obtain ⟨hlt, hgt⟩ := find_lt_gt hs hf
      have hleft := List.Pairwise.sublist (List.take_sublist pos l.entries) hs
      have hright := List.Pairwise.sublist (List.drop_sublist (pos + 1) l.entries) hs
      refine ⟨?_, ?_, ?_, rfl, rfl, ?_⟩
      · simpa using sorted_around (l := l) hleft hright hlt hgt (Or.inl rfl)
      · intro e
        conv_rhs => rw [hq]
        simp only [List.mem_append, List.mem_cons]
        constructor
        · rintro (he | he)
          · exact ⟨Or.inl he, ne_of_lt (hlt e he)⟩
          · exact ⟨Or.inr (Or.inr he), ne_of_gt (hgt e he)⟩
        · rintro ⟨he | rfl | he, hne⟩
          · exact Or.inl he
          · exact absurd rfl hne
          · exact Or.inr he
      · exact ⟨fun _ => ⟨q, by rw [hq]; simp⟩, fun _ => rfl⟩
      · simp only [List.length_append, List.length_take, List.length_drop, count]
        omega
    · rename_i hf
      exact ⟨hs, (habsent hf).1, by simpa using (habsent hf).2, rfl, rfl, le_rfl⟩
  · rename_i hcount
    have hnil : l.entries = [] := List.length_eq_zero_iff.mp (not_not.mp hcount)
    simp [Sorted, hnil, count]

omit [LinearOrder K] [Inhabited K] in
theorem splitCount_eq (l : Leaf K V) : l.splitCount = l.count / 2 := by
  simp only [splitCount]
  omega

/-- The separator belongs to the left half, bounds it from above, and is
smaller than every key of the right half. -/
theorem split_spec {l : Leaf K V} (hs : l.Sorted) (hcount : 2 ≤ l.count) :
    l.splitLeft.Sorted ∧ l.splitRight.Sorted ∧
      (∀ e ∈ l.splitLeft.entries, e.1 ≤ l.splitKey) ∧
      (∀ e ∈ l.splitRight.entries, l.splitKey < e.1) ∧
      (∃ p, (l.splitKey, p) ∈ l.splitLeft.entries) ∧
      l.splitLeft.entries ++ l.splitRight.entries = l.entries := by
  have hsc : l.splitCount = l.count / 2 := splitCount_eq l
  have hlen : l.splitCount - 1 < l.entries.length := by
    have : l.entries.length = l.count := rfl
    omega
  have hkey : l.splitKey = (l.entries[l.splitCount - 1]).1 := by
    rw [splitKey, cells_eq_getElem (by simpa [keys] using hlen)]
    simp [keys]
  have hmono := List.pairwise_iff_getElem.mp hs
  refine ⟨List.Pairwise.sublist (List.take_sublist _ _) hs,
    List.Pairwise.sublist (List.drop_sublist _ _) hs, ?_, ?_, ?_,
    List.take_append_drop _ _⟩
  · intro e he
    obtain ⟨i, hi, rfl⟩ := List.mem_iff_getElem.mp he
    simp only [splitLeft, List.length_take] at hi
    simp only [splitLeft, List.getElem_take, hkey]
    rcases Nat.lt_or_ge i (l.splitCount - 1) with hlt | hge
    · exact le_of_lt (hmono i _ (by omega) hlen hlt)
    · have : i = l.splitCount - 1 := by omega
      subst this
      exact le_rfl
  · intro e he
    obtain ⟨i, hi, rfl⟩ := List.mem_iff_getElem.mp he
    simp only [splitRight, List.length_drop] at hi
    simp only [splitRight, List.getElem_drop, hkey]
    exact hmono _ _ hlen (by omega) (by omega)
  · refine ⟨(l.entries[l.splitCount - 1]).2, ?_⟩
    rw [hkey, splitLeft]
    exact List.mem_take_iff_getElem.mpr ⟨l.splitCount - 1, by omega, rfl⟩

end Leaf

/-! ## Key ranges -/

section Range

variable {K : Type u} [LinearOrder K]

/-- `k` lies in the half-open range `(lower, upper]`. -/
def InRange (lower upper : FenceKey K) (k : K) : Prop :=
  (∀ a ∈ lower, a < k) ∧ ∀ b ∈ upper, k ≤ b

/-- The keys directly above `k` lie in `(lower, upper]`. -/
def InRangeAbove (lower upper : FenceKey K) (k : K) : Prop :=
  (∀ a ∈ lower, a ≤ k) ∧ ∀ b ∈ upper, k < b

/-- A range that is not empty by its fences. -/
def FenceLt (lower upper : FenceKey K) : Prop := ∀ a ∈ lower, ∀ b ∈ upper, a < b

end Range

/-! ## Inner -/

namespace Inner

variable {K : Type u}

def count (n : Inner K) : Nat := n.keys.length

/-- One cell less than the array has, since there is one child more than keys. -/
def isFull (c : Capacity) (n : Inner K) : Bool := n.count == c.inner - 1

/-- The root that `makeRoot` builds above `left` and `right`. -/
def ofPair (k : K) (left right : PID) : Inner K :=
  { lower := none, upper := none, keys := [k], children := [left, right] }

/-- The lower fence of the `i`-th child of a node covering `(lower, _]`. -/
def slotLower (n : Inner K) (lower : FenceKey K) (i : Nat) : FenceKey K :=
  if i = 0 then lower else n.keys[i - 1]?

/-- The upper fence of the `i`-th child of a node covering `(_, upper]`. -/
def slotUpper (n : Inner K) (upper : FenceKey K) (i : Nat) : FenceKey K :=
  if i < n.keys.length then n.keys[i]? else upper

/-- `bool remove(uint64_t pos)`: the key at `pos` and the child behind it. -/
def remove (n : Inner K) (pos : Nat) : Inner K :=
  if pos < n.count then
    { n with
      keys := n.keys.take pos ++ n.keys.drop (pos + 1)
      children := n.children.take (pos + 1) ++ n.children.drop (pos + 2) }
  else n

/-- The number of keys the left node keeps in a split. -/
def splitCount (n : Inner K) : Nat := n.count - (n.count - n.count / 2) - 1

variable [LinearOrder K] [Inhabited K]

def lowerBound (n : Inner K) (k : K) : Nat := Search.lowerBound (cells n.keys) n.count k

def upperBound (n : Inner K) (k : K) : Nat := Search.upperBound (cells n.keys) n.count k

def lowerBoundBF (n : Inner K) (k : K) : Nat := Search.lowerBoundBF (cells n.keys) n.count k

/-- The separator leaves the node: it moves up into the parent. -/
def splitKey (n : Inner K) : K := cells n.keys n.splitCount

def splitLeft (n : Inner K) : Inner K :=
  { lower := n.lower, upper := some n.splitKey, keys := n.keys.take n.splitCount
    children := n.children.take (n.splitCount + 1) }

def splitRight (n : Inner K) : Inner K :=
  { lower := some n.splitKey, upper := n.upper, keys := n.keys.drop (n.splitCount + 1)
    children := n.children.drop (n.splitCount + 1) }

/-- The new child is written in front of the one it was split from and swapped
behind it, so it ends up right of the separator. -/
def insert (n : Inner K) (k : K) (child : PID) : Inner K :=
  let pos := n.lowerBound k
  { n with
    keys := n.keys.take pos ++ k :: n.keys.drop pos
    children := n.children.take (pos + 1) ++ child :: n.children.drop (pos + 1) }

/-- Shape of an inner node that covers `(lower, upper]`: strictly sorted
separators strictly inside the range, and one child more than separators. -/
structure Shape (n : Inner K) (lower upper : FenceKey K) : Prop where
  sorted : n.keys.Pairwise (· < ·)
  keys_pos : 0 < n.keys.length
  length_children : n.children.length = n.keys.length + 1
  lower_lt : ∀ k ∈ n.keys, ∀ a ∈ lower, a < k
  lt_upper : ∀ k ∈ n.keys, ∀ b ∈ upper, k < b

section Shape

variable {n : Inner K} {lower upper : FenceKey K}

theorem Shape.lowerBound_cut (h : n.Shape lower upper) (k : K) :
    Cut (cells n.keys) n.keys.length (· < k) (n.lowerBound k) :=
  Search.lowerBound_cut (sortedTo_cells h.sorted) h.keys_pos k

theorem Shape.upperBound_cut (h : n.Shape lower upper) (k : K) :
    Cut (cells n.keys) n.keys.length (· ≤ k) (n.upperBound k) :=
  Search.upperBound_cut (sortedTo_cells h.sorted) h.keys_pos k

/-- The branch-free descent takes the same child as the other one. -/
theorem Shape.lowerBoundBF_eq (h : n.Shape lower upper) (k : K) :
    n.lowerBoundBF k = n.lowerBound k :=
  Search.lowerBoundBF_eq_lowerBound (sortedTo_cells h.sorted) h.keys_pos k

omit [Inhabited K] in
theorem Shape.key_lt (h : n.Shape lower upper) {i j : Nat} {a b : K} (hij : i < j)
    (hi : n.keys[i]? = some a) (hj : n.keys[j]? = some b) : a < b := by
  obtain ⟨hi', rfl⟩ := List.getElem?_eq_some_iff.mp hi
  obtain ⟨hj', rfl⟩ := List.getElem?_eq_some_iff.mp hj
  exact List.pairwise_iff_getElem.mp h.sorted i j hi' hj' hij

/-- A cut position is a child whose fences lie on the two sides of the cut. -/
theorem Shape.slot_of_cut (_h : n.Shape lower upper) {below : K → Prop} {pos : Nat}
    (hcut : Cut (cells n.keys) n.keys.length below pos) (hlower : ∀ a ∈ lower, below a)
    (hupper : ∀ b ∈ upper, ¬ below b) :
    (∀ a ∈ n.slotLower lower pos, below a) ∧ ∀ b ∈ n.slotUpper upper pos, ¬ below b := by
  constructor
  · intro a ha
    simp only [slotLower] at ha
    split at ha
    · exact hlower a ha
    · obtain ⟨hlt, rfl⟩ := List.getElem?_eq_some_iff.mp ha
      rw [← cells_eq_getElem hlt]
      exact hcut.of_lt _ (by omega)
  · intro b hb
    simp only [slotUpper] at hb
    split at hb
    · obtain ⟨hlt, rfl⟩ := List.getElem?_eq_some_iff.mp hb
      rw [← cells_eq_getElem hlt]
      exact hcut.not_of_le _ le_rfl hlt
    · exact hupper b hb

/-- Descending with `lowerBound` keeps the searched key in range. -/
theorem Shape.inRange_slot (h : n.Shape lower upper) {k : K} (hk : InRange lower upper k) :
    InRange (n.slotLower lower (n.lowerBound k)) (n.slotUpper upper (n.lowerBound k)) k := by
  have hslot := h.slot_of_cut (h.lowerBound_cut k) hk.1 (fun b hb => not_lt.mpr (hk.2 b hb))
  exact ⟨hslot.1, fun b hb => not_lt.mp (hslot.2 b hb)⟩

/-- Descending with `upperBound` keeps the keys directly above the searched one
in range. -/
theorem Shape.inRangeAbove_slot (h : n.Shape lower upper) {k : K}
    (hk : InRangeAbove lower upper k) :
    InRangeAbove (n.slotLower lower (n.upperBound k)) (n.slotUpper upper (n.upperBound k)) k := by
  have hslot := h.slot_of_cut (h.upperBound_cut k) hk.1 (fun b hb => not_le.mpr (hk.2 b hb))
  exact ⟨hslot.1, fun b hb => not_le.mp (hslot.2 b hb)⟩

omit [Inhabited K] in
/-- Every position a search returns holds a child. -/
theorem Shape.child_of_le (h : n.Shape lower upper) {pos : Nat} (hpos : pos ≤ n.keys.length) :
    ∃ c, n.children[pos]? = some c := by
  have hlt : pos < n.children.length := by
    rw [h.length_children]
    omega
  exact ⟨n.children[pos], List.getElem?_eq_getElem hlt⟩

end Shape

end Inner

end ScaleStore.BTree
