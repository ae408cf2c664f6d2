/-
# Finite ordered maps

A finite map over a totally ordered key type, kept as the strictly sorted list
of its entries.  Since the list is determined by its members, two descriptions
of the same bindings give the same list, and a range of the map is a filter.
-/

import Mathlib.Data.List.Sort

namespace ScaleStore

universe u v

/-- A finite map, as its entries in strictly increasing key order. -/
structure OrderedMap (K : Type u) (V : Type v) [LinearOrder K] where
  entries : List (K × V)
  sorted : entries.Pairwise (fun a b => a.1 < b.1)

namespace OrderedMap

variable {K : Type u} {V : Type v} [LinearOrder K]

/-- Strictly sorted lists with the same members are equal. -/
theorem entries_ext {xs ys : List (K × V)} (hx : xs.Pairwise (fun a b => a.1 < b.1))
    (hy : ys.Pairwise (fun a b => a.1 < b.1)) (hmem : ∀ e, e ∈ xs ↔ e ∈ ys) : xs = ys := by
  have : Std.Irrefl (fun a b : K × V => a.1 < b.1) := ⟨fun a => lt_irrefl a.1⟩
  have : Std.Antisymm (fun a b : K × V => a.1 < b.1) := ⟨fun a b h h' => absurd h (lt_asymm h')⟩
  exact hx.eq_of_mem_iff hy hmem

/-- A strictly sorted list binds a key at most once. -/
theorem sorted_unique {xs : List (K × V)} (hx : xs.Pairwise (fun a b => a.1 < b.1)) {k : K}
    {v w : V} (hv : (k, v) ∈ xs) (hw : (k, w) ∈ xs) : v = w := by
  obtain ⟨i, hi, hvi⟩ := List.mem_iff_getElem.mp hv
  obtain ⟨j, hj, hwj⟩ := List.mem_iff_getElem.mp hw
  have hmono := List.pairwise_iff_getElem.mp hx
  rcases Nat.lt_trichotomy i j with hij | rfl | hij
  · have := hmono i j hi hj hij
    simp [hvi, hwj] at this
  · simpa using hvi.symm.trans hwj
  · have := hmono j i hj hi hij
    simp [hvi, hwj] at this

def empty : OrderedMap K V := ⟨[], List.Pairwise.nil⟩

/-- The value of a key, if it is bound. -/
def find (m : OrderedMap K V) (k : K) : Option V :=
  (m.entries.find? (fun e => e.1 = k)).map Prod.snd

def insert (m : OrderedMap K V) (k : K) (v : V) : OrderedMap K V where
  entries := m.entries.filter (fun e => e.1 < k) ++ (k, v) :: m.entries.filter (fun e => k < e.1)
  sorted := by
    refine List.pairwise_append.mpr ⟨m.sorted.filter _,
      List.pairwise_cons.mpr ⟨?_, m.sorted.filter _⟩, ?_⟩
    · intro e he
      simpa using (List.mem_filter.mp he).2
    · intro a ha b hb
      have ha' : a.1 < k := by simpa using (List.mem_filter.mp ha).2
      rcases List.mem_cons.mp hb with rfl | hb
      · exact ha'
      · exact ha'.trans (by simpa using (List.mem_filter.mp hb).2)

def erase (m : OrderedMap K V) (k : K) : OrderedMap K V where
  entries := m.entries.filter (fun e => e.1 ≠ k)
  sorted := m.sorted.filter _

/-- The entries with a key of at least `k`, in increasing order. -/
def onward (m : OrderedMap K V) (k : K) : List (K × V) := m.entries.filter (fun e => k ≤ e.1)

/-- The entries with a key above `k`, in increasing order. -/
def above (m : OrderedMap K V) (k : K) : List (K × V) := m.entries.filter (fun e => k < e.1)

/-- The entries with a key of at most `k`, in increasing order. -/
def upTo (m : OrderedMap K V) (k : K) : List (K × V) := m.entries.filter (fun e => e.1 ≤ k)

@[simp] theorem mem_insert (m : OrderedMap K V) (k : K) (v : V) (e : K × V) :
    e ∈ (m.insert k v).entries ↔ e = (k, v) ∨ e ∈ m.entries ∧ e.1 ≠ k := by
  simp only [insert, List.mem_append, List.mem_cons, List.mem_filter, decide_eq_true_eq]
  constructor
  · rintro (⟨he, hlt⟩ | rfl | ⟨he, hgt⟩)
    · exact Or.inr ⟨he, ne_of_lt hlt⟩
    · exact Or.inl rfl
    · exact Or.inr ⟨he, ne_of_gt hgt⟩
  · rintro (rfl | ⟨he, hne⟩)
    · exact Or.inr (Or.inl rfl)
    · rcases lt_or_gt_of_ne hne with hlt | hgt
      · exact Or.inl ⟨he, hlt⟩
      · exact Or.inr (Or.inr ⟨he, hgt⟩)

@[simp] theorem mem_erase (m : OrderedMap K V) (k : K) (e : K × V) :
    e ∈ (m.erase k).entries ↔ e ∈ m.entries ∧ e.1 ≠ k := by
  simp [erase]

theorem find_eq_some_iff (m : OrderedMap K V) (k : K) (v : V) :
    m.find k = some v ↔ (k, v) ∈ m.entries := by
  constructor
  · intro h
    obtain ⟨e, he, rfl⟩ := Option.map_eq_some_iff.mp h
    have hk : e.1 = k := by simpa using List.find?_some he
    subst hk
    exact List.mem_of_find?_eq_some he
  · intro h
    cases hf : m.entries.find? (fun e => e.1 = k) with
    | none =>
        have := List.find?_eq_none.mp hf _ h
        simp at this
    | some e =>
        have hk : e.1 = k := by simpa using List.find?_some hf
        subst hk
        rw [find, hf, Option.map_some, sorted_unique m.sorted (List.mem_of_find?_eq_some hf) h]

theorem find_eq_none_iff (m : OrderedMap K V) (k : K) :
    m.find k = none ↔ ∀ v, (k, v) ∉ m.entries := by
  rw [Option.eq_none_iff_forall_ne_some]
  exact forall_congr' fun v => not_congr (m.find_eq_some_iff k v)

/-- Inserting sets the binding of the key and leaves all others unchanged. -/
theorem find_insert (m : OrderedMap K V) (k : K) (v : V) (j : K) :
    (m.insert k v).find j = if j = k then some v else m.find j := by
  refine Option.ext fun w => ?_
  rw [find_eq_some_iff, mem_insert]
  split
  · rename_i hjk
    simp [hjk, eq_comm]
  · rename_i hjk
    simp [hjk, find_eq_some_iff]

/-- Erasing unbinds the key and leaves all others unchanged. -/
theorem find_erase (m : OrderedMap K V) (k j : K) :
    (m.erase k).find j = if j = k then none else m.find j := by
  refine Option.ext fun w => ?_
  rw [find_eq_some_iff, mem_erase]
  split
  · rename_i hjk
    simp [hjk]
  · rename_i hjk
    simp [hjk, find_eq_some_iff]

end OrderedMap

end ScaleStore
