/-
# Moving separators in an inner node

What `BTreeInner::insert`, `remove` and `split` do to the *slots* of a node: the
pairs of a child and the range its two enclosing separators give it.  Each
operation is described by where the slots of the new node come from, which is
all that the tree invariant needs to know about the three `memmove`s.
-/

import ScaleStore.BTree.Node

namespace ScaleStore.BTree.Inner

open ScaleStore.Search

universe u

variable {K : Type u} {n : Inner K} {lower upper : FenceKey K}

/-- `child` sits at position `i` of `n`, between the fences `a` and `b`. -/
structure Slot (n : Inner K) (lower upper : FenceKey K) (i : Nat) (child : PID)
    (a b : FenceKey K) : Prop where
  child_eq : n.children[i]? = some child
  lower_eq : n.slotLower lower i = a
  upper_eq : n.slotUpper upper i = b

theorem Slot.lt_length {i : Nat} {c : PID} {a b : FenceKey K} (h : n.Slot lower upper i c a b) :
    i < n.children.length :=
  (List.getElem?_eq_some_iff.mp h.child_eq).1

variable [LinearOrder K]

/-- The fences of a slot are a proper range, since the separators are. -/
theorem Shape.slot_fenceLt (h : n.Shape lower upper) {i : Nat}
    (hi : i ≤ n.keys.length) : FenceLt (n.slotLower lower i) (n.slotUpper upper i) := by
  intro a ha b hb
  simp only [slotLower] at ha
  simp only [slotUpper] at hb
  split at ha <;> split at hb
  · exact h.lower_lt b (List.mem_of_getElem? hb) a ha
  · have := h.keys_pos
    omega
  · exact h.key_lt (by omega) ha hb
  · exact h.lt_upper a (List.mem_of_getElem? ha) b hb

/-- Slots further right start at or above where a slot ends. -/
theorem Shape.slotUpper_le_slotLower (h : n.Shape lower upper) {i j : Nat} (hij : i < j)
    (hj : j ≤ n.keys.length) :
    ∃ a b, n.slotUpper upper i = some a ∧ n.slotLower lower j = some b ∧ a ≤ b := by
  have hi : i < n.keys.length := by omega
  have hj' : j - 1 < n.keys.length := by omega
  refine ⟨n.keys[i], n.keys[j - 1], ?_, ?_, ?_⟩
  · rw [slotUpper, if_pos hi]
    exact List.getElem?_eq_getElem hi
  · rw [slotLower, if_neg (by omega)]
    exact List.getElem?_eq_getElem hj'
  · rcases Nat.lt_or_ge i (j - 1) with hlt | hge
    · exact le_of_lt (List.pairwise_iff_getElem.mp h.sorted i (j - 1) hi hj' hlt)
    · have : i = j - 1 := by omega
      subst this
      exact le_rfl

/-- Slots of one node are told apart by their upper fence. -/
theorem Shape.slotUpper_inj (h : n.Shape lower upper) {i j : Nat}
    (hi : i ≤ n.keys.length) (hj : j ≤ n.keys.length)
    (heq : n.slotUpper upper i = n.slotUpper upper j) : i = j := by
  -- a slot strictly left of another one ends where that one starts or earlier
  have aux : ∀ {i j : Nat}, i < j → j ≤ n.keys.length →
      n.slotUpper upper i ≠ n.slotUpper upper j := by
    intro i j hij hj heq
    obtain ⟨a, b, ha, hb, hab⟩ := h.slotUpper_le_slotLower hij hj
    have := h.slot_fenceLt hj b hb a (heq ▸ ha)
    exact absurd this (not_lt.mpr hab)
  rcases Nat.lt_trichotomy i j with hij | hij | hij
  · exact absurd heq (aux hij hj)
  · exact hij
  · exact absurd heq.symm (aux hij hi)

/-- The range of a slot lies inside the range of the node. -/
theorem Shape.inRange_of_slot (h : n.Shape lower upper) {i : Nat} (hi : i ≤ n.keys.length) {k : K}
    (hk : InRange (n.slotLower lower i) (n.slotUpper upper i) k) : InRange lower upper k := by
  obtain ⟨hlow, hup⟩ := hk
  constructor
  · intro a ha
    rw [slotLower] at hlow
    split at hlow
    · exact hlow a ha
    · have hx := List.getElem?_eq_getElem (show i - 1 < n.keys.length by omega)
      exact (h.lower_lt _ (List.mem_of_getElem? hx) a ha).trans (hlow _ hx)
  · intro b hb
    rw [slotUpper] at hup
    split at hup
    · rename_i hlt
      have hx := List.getElem?_eq_getElem hlt
      exact le_of_lt (lt_of_le_of_lt (hup _ hx) (h.lt_upper _ (List.getElem_mem hlt) b hb))
    · exact hup b hb

/-! ## insert -/

section Insert

variable [Inhabited K]

/-- The search for a key ends in the slot whose range holds it. -/
theorem Shape.lowerBound_eq_of_inRange (h : n.Shape lower upper) {i : Nat}
    (hi : i ≤ n.keys.length) {k : K}
    (hk : InRange (n.slotLower lower i) (n.slotUpper upper i) k) : n.lowerBound k = i := by
  have hpos := (h.lowerBound_cut k).le_count
  have hown := h.inRange_slot (h.inRange_of_slot hi hk)
  rcases Nat.lt_trichotomy (n.lowerBound k) i with hlt | heq | hgt
  · obtain ⟨a, b, ha, hb, hab⟩ := h.slotUpper_le_slotLower hlt hi
    exact absurd (hk.1 b hb) (not_lt.mpr ((hown.2 a ha).trans hab))
  · exact heq
  · obtain ⟨a, b, ha, hb, hab⟩ := h.slotUpper_le_slotLower hgt hpos
    exact absurd (hown.1 b hb) (not_lt.mpr ((hk.2 a ha).trans hab))

/-- The slots after inserting `k` with `child`: the slot `k` falls into is cut
in two, with the new child on the right; all others are kept. -/
theorem insert_slot (h : n.Shape lower upper) {k : K} {child : PID} {i : Nat} {c : PID}
    {a b : FenceKey K} (hslot : (n.insert k child).Slot lower upper i c a b) :
    (∃ j, j ≠ n.lowerBound k ∧ n.Slot lower upper j c a b) ∨
      (b = some k ∧ n.Slot lower upper (n.lowerBound k) c a (n.slotUpper upper (n.lowerBound k))) ∨
      (c = child ∧ a = some k ∧ b = n.slotUpper upper (n.lowerBound k)) := by
  obtain ⟨hc, ha, hb⟩ := hslot
  have hpos : n.lowerBound k ≤ n.keys.length := (h.lowerBound_cut k).le_count
  have hlen := h.length_children
  generalize hp : n.lowerBound k = pos at *
  have hkeys : (n.insert k child).keys = n.keys.take pos ++ k :: n.keys.drop pos := by
    simp [insert, hp]
  have hchildren : (n.insert k child).children =
      n.children.take (pos + 1) ++ child :: n.children.drop (pos + 1) := by
    simp [insert, hp]
  have htake : (n.children.take (pos + 1)).length = pos + 1 := by
    rw [List.length_take, hlen]
    omega
  have hktake : (n.keys.take pos).length = pos := by
    rw [List.length_take]
    omega
  have hklen : (n.insert k child).keys.length = n.keys.length + 1 := by
    rw [hkeys]
    simp only [List.length_append, List.length_cons, List.length_take, List.length_drop]
    omega
  -- the keys of the new node by position
  have hkey_lt : ∀ j, j < pos → (n.insert k child).keys[j]? = n.keys[j]? := by
    intro j hj
    rw [hkeys, List.getElem?_append_left (by omega), List.getElem?_take_of_lt hj]
  have hkey_eq : (n.insert k child).keys[pos]? = some k := by
    rw [hkeys, List.getElem?_append_right (by omega), hktake, Nat.sub_self]
    rfl
  have hkey_gt : ∀ j, pos < j → (n.insert k child).keys[j]? = n.keys[j - 1]? := by
    intro j hj
    obtain ⟨m, rfl⟩ : ∃ m, j = pos + 1 + m := ⟨j - (pos + 1), by omega⟩
    rw [hkeys, List.getElem?_append_right (by omega), hktake,
      show pos + 1 + m - pos = m + 1 by omega, List.getElem?_cons_succ, List.getElem?_drop,
      show pos + 1 + m - 1 = pos + m by omega]
  rw [slotLower] at ha
  rw [slotUpper, hklen] at hb
  rw [hchildren] at hc
  rcases Nat.lt_trichotomy i (pos + 1) with hi | hi | hi
  · rw [List.getElem?_append_left (by omega), List.getElem?_take_of_lt hi] at hc
    have halow : n.slotLower lower i = a := by
      rw [slotLower, ← ha]
      split
      · rfl
      · exact (hkey_lt (i - 1) (by omega)).symm
    rcases Nat.lt_or_ge i pos with hlt | hge
    · refine Or.inl ⟨i, by omega, hc, halow, ?_⟩
      rw [slotUpper, if_pos (by omega), ← hb, if_pos (by omega), hkey_lt i hlt]
    · have hieq : i = pos := by omega
      subst hieq
      refine Or.inr (Or.inl ⟨?_, hc, halow, rfl⟩)
      rw [← hb, if_pos (by omega), hkey_eq]
  · subst hi
    rw [List.getElem?_append_right (by omega), htake, Nat.sub_self] at hc
    refine Or.inr (Or.inr ⟨by simpa using hc.symm, ?_, ?_⟩)
    · rw [← ha, if_neg (by omega)]
      exact hkey_eq
    · rw [← hb, slotUpper]
      split <;> split
      · rw [hkey_gt _ (by omega)]
        rfl
      · omega
      · omega
      · rfl
  · obtain ⟨m, rfl⟩ : ∃ m, i = pos + 2 + m := ⟨i - (pos + 2), by omega⟩
    rw [List.getElem?_append_right (by omega), htake,
      show pos + 2 + m - (pos + 1) = m + 1 by omega, List.getElem?_cons_succ,
      List.getElem?_drop] at hc
    refine Or.inl ⟨pos + 1 + m, by omega, hc, ?_, ?_⟩
    · rw [slotLower, if_neg (by omega), ← ha, if_neg (by omega), hkey_gt _ (by omega)]
      exact congrArg (n.keys[·]?) (by omega)
    · rw [slotUpper, ← hb]
      split <;> split
      · rw [hkey_gt _ (by omega)]
        exact congrArg (n.keys[·]?) (by omega)
      · omega
      · omega
      · rfl

/-- Inserting a separator that lies strictly inside the slot it falls into keeps
the shape. -/
theorem insert_shape (h : n.Shape lower upper) {k : K} {child : PID}
    (hlow : ∀ a ∈ n.slotLower lower (n.lowerBound k), a < k)
    (hup : ∀ b ∈ n.slotUpper upper (n.lowerBound k), k < b) :
    (n.insert k child).Shape lower upper ∧ (n.insert k child).count = n.count + 1 := by
  have hcut := h.lowerBound_cut k
  have hlen := h.length_children
  -- everything right of the cut is larger than the new separator
  have hgt : ∀ x ∈ n.keys.drop (n.lowerBound k), k < x := by
    intro x hx
    refine lt_of_le_of_ne (not_lt.mp (hcut.not_of_mem_drop hx)) ?_
    rintro rfl
    obtain ⟨i, hi, hieq⟩ := List.mem_iff_getElem.mp hx
    rw [List.length_drop] at hi
    rw [List.getElem_drop] at hieq
    have hfirst : n.slotUpper upper (n.lowerBound k) = some (n.keys[n.lowerBound k]) := by
      rw [slotUpper, if_pos (by omega)]
      exact List.getElem?_eq_getElem (by omega)
    have hlt := hup _ hfirst
    rcases Nat.eq_zero_or_pos i with rfl | hipos
    · exact absurd hlt (not_lt.mpr (le_of_eq hieq))
    · have := List.pairwise_iff_getElem.mp h.sorted (n.lowerBound k) (n.lowerBound k + i)
        (by omega) (by omega) (by omega)
      rw [hieq] at this
      exact absurd hlt (not_lt.mpr (le_of_lt this))
  have hltk : ∀ x ∈ n.keys.take (n.lowerBound k), x < k := fun x hx => hcut.of_mem_take hx
  have hmem : ∀ x ∈ (n.insert k child).keys, x = k ∨ x ∈ n.keys := by
    intro x hx
    simp only [insert, List.mem_append, List.mem_cons] at hx
    rcases hx with hx | rfl | hx
    · exact Or.inr (List.mem_of_mem_take hx)
    · exact Or.inl rfl
    · exact Or.inr (List.mem_of_mem_drop hx)
  have hkl : ∀ a ∈ lower, a < k := by
    intro a ha
    rcases Nat.eq_zero_or_pos (n.lowerBound k) with hz | hp
    · exact hlow a (by rw [slotLower, if_pos hz]; exact ha)
    · have hlt : n.lowerBound k - 1 < n.keys.length := by
        have := hcut.le_count
        omega
      have hk : n.keys[n.lowerBound k - 1] < k := by
        rw [← cells_eq_getElem hlt]
        exact hcut.of_lt _ (by omega)
      exact (h.lower_lt _ (List.getElem_mem hlt) a ha).trans hk
  have hku : ∀ b ∈ upper, k < b := by
    intro b hb
    rcases Nat.lt_or_ge (n.lowerBound k) n.keys.length with hlt | hge
    · have hk : k < n.keys[n.lowerBound k] := by
        refine hup _ ?_
        rw [slotUpper, if_pos hlt]
        exact List.getElem?_eq_getElem hlt
      exact hk.trans (h.lt_upper _ (List.getElem_mem hlt) b hb)
    · exact hup b (by rw [slotUpper, if_neg (by omega)]; exact hb)
  have hkeyslen : (n.insert k child).keys.length = n.keys.length + 1 := by
    have := hcut.le_count
    simp only [insert, List.length_append, List.length_cons, List.length_take, List.length_drop]
    omega
  refine ⟨⟨?_, by omega, ?_, ?_, ?_⟩, hkeyslen⟩
  · simp only [insert, List.pairwise_append, List.pairwise_cons, List.mem_cons]
    refine ⟨h.sorted.sublist (List.take_sublist _ _),
      ⟨hgt, h.sorted.sublist (List.drop_sublist _ _)⟩, ?_⟩
    rintro x hx y (rfl | hy)
    · exact hltk x hx
    · exact (hltk x hx).trans (hgt y hy)
  · rw [hkeyslen]
    have := hcut.le_count
    simp only [insert, List.length_append, List.length_cons, List.length_take, List.length_drop]
    omega
  · intro x hx a ha
    rcases hmem x hx with rfl | hx
    · exact hkl a ha
    · exact h.lower_lt x hx a ha
  · intro x hx b hb
    rcases hmem x hx with rfl | hx
    · exact hku b hb
    · exact h.lt_upper x hx b hb

end Insert

/-! ## remove -/

/-- The slots after removing the key at `pos`: the two slots around it become
one, held by the left child; all others are kept. -/
theorem remove_slot (h : n.Shape lower upper) {pos i : Nat} (hpos : pos < n.keys.length) {c : PID}
    {a b : FenceKey K} (hslot : (n.remove pos).Slot lower upper i c a b) :
    (∃ j, j ≠ pos ∧ j ≠ pos + 1 ∧ n.Slot lower upper j c a b) ∨
      (n.Slot lower upper pos c a (n.slotUpper upper pos) ∧
        b = n.slotUpper upper (pos + 1)) := by
  obtain ⟨hc, ha, hb⟩ := hslot
  have hlen := h.length_children
  have hkeys : (n.remove pos).keys = n.keys.take pos ++ n.keys.drop (pos + 1) := by
    simp [remove, count, hpos]
  have hchildren : (n.remove pos).children =
      n.children.take (pos + 1) ++ n.children.drop (pos + 2) := by
    simp [remove, count, hpos]
  have htake : (n.children.take (pos + 1)).length = pos + 1 := by
    rw [List.length_take, hlen]
    omega
  have hktake : (n.keys.take pos).length = pos := by
    rw [List.length_take]
    omega
  have hklen : (n.remove pos).keys.length = n.keys.length - 1 := by
    rw [hkeys]
    simp only [List.length_append, List.length_take, List.length_drop]
    omega
  have hkey_lt : ∀ j, j < pos → (n.remove pos).keys[j]? = n.keys[j]? := by
    intro j hj
    rw [hkeys, List.getElem?_append_left (by omega), List.getElem?_take_of_lt hj]
  have hkey_ge : ∀ j, pos ≤ j → (n.remove pos).keys[j]? = n.keys[j + 1]? := by
    intro j hj
    rw [hkeys, List.getElem?_append_right (by omega), hktake, List.getElem?_drop]
    exact congrArg (n.keys[·]?) (by omega)
  rw [slotLower] at ha
  rw [slotUpper, hklen] at hb
  rw [hchildren] at hc
  rcases Nat.lt_or_ge i (pos + 1) with hi | hi
  · rw [List.getElem?_append_left (by omega), List.getElem?_take_of_lt hi] at hc
    have halow : n.slotLower lower i = a := by
      rw [slotLower, ← ha]
      split
      · rfl
      · exact (hkey_lt (i - 1) (by omega)).symm
    rcases Nat.lt_or_ge i pos with hlt | hge
    · refine Or.inl ⟨i, by omega, by omega, hc, halow, ?_⟩
      rw [slotUpper, if_pos (by omega), ← hb, if_pos (by omega), hkey_lt i hlt]
    · have hieq : i = pos := by omega
      subst hieq
      refine Or.inr ⟨⟨hc, halow, rfl⟩, ?_⟩
      rw [← hb, slotUpper]
      split <;> split
      · exact hkey_ge _ le_rfl
      · omega
      · omega
      · rfl
  · rw [List.getElem?_append_right (by omega), htake, List.getElem?_drop,
      show pos + 2 + (i - (pos + 1)) = i + 1 by omega] at hc
    refine Or.inl ⟨i + 1, by omega, by omega, hc, ?_, ?_⟩
    · rw [slotLower, if_neg (by omega), ← ha, if_neg (by omega), hkey_ge _ (by omega)]
      exact congrArg (n.keys[·]?) (by omega)
    · rw [slotUpper, ← hb]
      split <;> split
      · exact (hkey_ge _ (by omega)).symm
      · omega
      · omega
      · rfl

theorem remove_shape (h : n.Shape lower upper) {pos : Nat} (hpos : pos < n.keys.length)
    (htwo : 2 ≤ n.keys.length) :
    (n.remove pos).Shape lower upper ∧ (n.remove pos).count = n.count - 1 := by
  have hlen := h.length_children
  have hkeys : (n.remove pos).keys = n.keys.take pos ++ n.keys.drop (pos + 1) := by
    simp [remove, count, hpos]
  have hchildren : (n.remove pos).children =
      n.children.take (pos + 1) ++ n.children.drop (pos + 2) := by
    simp [remove, count, hpos]
  have hmem : ∀ x ∈ (n.remove pos).keys, x ∈ n.keys := by
    intro x hx
    rw [hkeys, List.mem_append] at hx
    exact hx.elim List.mem_of_mem_take List.mem_of_mem_drop
  have hklen : (n.remove pos).keys.length = n.keys.length - 1 := by
    rw [hkeys]
    simp only [List.length_append, List.length_take, List.length_drop]
    omega
  refine ⟨⟨?_, by omega, ?_, fun k hk => h.lower_lt k (hmem k hk),
    fun k hk => h.lt_upper k (hmem k hk)⟩, hklen⟩
  · rw [hkeys, ← List.eraseIdx_eq_take_drop_succ]
    exact h.sorted.sublist (List.eraseIdx_sublist _ _)
  · rw [hchildren, hklen]
    simp only [List.length_append, List.length_take, List.length_drop]
    omega

/-! ## split -/

section Split

variable [Inhabited K]

omit [LinearOrder K] in
theorem splitKey_eq (hcount : 4 ≤ n.count) : n.keys[n.splitCount]? = some n.splitKey := by
  have hlt : n.splitCount < n.keys.length := by
    simp only [splitCount, count] at *
    omega
  rw [splitKey, cells_eq_getElem hlt]
  exact List.getElem?_eq_getElem hlt

theorem splitLeft_shape (h : n.Shape lower upper) (hcount : 4 ≤ n.count) :
    n.splitLeft.Shape lower (some n.splitKey) := by
  have hlen := h.length_children
  have hsc : n.splitCount = n.keys.length / 2 - 1 := by
    simp only [splitCount, count]
    omega
  have hc : 4 ≤ n.keys.length := hcount
  refine ⟨h.sorted.sublist (List.take_sublist _ _), ?_, ?_, ?_, ?_⟩
  · simp only [splitLeft, List.length_take]
    omega
  · simp only [splitLeft, List.length_take]
    omega
  · intro k hk
    exact h.lower_lt k (List.mem_of_mem_take hk)
  · intro k hk b hb
    obtain rfl : n.splitKey = b := by simpa using hb
    obtain ⟨i, hi, rfl⟩ := List.mem_take_iff_getElem.mp hk
    exact h.key_lt (by omega) (List.getElem?_eq_getElem (by omega)) (splitKey_eq hcount)

theorem splitRight_shape (h : n.Shape lower upper) (hcount : 4 ≤ n.count) :
    n.splitRight.Shape (some n.splitKey) upper := by
  have hlen := h.length_children
  have hsc : n.splitCount = n.keys.length / 2 - 1 := by
    simp only [splitCount, count]
    omega
  have hc : 4 ≤ n.keys.length := hcount
  refine ⟨h.sorted.sublist (List.drop_sublist _ _), ?_, ?_, ?_, ?_⟩
  · simp only [splitRight, List.length_drop]
    omega
  · simp only [splitRight, List.length_drop]
    omega
  · intro k hk a ha
    obtain rfl : n.splitKey = a := by simpa using ha
    obtain ⟨i, hi, rfl⟩ := List.mem_iff_getElem.mp hk
    simp only [splitRight, List.length_drop] at hi
    simp only [splitRight, List.getElem_drop]
    exact h.key_lt (show n.splitCount < n.splitCount + 1 + i by omega) (splitKey_eq hcount)
      (List.getElem?_eq_getElem (by omega))
  · intro k hk
    exact h.lt_upper k (List.mem_of_mem_drop hk)

omit [LinearOrder K] in
/-- Every slot of the left half was a slot of the node. -/
theorem splitLeft_slot (hcount : 4 ≤ n.count) {i : Nat} {c : PID} {a b : FenceKey K}
    (hslot : n.splitLeft.Slot lower (some n.splitKey) i c a b) :
    n.Slot lower upper i c a b := by
  obtain ⟨hc, ha, hb⟩ := hslot
  have hsc : n.splitCount = n.keys.length / 2 - 1 := by
    simp only [splitCount, count]
    omega
  have hcnt : 4 ≤ n.keys.length := hcount
  have hi : i < n.splitCount + 1 := by
    have := (List.getElem?_eq_some_iff.mp hc).1
    simp only [splitLeft, List.length_take] at this
    omega
  have hkey : ∀ j, j < n.splitCount → n.splitLeft.keys[j]? = n.keys[j]? := fun j hj =>
    List.getElem?_take_of_lt hj
  have hklen : n.splitLeft.keys.length = n.splitCount := by
    simp only [splitLeft, List.length_take]
    omega
  refine ⟨?_, ?_, ?_⟩
  · rw [← hc]
    exact (List.getElem?_take_of_lt hi).symm
  · rw [← ha, slotLower, slotLower]
    split
    · rfl
    · exact (hkey _ (by omega)).symm
  · rw [← hb, slotUpper, slotUpper, hklen, if_pos (by omega)]
    split
    · exact (hkey _ ‹_›).symm
    · have : i = n.splitCount := by omega
      subst this
      exact splitKey_eq hcount

omit [LinearOrder K] in
/-- Every slot of the right half was a slot of the node. -/
theorem splitRight_slot (hcount : 4 ≤ n.count) {i : Nat} {c : PID} {a b : FenceKey K}
    (hslot : n.splitRight.Slot (some n.splitKey) upper i c a b) :
    n.Slot lower upper (n.splitCount + 1 + i) c a b := by
  obtain ⟨hc, ha, hb⟩ := hslot
  have hkey : ∀ j, n.splitRight.keys[j]? = n.keys[n.splitCount + 1 + j]? := fun j =>
    List.getElem?_drop
  have hklen : n.splitRight.keys.length = n.keys.length - (n.splitCount + 1) := by
    simp only [splitRight, List.length_drop]
  refine ⟨?_, ?_, ?_⟩
  · rw [← hc]
    exact List.getElem?_drop.symm
  · rw [← ha, slotLower, slotLower, if_neg (by omega)]
    split
    · rename_i hz
      subst hz
      exact splitKey_eq hcount
    · rw [hkey]
      exact congrArg (n.keys[·]?) (by omega)
  · rw [← hb, slotUpper, slotUpper, hklen]
    split <;> split
    · exact (hkey _).symm
    · omega
    · omega
    · rfl

end Split

end ScaleStore.BTree.Inner
