/-
# Operations on a sound node stay inside its arrays

A node is sound for a key range if it is not larger than its arrays and its keys are
sorted and lie in the range.  An inner node may have no keys at all, after a split of
a small one; a search then compares with the stale key in front, which is the upper
end of the range.

For each operation one theorem says that its accesses are inside and that what it
leaves is sound again.
-/

import ScaleStore.BTree.NodeArrays

namespace ScaleStore.BTree

open ScaleStore.Search (SortedTo Cut insertAt removeAt)

variable {K V : Type} [LinearOrder K] {c : ArraySizes} {lower upper : FenceKey K} {k : K}

/-! ## Leaves -/

structure BTreeLeaf.Sound (c : ArraySizes) (l : BTreeLeaf K V) (lower upper : FenceKey K) :
    Prop where
  count_le : l.count ≤ c.leaf
  sorted : SortedTo l.keys l.count
  mem : ∀ i, i < l.count → InRange lower upper (l.keys i)

namespace BTreeLeaf

variable {l right : BTreeLeaf K V} {p : V} {pos : Nat}

theorem Sound.cut (h : l.Sound c lower upper) (hcount : l.count ≠ 0) :
    Cut l.keys l.count (· < k) (Search.lowerBound l.keys l.count k) :=
  Search.lowerBound_cut h.sorted (Nat.pos_of_ne_zero hcount) k

theorem Sound.safe_lowerBound (h : l.Sound c lower upper) :
    (lowerBound c.leaf l.keys l.count k).Safe :=
  BTree.safe_lowerBound k c.leaf_pos h.count_le

/-- A search does not end behind the array, unless the array is used up and its last key is below.
An array of one cell counts as used up: its only key is looked at even if it is stale. -/
theorem Sound.lowerBound_lt_iff (h : l.Sound c lower upper) (k : K) :
    Search.lowerBound l.keys l.count k < c.leaf ↔
      (l.count = c.leaf ∨ c.leaf = 1 → k ≤ l.keys (c.leaf - 1)) := by
  have hpos := c.leaf_pos
  have hle := h.count_le
  rcases Nat.eq_zero_or_pos l.count with hzero | hne
  · rw [hzero, lowerBound_zero]
    by_cases hone : c.leaf = 1
    · rw [hone]
      split <;> simp_all
    · split <;> omega
  · have hcut := h.cut (k := k) hne.ne'
    have hcount := hcut.le_count
    by_cases hfull : l.count = c.leaf
    · constructor
      · exact fun hlt _ => not_lt.mp (hcut.not_of_le (c.leaf - 1) (by omega) (by omega))
      · intro hlast
        by_contra hge
        exact absurd (hlast (.inl hfull)) (not_le.mpr (hcut.of_lt (c.leaf - 1) (by omega)))
    · omega

theorem Sound.safe_holds (h : l.Sound c lower upper) : (l.holds c pos k).Safe := by
  simp only [holds, Traced.safe_ite, Traced.safe_bind, safe_readCell, Traced.safe_pure, and_true,
    implies_true]
  exact fun hlt => hlt.trans_le h.count_le

theorem value_holds : (l.holds c pos k).value = decide (pos < l.count ∧ l.keys pos = k) := by
  unfold holds
  split <;> simp_all

theorem Sound.remove (h : l.Sound c lower upper) :
    (l.remove c k).Safe ∧ (l.remove c k).value.1.Sound c lower upper := by
  unfold BTreeLeaf.remove
  split
  case isTrue => exact ⟨Traced.safe_pure _, h⟩
  case isFalse hcount =>
    have hle := h.count_le
    rw [Traced.safe_bind, Traced.value_bind, value_lowerBound, Traced.safe_bind, Traced.value_bind,
      value_holds]
    generalize Search.lowerBound l.keys l.count k = pos
    by_cases hfound : pos < l.count ∧ l.keys pos = k
    · rw [decide_eq_true hfound, if_pos rfl]
      have hcount' : (l.count + (2 ^ 16 - 1)) % 2 ^ 16 = l.count - 1 := by
        have := c.leaf_lt
        omega
      refine ⟨⟨h.safe_lowerBound, h.safe_holds, ?_⟩, ?_⟩
      · simp only [Traced.safe_bind, safe_moveBlock, Traced.safe_pure, and_true]
        omega
      · have hkeys : ∀ i, i < l.count - 1 → (moveBlock c.leaf l.keys pos (pos + 1)
            ((l.count : Int) - (pos + 1 : Nat))).value i = removeAt l.keys pos i :=
          fun i hi => Search.removeAt_move (by omega)
        constructor
        case count_le =>
          show (l.count + (2 ^ 16 - 1)) % 2 ^ 16 ≤ c.leaf
          omega
        case sorted =>
          show SortedTo _ ((l.count + (2 ^ 16 - 1)) % 2 ^ 16)
          rw [hcount']
          exact h.sorted.removeAt.congr hkeys
        case mem =>
          show ∀ i, i < (l.count + (2 ^ 16 - 1)) % 2 ^ 16 → _
          rw [hcount']
          intro i hi
          exact (congrArg (InRange lower upper) (hkeys i hi)).mpr (Search.removeAt_forall h.mem hi)
    · rw [decide_eq_false hfound, if_neg Bool.false_ne_true]
      exact ⟨⟨h.safe_lowerBound, h.safe_holds, Traced.safe_pure _⟩, h⟩

theorem Sound.insert (h : l.Sound c lower upper) (hlt : l.count < c.leaf)
    (hk : InRange lower upper k) :
    (l.insert c k p).Safe ∧ (l.insert c k p).value.Sound c lower upper := by
  have hcount' : (l.count + 1) % 2 ^ 16 = l.count + 1 := by
    have := c.leaf_lt
    omega
  unfold BTreeLeaf.insert
  split
  case isTrue hzero =>
    refine ⟨?_, ?_⟩
    · simp only [Traced.safe_bind, safe_writeCell, Traced.safe_pure, and_true, c.leaf_pos]
    · have hone : (l.count + 1) % 2 ^ 16 = 1 := by rw [hcount', hzero]
      constructor
      case count_le => exact hone.trans_le c.leaf_pos
      case sorted =>
        show SortedTo _ ((l.count + 1) % 2 ^ 16)
        rw [hone]
        intro i j hij hj
        omega
      case mem =>
        show ∀ i, i < (l.count + 1) % 2 ^ 16 → _
        rw [hone]
        intro i hi
        obtain rfl := Nat.lt_one_iff.mp hi
        exact (Function.update_self 0 k l.keys).symm ▸ hk
  case isFalse hzero =>
    have hcut := h.cut (k := k) hzero
    rw [Traced.safe_bind, Traced.value_bind, value_lowerBound, Traced.safe_bind, Traced.value_bind,
      value_holds]
    generalize Search.lowerBound l.keys l.count k = pos at hcut
    have hpos := hcut.le_count
    by_cases hfound : pos < l.count ∧ l.keys pos = k
    · rw [decide_eq_true hfound, if_pos rfl]
      refine ⟨⟨h.safe_lowerBound, h.safe_holds, ?_⟩, h.count_le, h.sorted, h.mem⟩
      simp only [Traced.safe_bind, safe_writeCell, Traced.safe_pure, and_true]
      omega
    · rw [decide_eq_false hfound, if_neg Bool.false_ne_true]
      have hkeys : ∀ i, i < l.count + 1 → Function.update (moveBlock c.leaf l.keys (pos + 1) pos
          ((l.count : Int) - pos)).value pos k i = insertAt l.keys pos k i :=
        fun i hi => Search.insertAt_move hpos (by omega)
      have hne : pos < l.count → l.keys pos ≠ k := fun hlt' heq => hfound ⟨hlt', heq⟩
      refine ⟨⟨h.safe_lowerBound, h.safe_holds, ?_⟩, ?_⟩
      · simp only [Traced.safe_bind, safe_moveBlock, safe_writeCell, Traced.safe_pure, and_true]
        omega
      · constructor
        case count_le => exact hcount'.trans_le hlt
        case sorted =>
          show SortedTo _ ((l.count + 1) % 2 ^ 16)
          rw [hcount']
          exact (h.sorted.insertAt hpos hcut.of_lt fun i hle hi =>
            hcut.lt_of_ne h.sorted hne hle hi).congr hkeys
        case mem =>
          show ∀ i, i < (l.count + 1) % 2 ^ 16 → _
          rw [hcount']
          intro i hi
          exact (congrArg (InRange lower upper) (hkeys i hi)).mpr
            (Search.insertAt_forall h.mem hk hi hpos)

omit [LinearOrder K] in
/-- The separator is the key in front of the right half. -/
theorem split_safe_iff (fresh : BTreeLeaf K V) (hfull : l.count = c.leaf) :
    (l.split c fresh).Safe ↔ 2 ≤ c.leaf := by
  have hpos := c.leaf_pos
  simp only [BTreeLeaf.split, Traced.safe_bind, safe_copyBlock, safe_readAt, Traced.safe_pure,
    and_true]
  omega

/-- Both halves of a full leaf, and the separator between them. -/
theorem Sound.split (h : l.Sound c lower upper) (fresh : BTreeLeaf K V) (hfull : l.count = c.leaf)
    (htwo : 2 ≤ c.leaf) :
    (l.split c fresh).Safe ∧
      InRange lower upper (l.split c fresh).value.2.2 ∧
      (∀ b ∈ upper, (l.split c fresh).value.2.2 < b) ∧
      (l.split c fresh).value.1.Sound c lower (some (l.split c fresh).value.2.2) ∧
      (l.split c fresh).value.2.1.Sound c (some (l.split c fresh).value.2.2) upper := by
  obtain ⟨m, hm⟩ : ∃ m, l.count - (l.count - l.count / 2) = m := ⟨_, rfl⟩
  have hlast : ((m : Int) - 1).toNat = m - 1 := by omega
  have hsep : (l.split c fresh).value.2.2 = l.keys (m - 1) := by
    rw [← hlast, ← hm]
    rfl
  have hlt : ∀ i, m ≤ i → i < l.count → l.keys (m - 1) < l.keys i := fun i hi hlt =>
    h.sorted _ _ (by omega) hlt
  rw [hsep]
  refine ⟨(split_safe_iff fresh hfull).mpr htwo, h.mem _ (by omega), fun b hb => ?_, ?_, ?_⟩
  · exact (hlt m le_rfl (by omega)).trans_le ((h.mem m (by omega)).2 b hb)
  · constructor
    case count_le =>
      show l.count - (l.count - l.count / 2) ≤ c.leaf
      omega
    case sorted => exact h.sorted.mono (show l.count - (l.count - l.count / 2) ≤ l.count by omega)
    case mem =>
      intro i hi
      change i < l.count - (l.count - l.count / 2) at hi
      refine ⟨(h.mem i (by omega)).1, fun b hb => ?_⟩
      obtain rfl := Option.some.inj hb
      rcases Nat.lt_or_ge i (m - 1) with hlt' | hge
      · exact (h.sorted i (m - 1) hlt' (by omega)).le
      · exact le_of_eq (congrArg l.keys (show i = m - 1 by omega))
  · have hkeys : ∀ i, i < l.count - l.count / 2 → (l.split c fresh).value.2.1.keys i =
        l.keys (m + i) := by
      intro i hi
      show (if 0 ≤ i ∧ (i : Int) < (0 : Nat) + ((l.count - l.count / 2 : Nat) : Int) then _
        else _) = _
      rw [if_pos (by omega), hm]
      rfl
    constructor
    case count_le =>
      show l.count - l.count / 2 ≤ c.leaf
      omega
    case sorted =>
      have hle : l.count - l.count / 2 ≤ l.count - m := by omega
      exact ((h.sorted.shift m).mono hle).congr hkeys
    case mem =>
      intro i hi
      rw [hkeys i hi]
      change i < l.count - l.count / 2 at hi
      refine ⟨fun a ha => ?_, (h.mem (m + i) (by omega)).2⟩
      obtain rfl := Option.some.inj ha
      exact hlt (m + i) (by omega) (by omega)

/-- Two neighbours with the separator between them. -/
theorem Sound.merge {sep : K} (h : l.Sound c lower (some sep))
    (hright : right.Sound c (some sep) upper)
    (hfit : l.count + right.count < c.leaf) (hlower : ∀ a ∈ lower, a < sep)
    (hupper : ∀ b ∈ upper, sep < b) :
    (l.merge c right).Safe ∧ (l.merge c right).value.Sound c lower upper := by
  have hcount : (l.count + right.count) % 2 ^ 16 = l.count + right.count := by
    have := c.leaf_lt
    omega
  have hkeys : ∀ i, (l.merge c right).value.keys i =
      if l.count ≤ i ∧ i < l.count + right.count then right.keys (i - l.count) else l.keys i := by
    intro i
    show (if l.count ≤ i ∧ (i : Int) < l.count + right.count then right.keys (0 + (i - l.count))
      else l.keys i) = _
    rw [Nat.zero_add]
    by_cases hi : l.count ≤ i ∧ i < l.count + right.count
    · rw [if_pos hi, if_pos (by omega)]
    · rw [if_neg hi, if_neg (by omega)]
  have hleft : ∀ i, i < l.count → (l.merge c right).value.keys i = l.keys i := fun i hi =>
    (hkeys i).trans (if_neg (by omega))
  have hbehind : ∀ i, l.count ≤ i → i < l.count + right.count →
      (l.merge c right).value.keys i = right.keys (i - l.count) := fun i hle hlt =>
    (hkeys i).trans (if_pos ⟨hle, hlt⟩)
  refine ⟨?_, ?_⟩
  · simp only [BTreeLeaf.merge, Traced.safe_bind, safe_copyBlock, Traced.safe_pure, and_true]
    omega
  · constructor
    case count_le =>
      show (l.count + right.count) % 2 ^ 16 ≤ c.leaf
      omega
    case sorted =>
      show SortedTo (l.merge c right).value.keys ((l.count + right.count) % 2 ^ 16)
      rw [hcount]
      intro i j hij hj
      rcases Nat.lt_or_ge j l.count with hjl | hjl
      · rw [hleft i (by omega), hleft j hjl]
        exact h.sorted i j hij hjl
      · rw [hbehind j hjl hj]
        rcases Nat.lt_or_ge i l.count with hil | hil
        · rw [hleft i hil]
          exact ((h.mem i hil).2 sep rfl).trans_lt ((hright.mem _ (by omega)).1 sep rfl)
        · rw [hbehind i hil (by omega)]
          exact hright.sorted _ _ (by omega) (by omega)
    case mem =>
      show ∀ i, i < (l.count + right.count) % 2 ^ 16 → _
      rw [hcount]
      intro i hi
      rcases Nat.lt_or_ge i l.count with hil | hil
      · rw [hleft i hil]
        have hmem := h.mem i hil
        exact ⟨hmem.1, fun b hb => (hmem.2 sep rfl).trans (hupper b hb).le⟩
      · rw [hbehind i hil hi]
        have hmem := hright.mem (i - l.count) (by omega)
        exact ⟨fun a ha => (hlower a ha).trans (hmem.1 sep rfl), hmem.2⟩

end BTreeLeaf

/-! ## Inner nodes -/

namespace BTreeInner

/-- The range of the child at a position. -/
def slotLower (n : BTreeInner K) (lower : FenceKey K) (i : Nat) : FenceKey K :=
  if i = 0 then lower else some (n.keys (i - 1))

def slotUpper (n : BTreeInner K) (upper : FenceKey K) (i : Nat) : FenceKey K :=
  if i < n.count then some (n.keys i) else upper

structure Sound (c : ArraySizes) (n : BTreeInner K) (lower upper : FenceKey K) : Prop where
  count_le : n.count ≤ c.inner - 1
  sorted : SortedTo n.keys n.count
  lower_lt : ∀ i, i < n.count → ∀ a ∈ lower, a < n.keys i
  lt_upper : ∀ i, i < n.count → ∀ b ∈ upper, n.keys i < b
  /-- Without keys the stale one in front ends the range. -/
  stale : n.count = 0 → upper = some (n.keys 0)

variable {n : BTreeInner K} {pos i : Nat}

theorem Sound.count_lt (h : n.Sound c lower upper) : n.count < c.inner := by
  have := h.count_le
  have := c.inner_pos
  omega

theorem Sound.lowerBound_cut (h : n.Sound c lower upper) (hk : InRange lower upper k) :
    Cut n.keys n.count (· < k) (Search.lowerBound n.keys n.count k) := by
  rcases Nat.eq_zero_or_pos n.count with hzero | hpos
  · have hle : ¬ n.keys 0 < k := not_lt.mpr (hk.2 _ (h.stale hzero))
    rw [hzero, lowerBound_zero, if_neg hle]
    exact ⟨le_rfl, fun i hi => absurd hi (Nat.not_lt_zero i), fun i _ hi =>
      absurd hi (Nat.not_lt_zero i)⟩
  · exact Search.lowerBound_cut h.sorted hpos k

theorem Sound.lowerBoundBF_cut (h : n.Sound c lower upper) (hk : InRange lower upper k) :
    Cut n.keys n.count (· < k) (Search.lowerBoundBF n.keys n.count k) := by
  rcases Nat.eq_zero_or_pos n.count with hzero | hpos
  · have hle : ¬ n.keys 0 < k := not_lt.mpr (hk.2 _ (h.stale hzero))
    rw [hzero, lowerBoundBF_zero, if_neg hle]
    exact ⟨le_rfl, fun i hi => absurd hi (Nat.not_lt_zero i), fun i _ hi =>
      absurd hi (Nat.not_lt_zero i)⟩
  · exact Search.lowerBoundBF_cut h.sorted hpos k

theorem Sound.upperBound_cut (h : n.Sound c lower upper) (hk : InRangeAbove lower upper k) :
    Cut n.keys n.count (· ≤ k) (Search.upperBound n.keys n.count k) := by
  rcases Nat.eq_zero_or_pos n.count with hzero | hpos
  · have hle : ¬ n.keys 0 ≤ k := not_le.mpr (hk.2 _ (h.stale hzero))
    rw [hzero, upperBound_zero, if_neg hle]
    exact ⟨le_rfl, fun i hi => absurd hi (Nat.not_lt_zero i), fun i _ hi =>
      absurd hi (Nat.not_lt_zero i)⟩
  · exact Search.upperBound_cut h.sorted hpos k

omit [LinearOrder K] in
/-- The keys around a cut enclose what it was made for. -/
theorem slot_of_cut {below : K → Prop} (hcut : Cut n.keys n.count below pos)
    (hlower : ∀ a ∈ lower, below a) (hupper : ∀ b ∈ upper, ¬ below b) :
    (∀ a ∈ n.slotLower lower pos, below a) ∧ ∀ b ∈ n.slotUpper upper pos, ¬ below b := by
  unfold slotLower slotUpper
  constructor
  · split
    case isTrue => exact hlower
    case isFalse hne =>
      intro a ha
      obtain rfl := Option.some.inj ha
      exact hcut.of_lt _ (by omega)
  · split
    case isTrue hlt =>
      intro b hb
      obtain rfl := Option.some.inj hb
      exact hcut.not_of_le pos le_rfl hlt
    case isFalse => exact hupper

theorem inRange_slot (hcut : Cut n.keys n.count (· < k) pos) (hk : InRange lower upper k) :
    InRange (n.slotLower lower pos) (n.slotUpper upper pos) k := by
  have h := slot_of_cut hcut hk.1 fun b hb => not_lt.mpr (hk.2 b hb)
  exact ⟨h.1, fun b hb => not_lt.mp (h.2 b hb)⟩

theorem inRangeAbove_slot (hcut : Cut n.keys n.count (· ≤ k) pos)
    (hk : InRangeAbove lower upper k) :
    InRangeAbove (n.slotLower lower pos) (n.slotUpper upper pos) k := by
  have h := slot_of_cut hcut hk.1 fun b hb => not_le.mpr (hk.2 b hb)
  exact ⟨h.1, fun b hb => not_le.mp (h.2 b hb)⟩

/-- A key in the range of a child cuts the keys at its position. -/
theorem Sound.cut_of_inRange (h : n.Sound c lower upper) (hpos : pos ≤ n.count)
    (hk : InRange (n.slotLower lower pos) (n.slotUpper upper pos) k) :
    Cut n.keys n.count (· < k) pos := by
  refine ⟨hpos, fun i hi => ?_, fun i hle hi => ?_⟩
  · have hlast : n.keys (pos - 1) < k := hk.1 _ (by rw [slotLower, if_neg (by omega)]; rfl)
    rcases Nat.eq_or_lt_of_le (show i ≤ pos - 1 by omega) with rfl | hlt
    · exact hlast
    · exact (h.sorted i (pos - 1) hlt (by omega)).trans hlast
  · have hfirst : k ≤ n.keys pos := hk.2 _ (by rw [slotUpper, if_pos (by omega)]; rfl)
    rcases Nat.eq_or_lt_of_le hle with rfl | hlt
    · exact not_lt.mpr hfirst
    · exact not_lt.mpr (hfirst.trans (h.sorted pos i hlt hi).le)

theorem Sound.inRange_of_slot (h : n.Sound c lower upper) (hpos : pos ≤ n.count)
    (hk : InRange (n.slotLower lower pos) (n.slotUpper upper pos) k) : InRange lower upper k := by
  constructor
  · rcases Nat.eq_zero_or_pos pos with rfl | hne
    · exact hk.1
    · intro a ha
      exact (h.lower_lt (pos - 1) (by omega) a ha).trans
        (hk.1 _ (by rw [slotLower, if_neg (by omega)]; rfl))
  · rcases Nat.lt_or_eq_of_le hpos with hlt | rfl
    · intro b hb
      exact (hk.2 _ (by rw [slotUpper, if_pos hlt]; rfl)).trans (h.lt_upper pos hlt b hb).le
    · intro b hb
      exact hk.2 b (by rw [slotUpper, if_neg (lt_irrefl _)]; exact hb)

/-- What holds of all children and their ranges. -/
def Children (n : BTreeInner K) (lower upper : FenceKey K)
    (P : PID → FenceKey K → FenceKey K → Prop) : Prop :=
  ∀ i, i ≤ n.count → P (n.children i) (n.slotLower lower i) (n.slotUpper upper i)

/-- The node after a separator and the child behind it have been put in at a position. -/
structure Inserted (c : ArraySizes) (n n' : BTreeInner K) (pos : Nat) (sep : K) (child : PID) :
    Prop where
  count : n'.count = n.count + 1
  keys : ∀ i, i ≤ n.count → n'.keys i = insertAt n.keys pos sep i
  children : ∀ i, i ≤ n.count + 1 → n'.children i = insertAt n.children (pos + 1) child i

section Insert

variable {n' : BTreeInner K} {sep : K} {child : PID}

/-- The block moves, the writes and the swap in the array of children. -/
theorem children_insert {capacity : Nat} {children : Nat → PID} {m : Nat} (hpos : pos ≤ m)
    (hi : i ≤ m + 1) :
    Function.update (Function.update (Function.update
        (moveBlock capacity children (pos + 1) pos ((m : Int) - pos + 1)).value pos child) pos
        (children pos)) (pos + 1) child i = insertAt children (pos + 1) child i := by
  rcases Nat.lt_trichotomy i (pos + 1) with hlt | rfl | hgt
  · rw [Function.update_of_ne hlt.ne, Search.insertAt_of_lt hlt]
    rcases Nat.eq_or_lt_of_le (Nat.le_of_lt_succ hlt) with rfl | hlt'
    · exact Function.update_self ..
    · rw [Function.update_of_ne hlt'.ne, Function.update_of_ne hlt'.ne, value_moveBlock,
        if_neg (by omega)]
  · rw [Function.update_self, Search.insertAt_self]
  · rw [Function.update_of_ne hgt.ne', Function.update_of_ne (by omega),
      Function.update_of_ne (by omega), value_moveBlock, if_pos (by omega),
      Search.insertAt_of_gt hgt]
    exact congrArg children (by omega)

theorem Sound.insert (h : n.Sound c lower upper) (child : PID) (hroom : n.count < c.inner - 1)
    (hpos : pos ≤ n.count)
    (hsep : InRange (n.slotLower lower pos) (n.slotUpper upper pos) sep) :
    (n.insert c sep child).Safe ∧
      ∃ n', (n.insert c sep child).value = some n' ∧ Inserted c n n' pos sep child := by
  have hsearch : Search.lowerBound n.keys n.count sep = pos :=
    (h.lowerBound_cut (h.inRange_of_slot hpos hsep)).unique (h.cut_of_inRange hpos hsep)
  have hle := h.count_lt
  have hlt := c.inner_lt
  have hright : Function.update (moveBlock c.inner n.children (pos + 1) pos
      ((n.count : Int) - pos + 1)).value pos child (pos + 1) = n.children pos := by
    rw [Function.update_of_ne (by omega), value_moveBlock, if_pos (by omega)]
    exact congrArg n.children (by omega)
  unfold BTreeInner.insert
  rw [if_pos hroom]
  refine ⟨?_, ?_⟩
  · simp only [Traced.safe_bind, value_lowerBound, hsearch, safe_moveBlock, safe_writeCell,
      safe_readCell, Traced.safe_pure, and_true]
    exact ⟨safe_lowerBound sep c.inner_pos hle.le, by omega, by omega, by omega, by omega, by omega,
      by omega, by omega, by omega⟩
  · simp only [Traced.value_bind, value_lowerBound, hsearch, value_writeCell, Traced.value_pure,
      Function.update_self, hright]
    refine ⟨_, rfl, ?_, fun i hi => ?_, fun i hi => children_insert hpos hi⟩
    · exact Nat.mod_eq_of_lt (by omega)
    · rw [show (n.count : Int) - pos + 1 = ((n.count + 1 : Nat) : Int) - pos by omega]
      exact Search.insertAt_move (by omega) (by omega)

/-- The new node is sound if the separator is below the upper end of the range it goes into. -/
theorem Inserted.sound (hins : Inserted c n n' pos sep child) (h : n.Sound c lower upper)
    (hroom : n.count < c.inner - 1) (hpos : pos ≤ n.count)
    (hsep : InRange (n.slotLower lower pos) (n.slotUpper upper pos) sep)
    (hlt : ∀ b ∈ n.slotUpper upper pos, sep < b) : n'.Sound c lower upper := by
  have hcut := h.cut_of_inRange hpos hsep
  have hrange := h.inRange_of_slot hpos hsep
  have hbehind : ∀ i, pos ≤ i → i < n.count → sep < n.keys i := fun i hle hi =>
    hcut.lt_of_ne h.sorted (fun hlt' => (hlt _ (by rw [slotUpper, if_pos hlt']; rfl)).ne') hle hi
  have hupper : ∀ b ∈ upper, sep < b := by
    intro b hb
    rcases Nat.lt_or_eq_of_le hpos with hlt' | rfl
    · exact (hbehind pos le_rfl hlt').trans (h.lt_upper pos hlt' b hb)
    · exact hlt b (by rw [slotUpper, if_neg (lt_irrefl _)]; exact hb)
  constructor
  case count_le => rw [hins.count]; omega
  case sorted =>
    rw [hins.count]
    exact (h.sorted.insertAt hpos hcut.of_lt hbehind).congr fun i hi => hins.keys i (by omega)
  case lower_lt =>
    intro i hi a ha
    rw [hins.count] at hi
    rw [hins.keys i (by omega)]
    exact Search.insertAt_forall (P := fun x => a < x) (fun j hj => h.lower_lt j hj a ha)
      (hrange.1 a ha) hi hpos
  case lt_upper =>
    intro i hi b hb
    rw [hins.count] at hi
    rw [hins.keys i (by omega)]
    exact Search.insertAt_forall (P := fun x => x < b) (fun j hj => h.lt_upper j hj b hb)
      (hupper b hb) hi hpos
  case stale => rw [hins.count]; omega

omit [LinearOrder K] in
/-- The children of the new node: one has been cut in two. -/
theorem Inserted.forall_children (hins : Inserted c n n' pos sep child) (hpos : pos ≤ n.count)
    {P : PID → FenceKey K → FenceKey K → Prop}
    (hothers : ∀ i, i ≤ n.count → i ≠ pos →
      P (n.children i) (n.slotLower lower i) (n.slotUpper upper i))
    (hleft : P (n.children pos) (n.slotLower lower pos) (some sep))
    (hright : P child (some sep) (n.slotUpper upper pos)) : n'.Children lower upper P := by
  intro i hi
  rw [hins.count] at hi
  rw [hins.children i hi]
  unfold slotLower slotUpper at *
  rw [hins.count]
  rcases Nat.lt_trichotomy i pos with hlt | rfl | hgt
  · have hkey : i ≠ 0 → n'.keys (i - 1) = n.keys (i - 1) := fun _ => by
      rw [hins.keys _ (by omega), Search.insertAt_of_lt (by omega)]
    have hkey' : n'.keys i = n.keys i := by
      rw [hins.keys _ (by omega), Search.insertAt_of_lt hlt]
    have := hothers i (by omega) hlt.ne
    rw [if_pos (show i < n.count by omega)] at this
    rw [Search.insertAt_of_lt (by omega), if_pos (show i < n.count + 1 by omega), hkey']
    by_cases hzero : i = 0
    · rwa [if_pos hzero] at this ⊢
    · rw [if_neg hzero] at this ⊢
      rwa [hkey hzero]
  · have hkey : i ≠ 0 → n'.keys (i - 1) = n.keys (i - 1) := fun _ => by
      rw [hins.keys _ (by omega), Search.insertAt_of_lt (by omega)]
    have hkey' : n'.keys i = sep := by rw [hins.keys _ (by omega), Search.insertAt_self]
    rw [Search.insertAt_of_lt (by omega), if_pos (show i < n.count + 1 by omega), hkey']
    by_cases hzero : i = 0
    · rwa [if_pos hzero] at hleft ⊢
    · rw [if_neg hzero] at hleft ⊢
      rwa [hkey hzero]
  · have hkey' : i < n.count + 1 → n'.keys i = n.keys (i - 1) := fun _ => by
      rw [hins.keys _ (by omega), Search.insertAt_of_gt hgt]
    rw [if_neg (show i ≠ 0 by omega)]
    rcases Nat.eq_or_lt_of_le (Nat.succ_le_of_lt hgt) with heq | hgt'
    · obtain rfl : i = pos + 1 := heq.symm
      have hkey : n'.keys (pos + 1 - 1) = sep := by
        rw [hins.keys _ (by omega)]
        exact Search.insertAt_self
      rw [Search.insertAt_self, hkey]
      by_cases hlt : pos < n.count
      · rw [if_pos hlt] at hright
        rw [if_pos (by omega), hkey' (by omega)]
        exact hright
      · rw [if_neg hlt] at hright
        rwa [if_neg (by omega)]
    · have hkey : n'.keys (i - 1) = n.keys (i - 1 - 1) := by
        rw [hins.keys _ (by omega), Search.insertAt_of_gt (by omega)]
      have := hothers (i - 1) (by omega) (by omega)
      rw [if_neg (show i - 1 ≠ 0 by omega)] at this
      rw [Search.insertAt_of_gt (by omega), hkey]
      by_cases hlt : i < n.count + 1
      · rw [if_pos (show i - 1 < n.count by omega)] at this
        rwa [if_pos hlt, hkey' hlt]
      · rw [if_neg (show ¬ i - 1 < n.count by omega)] at this
        rwa [if_neg hlt]

end Insert

/-! ### Removal -/

/-- The node without the separator at a position and the child behind it. -/
structure Removed (n n' : BTreeInner K) (pos : Nat) : Prop where
  count : n'.count = n.count - 1
  keys : ∀ i, i < n.count - 1 → n'.keys i = removeAt n.keys pos i
  children : ∀ i, i < n.count → n'.children i = removeAt n.children (pos + 1) i

section Remove

variable {n' : BTreeInner K}

omit [LinearOrder K] in
theorem remove_spec (hcount : n.count < c.inner) (hpos : pos < n.count) :
    (n.remove c pos).Safe ∧ Removed n (n.remove c pos).value.1 pos := by
  have hlt := c.inner_lt
  unfold BTreeInner.remove
  rw [if_pos ⟨by omega, hpos⟩]
  refine ⟨?_, ?_⟩
  · simp only [Traced.safe_bind, safe_moveBlock, Traced.safe_pure, and_true]
    omega
  · constructor
    case count =>
      show (n.count + (2 ^ 16 - 1)) % 2 ^ 16 = n.count - 1
      omega
    case keys =>
      intro i hi
      show (moveBlock c.inner n.keys pos (pos + 1) ((n.count : Int) - (pos + 1 : Nat))).value i = _
      exact Search.removeAt_move (by omega)
    case children =>
      intro i hi
      have hlen : (n.count : Int) - (pos + 2 : Nat) + 1 =
          ((n.count + 1 : Nat) : Int) - (pos + 1 + 1 : Nat) := by omega
      show (moveBlock c.inner n.children (pos + 1) (pos + 1 + 1)
        ((n.count : Int) - (pos + 2 : Nat) + 1)).value i = _
      rw [hlen]
      exact Search.removeAt_move (by omega)

theorem Removed.sound (hrem : Removed n n' pos) (h : n.Sound c lower upper) (htwo : 2 ≤ n.count) :
    n'.Sound c lower upper := by
  have hle := h.count_le
  constructor
  case count_le => rw [hrem.count]; omega
  case sorted =>
    rw [hrem.count]
    exact h.sorted.removeAt.congr hrem.keys
  case lower_lt =>
    intro i hi a ha
    rw [hrem.count] at hi
    rw [hrem.keys i hi]
    exact Search.removeAt_forall (P := fun x => a < x) (fun j hj => h.lower_lt j hj a ha) hi
  case lt_upper =>
    intro i hi b hb
    rw [hrem.count] at hi
    rw [hrem.keys i hi]
    exact Search.removeAt_forall (P := fun x => x < b) (fun j hj => h.lt_upper j hj b hb) hi
  case stale => rw [hrem.count]; omega

omit [LinearOrder K] in
/-- The children of the new node: one has the ranges of two. -/
theorem Removed.forall_children (hrem : Removed n n' pos) (hpos : pos < n.count)
    {P : PID → FenceKey K → FenceKey K → Prop}
    (hothers : ∀ i, i ≤ n.count → i ≠ pos → i ≠ pos + 1 →
      P (n.children i) (n.slotLower lower i) (n.slotUpper upper i))
    (hmerged : P (n.children pos) (n.slotLower lower pos) (n.slotUpper upper (pos + 1))) :
    n'.Children lower upper P := by
  intro i hi
  rw [hrem.count] at hi
  rw [hrem.children i (by omega)]
  unfold slotLower slotUpper at *
  rw [hrem.count]
  rcases Nat.lt_trichotomy i pos with hlt | rfl | hgt
  · have hkey : n'.keys (i - 1) = n.keys (i - 1) := by
      rw [hrem.keys _ (by omega), Search.removeAt_of_lt (by omega)]
    have hkey' : n'.keys i = n.keys i := by
      rw [hrem.keys _ (by omega), Search.removeAt_of_lt hlt]
    have := hothers i (by omega) (by omega) (by omega)
    rw [if_pos (show i < n.count by omega)] at this
    rw [Search.removeAt_of_lt (by omega), if_pos (show i < n.count - 1 by omega), hkey, hkey']
    exact this
  · have hkey : i ≠ 0 → n'.keys (i - 1) = n.keys (i - 1) := fun _ => by
      rw [hrem.keys _ (by omega), Search.removeAt_of_lt (by omega)]
    have hkey' : i < n.count - 1 → n'.keys i = n.keys (i + 1) := fun hi' => by
      rw [hrem.keys _ hi', Search.removeAt_of_le le_rfl]
    have hlower : (if i = 0 then lower else some (n'.keys (i - 1))) =
        if i = 0 then lower else some (n.keys (i - 1)) := by
      split
      · rfl
      · rw [hkey ‹_›]
    rw [Search.removeAt_of_lt (by omega), hlower]
    by_cases hlt : i < n.count - 1
    · rw [if_pos (show i + 1 < n.count by omega)] at hmerged
      rwa [if_pos hlt, hkey' hlt]
    · rw [if_neg (show ¬ i + 1 < n.count by omega)] at hmerged
      rwa [if_neg hlt]
  · have hkey : n'.keys (i - 1) = n.keys (i + 1 - 1) := by
      rw [hrem.keys _ (by omega), Search.removeAt_of_le (by omega)]
      exact congrArg n.keys (by omega)
    have hkey' : i < n.count - 1 → n'.keys i = n.keys (i + 1) := fun hi' => by
      rw [hrem.keys _ hi', Search.removeAt_of_le hgt.le]
    have := hothers (i + 1) (by omega) (by omega) (by omega)
    rw [if_neg (show i + 1 ≠ 0 by omega)] at this
    rw [Search.removeAt_of_le (by omega), if_neg (show i ≠ 0 by omega), hkey]
    by_cases hlt : i < n.count - 1
    · rw [if_pos (show i + 1 < n.count by omega)] at this
      rwa [if_pos hlt, hkey' hlt]
    · rw [if_neg (show ¬ i + 1 < n.count by omega)] at this
      rwa [if_neg hlt]

end Remove

/-! ### Splits and new roots -/

/-- Both halves of a node, around the separator that moves up. -/
structure Halves (n left right : BTreeInner K) (sep : K) : Prop where
  left_count : left.count = n.count / 2 - 1
  left_keys : left.keys = n.keys
  left_children : left.children = n.children
  sep_eq : sep = n.keys left.count
  right_count : right.count = n.count - left.count - 1
  right_keys : ∀ i, i < right.count → right.keys i = n.keys (left.count + 1 + i)
  right_children : ∀ i, i ≤ right.count → right.children i = n.children (left.count + 1 + i)

section Split

variable {left right : BTreeInner K} {sep : K}

omit [LinearOrder K] in
/-- With fewer than two keys `count` would wrap around. -/
theorem split_safe_iff (fresh : BTreeInner K) (hfull : n.count = c.inner - 1) :
    (n.split c fresh).Safe ↔ 3 ≤ c.inner := by
  have hlt := c.inner_lt
  simp only [BTreeInner.split, Traced.safe_bind, safe_copyBlock, safe_readCell, Traced.safe_pure,
    and_true]
  omega

omit [LinearOrder K] in
theorem split_spec (fresh : BTreeInner K) (hfull : n.count = c.inner - 1) (hthree : 3 ≤ c.inner) :
    (n.split c fresh).Safe ∧ Halves n (n.split c fresh).value.1 (n.split c fresh).value.2.1
      (n.split c fresh).value.2.2 := by
  have hlt := c.inner_lt
  have hcount : (n.count + 2 ^ 16 - (n.count - n.count / 2) - 1) % 2 ^ 16 = n.count / 2 - 1 := by
    omega
  refine ⟨(split_safe_iff fresh hfull).mpr hthree, hcount, rfl, rfl, rfl, ?_, fun i hi => ?_,
    fun i hi => ?_⟩
  · show n.count - n.count / 2 =
      n.count - (n.count + 2 ^ 16 - (n.count - n.count / 2) - 1) % 2 ^ 16 - 1
    omega
  · change i < n.count - n.count / 2 at hi
    show (if 0 ≤ i ∧ (i : Int) < (0 : Nat) + (((n.count - n.count / 2 : Nat) : Int) + 1) then _
      else _) = _
    rw [if_pos (by omega)]
    rfl
  · change i ≤ n.count - n.count / 2 at hi
    show (if 0 ≤ i ∧ (i : Int) < (0 : Nat) + (((n.count - n.count / 2 : Nat) : Int) + 1) then _
      else _) = _
    rw [if_pos (by omega)]
    rfl

theorem Halves.sound (hh : Halves n left right sep) (h : n.Sound c lower upper)
    (htwo : 2 ≤ n.count) :
    InRange lower upper sep ∧ (∀ b ∈ upper, sep < b) ∧ left.Sound c lower (some sep) ∧
      right.Sound c (some sep) upper := by
  have hle := h.count_le
  have hleft := hh.left_count
  have hright := hh.right_count
  have hsep := hh.sep_eq
  refine ⟨⟨?_, fun b hb => ?_⟩, fun b hb => ?_, ?_, ?_⟩
  · rw [hsep]
    exact h.lower_lt _ (by omega)
  · rw [hsep]
    exact (h.lt_upper _ (by omega) b hb).le
  · rw [hsep]
    exact h.lt_upper _ (by omega) b hb
  · constructor
    case count_le => omega
    case sorted =>
      rw [hh.left_keys]
      exact h.sorted.mono (by omega)
    case lower_lt =>
      rw [hh.left_keys]
      exact fun i hi => h.lower_lt i (by omega)
    case lt_upper =>
      intro i hi b hb
      obtain rfl := Option.some.inj hb
      rw [hh.left_keys, hsep]
      exact h.sorted i _ hi (by omega)
    case stale =>
      intro hzero
      rw [hsep, hh.left_keys, hzero]
  · constructor
    case count_le => omega
    case sorted =>
      exact ((h.sorted.shift (left.count + 1)).mono (by omega)).congr hh.right_keys
    case lower_lt =>
      intro i hi a ha
      obtain rfl := Option.some.inj ha
      rw [hh.right_keys i hi, hsep]
      exact h.sorted _ _ (by omega) (by omega)
    case lt_upper =>
      intro i hi b hb
      rw [hh.right_keys i hi]
      exact h.lt_upper _ (by omega) b hb
    case stale => omega

omit [LinearOrder K] in
/-- The children of the left half have the ranges that they had. -/
theorem Halves.left_slot (hh : Halves n left right sep) (lower upper : FenceKey K)
    (htwo : 2 ≤ n.count) (hi : i ≤ left.count) :
    left.children i = n.children i ∧ left.slotLower lower i = n.slotLower lower i ∧
      left.slotUpper (some sep) i = n.slotUpper upper i := by
  have hleft := hh.left_count
  refine ⟨by rw [hh.left_children], by rw [slotLower, slotLower, hh.left_keys], ?_⟩
  unfold slotUpper
  rw [hh.left_keys, if_pos (show i < n.count by omega)]
  rcases Nat.lt_or_eq_of_le hi with hlt | rfl
  · exact if_pos hlt
  · rw [if_neg (lt_irrefl _), hh.sep_eq]

omit [LinearOrder K] in
/-- And so have those of the right half. -/
theorem Halves.right_slot (hh : Halves n left right sep) (lower upper : FenceKey K)
    (hi : i ≤ right.count) :
    right.children i = n.children (left.count + 1 + i) ∧
      right.slotLower (some sep) i = n.slotLower lower (left.count + 1 + i) ∧
      right.slotUpper upper i = n.slotUpper upper (left.count + 1 + i) := by
  have hleft := hh.left_count
  have hright := hh.right_count
  refine ⟨hh.right_children i hi, ?_, ?_⟩
  · unfold slotLower
    rw [if_neg (show left.count + 1 + i ≠ 0 by omega)]
    by_cases hzero : i = 0
    · rw [if_pos hzero, hh.sep_eq]
      exact congrArg (fun j => some (n.keys j)) (by omega)
    · rw [if_neg hzero, hh.right_keys _ (by omega)]
      exact congrArg (fun j => some (n.keys j)) (by omega)
  · unfold slotUpper
    by_cases hlt : i < right.count
    · rw [if_pos hlt, if_pos (by omega), hh.right_keys i hlt]
    · rw [if_neg hlt, if_neg (by omega)]

end Split

omit [LinearOrder K] in
theorem makeRoot_safe_iff {fresh : BTreeInner K} {left right : PID} :
    (makeRoot c fresh k left right).Safe ↔ 2 ≤ c.inner := by
  simp only [makeRoot, Traced.safe_bind, safe_writeCell, Traced.safe_pure, and_true]
  omega

/-- A root above two nodes with a separator between them. -/
theorem makeRoot_spec (fresh : BTreeInner K) (left right : PID) (htwo : 2 ≤ c.inner) :
    (makeRoot c fresh k left right).Safe ∧
      (makeRoot c fresh k left right).value.Sound c none none ∧
      ∀ P : PID → FenceKey K → FenceKey K → Prop, P left none (some k) → P right (some k) none →
        (makeRoot c fresh k left right).value.Children none none P := by
  refine ⟨makeRoot_safe_iff.mpr htwo, ?_, fun P hleft hright i hi => ?_⟩
  · constructor
    case count_le => exact Nat.le_sub_one_of_lt htwo
    case sorted =>
      intro i j hij hj
      change j < 1 at hj
      omega
    case lower_lt => exact fun _ _ _ ha => nomatch ha
    case lt_upper => exact fun _ _ _ hb => nomatch hb
    case stale => exact fun h => absurd h one_ne_zero
  · have hcount : (makeRoot c fresh k left right).value.count = 1 := rfl
    have hkey : (makeRoot c fresh k left right).value.keys 0 = k := by
      show Function.update fresh.keys 0 k 0 = k
      exact Function.update_self ..
    rw [hcount] at hi
    interval_cases i
    · have hchild : (makeRoot c fresh k left right).value.children 0 = left := by
        show Function.update (Function.update fresh.children 0 left) 1 right 0 = left
        rw [Function.update_of_ne (by omega), Function.update_self]
      rw [hchild, slotLower, slotUpper, if_pos rfl, hcount, if_pos (by omega), hkey]
      exact hleft
    · have hchild : (makeRoot c fresh k left right).value.children 1 = right := by
        show Function.update (Function.update fresh.children 0 left) 1 right 1 = right
        exact Function.update_self ..
      rw [hchild, slotLower, slotUpper, if_neg (by omega), hcount, if_neg (by omega), hkey]
      exact hright

end BTreeInner

end ScaleStore.BTree
