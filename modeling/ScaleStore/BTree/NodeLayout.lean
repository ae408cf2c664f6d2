/-
# Nodes in their page

How many entries a node has is computed from the page size by subtracting the
sizes of `NodeBase` and of the fence keys and dividing by what one entry takes.
The bytes that alignment inserts, behind `NodeBase` and between the two arrays,
are not subtracted; they have to fit into the remainder of that division.
-/

import ScaleStore.Storage.ReadPage

namespace ScaleStore.BTree

open StructLayout

/-! ## The members of a node -/

/-- `pageSize` of the tree. -/
def pageSize : Nat := Storage.EFFECTIVE_PAGE_SIZE

/-- The type of a page identifier, and that of a pointer, which `BTreeInner::maxEntries` counts
with in its place. -/
def pidType : ObjectType := .scalar 3

def nodePointer : ObjectType := .scalar 3

/-- `NodeBase`: `PageType` and `count`. -/
def nodeBase : ObjectType := struct [.scalar 0, .scalar 1]

/-- `FenceKey<Key>`: `isInfinity` and the key. -/
def fenceKey (key : ObjectType) : ObjectType := struct [.scalar 0, key]

/-- `FenceKeys<Key>`: the lower and the upper fence. -/
def fenceKeys (key : ObjectType) : ObjectType := struct [fenceKey key, fenceKey key]

/-- `maxEntries` of a node whose entries take `key` and `entry`; the subtraction is one of 64-bit
unsigned numbers. -/
def maxEntries (key entry : ObjectType) : Nat :=
  (((pageSize : Int) - nodeBase.size - (fenceKeys key).size) % 2 ^ 64).toNat /
    (key.size + entry.size)

/-- `BTreeLeaf::maxEntries`. -/
def leafMaxEntries (key payload : ObjectType) : Nat := maxEntries key payload

/-- `BTreeInner::maxEntries`. -/
def innerMaxEntries (key : ObjectType) : Nat := maxEntries key nodePointer

/-- Where the second array of a node begins: behind the base class, the fence keys and `n` keys. -/
def secondArray (key entry : ObjectType) (n : Nat) : Nat :=
  alignUp (membersEnd nodeBase.size [fenceKeys key, key.array n]) entry.align

/-- The offset of the last element of `BTreeLeaf::payloads`. -/
def lastPayload (key payload : ObjectType) : Nat :=
  secondArray key payload (leafMaxEntries key payload) +
    (leafMaxEntries key payload - 1) * payload.size

/-- The offset of the last element of `BTreeInner::children`. -/
def lastChild (key : ObjectType) : Nat :=
  secondArray key pidType (innerMaxEntries key) + (innerMaxEntries key - 1) * pidType.size

/-! ## What the padding takes -/

variable {key entry payload : ObjectType}

/-- The bytes between `NodeBase` and the fence keys. -/
def headPadding (key : ObjectType) : Nat := alignUp nodeBase.size key.align - nodeBase.size

/-- The bytes that the division in `maxEntries` leaves over. -/
def slack (key entry : ObjectType) : Nat :=
  (pageSize - nodeBase.size - (fenceKeys key).size) % (key.size + entry.size)

/-- The fence keys fit behind `NodeBase`, and the bytes left over make up for the padding: that
behind `NodeBase`, and the end of the page that no entry can reach for its alignment. -/
def PaddingFits (key entry : ObjectType) : Prop :=
  nodeBase.size + (fenceKeys key).size ≤ pageSize ∧
    headPadding key + pageSize % entry.align ≤ slack key entry

instance (key entry : ObjectType) : Decidable (PaddingFits key entry) :=
  inferInstanceAs (Decidable (_ ∧ _))

/-! ## Nodes fit -/

@[simp] theorem nodeBase_size : nodeBase.size = 4 := rfl

theorem maxAlign_fenceKey (key : ObjectType) : maxAlign [.scalar 0, key] = key.align := by
  have := key.align_pos
  show max 1 (max key.align 1) = key.align
  omega

theorem fenceKey_size (key : ObjectType) : (fenceKey key).size = key.align + key.size := by
  have hpos := key.align_pos
  -- the flag takes as much as the alignment of the key
  have hflag : alignUp 1 key.align = key.align :=
    le_antisymm (alignUp_le hpos hpos (Nat.dvd_refl _))
      (Nat.le_of_dvd (Nat.lt_of_lt_of_le Nat.one_pos (le_alignUp hpos)) (dvd_alignUp 1 key.align))
  show alignUp (alignUp 1 key.align + key.size) (maxAlign [.scalar 0, key]) = _
  rw [maxAlign_fenceKey, hflag]
  exact alignUp_of_dvd hpos (Nat.dvd_add (Nat.dvd_refl _) key.align_dvd)

@[simp] theorem fenceKey_align (key : ObjectType) : (fenceKey key).align = key.align :=
  maxAlign_fenceKey key

@[simp] theorem fenceKeys_align (key : ObjectType) : (fenceKeys key).align = key.align := by
  have := key.align_pos
  show max (fenceKey key).align (max (fenceKey key).align 1) = key.align
  rw [fenceKey_align]
  omega

theorem fenceKeys_size (key : ObjectType) :
    (fenceKeys key).size = 2 * (key.align + key.size) := by
  have hpos := key.align_pos
  have hdvd : key.align ∣ key.align + key.size := Nat.dvd_add (Nat.dvd_refl _) key.align_dvd
  have hzero : alignUp 0 key.align = 0 := alignUp_of_dvd hpos (Nat.dvd_zero _)
  show alignUp (alignUp (alignUp 0 (fenceKey key).align + (fenceKey key).size)
    (fenceKey key).align + (fenceKey key).size) (fenceKeys key).align = _
  rw [fenceKeys_align, fenceKey_align, fenceKey_size, hzero, Nat.zero_add,
    alignUp_of_dvd hpos hdvd, alignUp_of_dvd hpos (Nat.dvd_add hdvd hdvd)]
  omega

/-- Behind the fence keys nothing is inserted in front of the keys. -/
theorem secondArray_eq (key entry : ObjectType) (n : Nat) :
    secondArray key entry n =
      alignUp (nodeBase.size + headPadding key + (fenceKeys key).size + n * key.size)
        entry.align := by
  have hpos := key.align_pos
  have hhead : alignUp nodeBase.size key.align = nodeBase.size + headPadding key := by
    have := le_alignUp (n := nodeBase.size) hpos
    rw [headPadding]
    omega
  have hfence : key.align ∣ nodeBase.size + headPadding key + (fenceKeys key).size := by
    rw [← hhead]
    refine Nat.dvd_add (dvd_alignUp _ _) ?_
    have := (fenceKeys key).align_dvd
    rwa [fenceKeys_align] at this
  show alignUp (alignUp (alignUp nodeBase.size (fenceKeys key).align + (fenceKeys key).size)
    key.align + n * key.size) entry.align = _
  rw [fenceKeys_align, hhead, alignUp_of_dvd hpos hfence]

theorem maxEntries_eq (h : nodeBase.size + (fenceKeys key).size ≤ pageSize) :
    maxEntries key entry =
      (pageSize - nodeBase.size - (fenceKeys key).size) / (key.size + entry.size) := by
  have hmod : ((pageSize : Int) - nodeBase.size - (fenceKeys key).size) % 2 ^ 64 =
      ((pageSize - nodeBase.size - (fenceKeys key).size : Nat) : Int) := by
    have hpage : pageSize = 504 := rfl
    rw [Int.emod_eq_of_lt (by omega) (by omega)]
    omega
  rw [maxEntries, hmod, Int.toNat_natCast]

/-- A node ends inside its page exactly when its padding fits into what the division leaves over. -/
theorem node_fits_iff (key entry : ObjectType) :
    secondArray key entry (maxEntries key entry) + maxEntries key entry * entry.size ≤ pageSize ↔
      PaddingFits key entry := by
  have hpos := entry.align_pos
  rw [secondArray_eq, PaddingFits]
  by_cases hfence : nodeBase.size + (fenceKeys key).size ≤ pageSize
  · set n := maxEntries key entry with hn
    rw [maxEntries_eq hfence] at hn
    have hdiv := Nat.div_add_mod (pageSize - nodeBase.size - (fenceKeys key).size)
      (key.size + entry.size)
    rw [← hn, Nat.add_mul, Nat.mul_comm key.size, Nat.mul_comm entry.size] at hdiv
    have hslack : slack key entry =
      (pageSize - nodeBase.size - (fenceKeys key).size) % (key.size + entry.size) := rfl
    rw [← hslack] at hdiv
    have hle : n * entry.size ≤ pageSize := by omega
    -- the second array takes whole multiples of the alignment
    have hmod : (pageSize - n * entry.size) % entry.align = pageSize % entry.align := by
      obtain ⟨q, hq⟩ := Nat.dvd_mul_left_of_dvd entry.align_dvd n
      rw [hq, Nat.sub_mul_mod (by omega)]
    rw [← Nat.le_sub_iff_add_le hle, alignUp_le_iff hpos, hmod]
    constructor
    · intro h
      exact ⟨hfence, by omega⟩
    · rintro ⟨-, h⟩
      omega
  · have hend := le_alignUp (n := nodeBase.size + headPadding key + (fenceKeys key).size +
      maxEntries key entry * key.size) hpos
    constructor
    · intro h
      omega
    · rintro ⟨h, -⟩
      exact absurd h hfence

/-- For nodes with at least one entry, the last element of the second array ends inside the page
exactly when the padding fits. -/
theorem last_elements_inside_iff (key payload : ObjectType)
    (hleaf : 1 ≤ leafMaxEntries key payload) (hinner : 1 ≤ innerMaxEntries key) :
    (lastPayload key payload + payload.size ≤ Storage.EFFECTIVE_PAGE_SIZE ↔
        PaddingFits key payload) ∧
      (lastChild key + pidType.size ≤ Storage.EFFECTIVE_PAGE_SIZE ↔ PaddingFits key pidType) := by
  have hlast : ∀ {n : Nat} (t : ObjectType), 1 ≤ n → (n - 1) * t.size + t.size = n * t.size := by
    intro n t hn
    rw [← Nat.succ_mul, Nat.succ_eq_add_one, Nat.sub_add_cancel hn]
  constructor
  · rw [lastPayload, Nat.add_assoc, hlast payload hleaf]
    exact node_fits_iff key payload
  · rw [lastChild, Nat.add_assoc, hlast pidType hinner]
    exact node_fits_iff key pidType

/-- The payloads of a leaf with 8-byte keys and 1-byte payloads end four bytes behind the page
data. -/
theorem payloads_behind_page : ¬ ∀ key payload : ObjectType,
    1 ≤ leafMaxEntries key payload → 1 ≤ innerMaxEntries key →
      lastPayload key payload + payload.size ≤ Storage.EFFECTIVE_PAGE_SIZE ∧
        lastChild key + pidType.size ≤ Storage.EFFECTIVE_PAGE_SIZE := by
  intro hall
  exact absurd (hall (.scalar 3) (.scalar 0) (by decide +kernel) (by decide +kernel)).1
    (by decide +kernel)

/-- Nodes with 8-byte keys, and payloads of 8 bytes, use the page up to its last byte. -/
theorem last_elements_inside_words :
    lastPayload (.scalar 3) (.scalar 3) + 8 ≤ Storage.EFFECTIVE_PAGE_SIZE ∧
      lastChild (.scalar 3) + 8 ≤ Storage.EFFECTIVE_PAGE_SIZE := by
  obtain ⟨hleaf, hinner⟩ := last_elements_inside_iff (.scalar 3) (.scalar 3) (by decide +kernel)
    (by decide +kernel)
  exact ⟨hleaf.mpr (by decide +kernel), hinner.mpr (by decide +kernel)⟩

/-! ## Which nodes always fit -/

theorem align_cases {t : ObjectType} (h : t.align ≤ 8) :
    t.align = 1 ∨ t.align = 2 ∨ t.align = 4 ∨ t.align = 8 := by
  obtain ⟨k, hk⟩ := t.align_pow
  rw [hk] at h ⊢
  have hlt : k < 4 := by
    by_contra hge
    have : 2 ^ 4 ≤ 2 ^ k := Nat.pow_le_pow_right (by decide) (by omega)
    omega
  interval_cases k <;> simp

/-- Keys that are aligned to at most 4 bytes leave no gap behind `NodeBase`, and the page size is a
multiple of every alignment up to 8. -/
theorem paddingFits_of_align_le_four (hkey : key.align ≤ 4) (hentry : entry.align ≤ 8)
    (hfence : nodeBase.size + (fenceKeys key).size ≤ pageSize) : PaddingFits key entry := by
  refine ⟨hfence, ?_⟩
  have hhead : headPadding key = 0 := by
    rw [headPadding, nodeBase_size]
    rcases align_cases (t := key) (by omega) with h | h | h | h <;> rw [h] <;> first | rfl | omega
  have hpage : pageSize % entry.align = 0 := by
    rcases align_cases hentry with h | h | h | h <;> rw [h] <;> rfl
  omega

/-- Keys and entries of 8-byte words leave a gap of 4 bytes, and what the division leaves over is
4 more than a multiple of 8. -/
theorem paddingFits_of_align_eight (hkey : key.align = 8) (hentry : entry.align = 8)
    (hfence : nodeBase.size + (fenceKeys key).size ≤ pageSize) : PaddingFits key entry := by
  refine ⟨hfence, ?_⟩
  have hhead : headPadding key = 4 := by
    rw [headPadding, nodeBase_size, hkey]
    rfl
  have hpage : pageSize % entry.align = 0 := by
    rw [hentry]
    rfl
  obtain ⟨k, hk⟩ := hkey ▸ key.align_dvd
  obtain ⟨e, he⟩ := hentry ▸ entry.align_dvd
  have hslack : slack key entry % 8 = 4 := by
    have hdvd : 8 ∣ key.size + entry.size := ⟨k + e, by omega⟩
    have hsize : pageSize = 504 := rfl
    rw [slack, Nat.mod_mod_of_dvd _ hdvd]
    rw [fenceKeys_size, hkey, hk, nodeBase_size, hsize] at hfence ⊢
    omega
  omega

/-- Inner nodes fit for every key that is aligned to at most 8 bytes. -/
theorem inner_paddingFits (hkey : key.align ≤ 8)
    (hfence : nodeBase.size + (fenceKeys key).size ≤ pageSize) : PaddingFits key pidType := by
  rcases Nat.lt_or_ge 4 key.align with hlt | hle
  · refine paddingFits_of_align_eight ?_ rfl hfence
    rcases align_cases hkey with h | h | h | h <;> omega
  · exact paddingFits_of_align_le_four hle le_rfl hfence

end ScaleStore.BTree
