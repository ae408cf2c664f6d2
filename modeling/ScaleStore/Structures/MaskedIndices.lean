/-
# Masked indices

The page table and the ring buffers find a place by masking with their size less one.
What the mask lets through is below the size, also where the size is no power of two.
The place that `RingBuffer::add` writes to goes through an `int` as well, so that a
ring has to stop at `2 ^ 31`.
-/

import ScaleStore.Lib.System
import ScaleStore.Storage.FreeSlots

namespace ScaleStore

/-! ## The page table -/

/-- `PageTable::FasterHash`. -/
def fasterHash (input : BitVec 64) : BitVec 64 :=
  let local_rand_hash : BitVec 64 := 8
  let local_rand_hash := 40343 * local_rand_hash + (input &&& 0xFFFF)
  let local_rand_hash := 40343 * local_rand_hash + ((input >>> 16) &&& 0xFFFF)
  let local_rand_hash := 40343 * local_rand_hash + ((input >>> 32) &&& 0xFFFF)
  let local_rand_hash := 40343 * local_rand_hash + (input >>> 48)
  40343 * local_rand_hash

/-- The bucket that `PageTable::operator[]` looks a page up in. -/
def bucketIndex (numberBuckets pid : BitVec 64) : BitVec 64 :=
  fasterHash pid &&& (nextPowerTwo numberBuckets - 1)

/-! ## Rings -/

namespace SlotRing

def full (r : SlotRing) : Prop := r.count = r.size

/-- What is done to a ring; who adds to it has asked `full`. -/
inductive Step (r : SlotRing) : SlotRing → Prop where
  | add (slot) : ¬ r.full → Step r (r.add slot)
  | remove {slot r'} : r.remove = some (slot, r') → Step r r'
  | clear : Step r { r with front := 0, count := 0 }

/-- The rings for `sz` elements. -/
def system (sz : BitVec 64) : System SlotRing where
  Init r := r.size = ringSize sz ∧ r.front = 0 ∧ r.count = 0
  Step := Step

/-- The places that the operations go to lie inside the array. -/
structure InRange (r : SlotRing) : Prop where
  /-- `peek` and `remove`. -/
  front : r.front < r.size
  /-- `getCurrentIndex`. -/
  current : (r.front + r.count) &&& (r.size - 1) < r.size
  add : 0 ≤ addIndex r.size r.front r.count ∧ addIndex r.size r.front r.count < r.size

section Rings

variable {sz : BitVec 64} {r : SlotRing}

/-- The front stays below the size. -/
theorem front_lt (hpos : 0 < ringSize sz) (h : (system sz).Reachable r) :
    r.size = ringSize sz ∧ r.front < ringSize sz := by
  induction h with
  | init h => exact ⟨h.1, h.2.1 ▸ hpos⟩
  | step _ hstep ih =>
    cases hstep with
    | add slot _ => exact ih
    | remove hremove =>
      unfold SlotRing.remove at hremove
      split at hremove
      case isTrue =>
        obtain ⟨_, rfl⟩ := Prod.mk.inj (Option.some.inj hremove)
        refine ⟨ih.1, ?_⟩
        rw [← ih.1] at hpos ⊢
        exact and_mask_lt hpos _
      case isFalse => cases hremove
    | clear => exact ⟨ih.1, hpos⟩

/-- Filling a ring reaches every count. -/
theorem reachable_freeSlots {n : Nat} (hn : n ≤ ringSize sz) :
    (system sz).Reachable (freeSlots sz n) := by
  induction n with
  | zero => exact .init ⟨rfl, rfl, rfl⟩
  | succ n ih =>
    have hfull : ¬ (freeSlots sz n).full := by
      rw [full, freeSlots_count, freeSlots_size]
      omega
    exact (ih (Nat.le_of_succ_le hn)).step (.add n hfull)

theorem inRange_of_le (hlo : 1 ≤ sz.toNat) (hhi : sz.toNat ≤ 2 ^ 31)
    (h : (system sz).Reachable r) : r.InRange := by
  obtain ⟨_, hle, hleast⟩ := ringSize_least hlo (by omega)
  have hpos : 0 < ringSize sz := Nat.lt_of_lt_of_le hlo hle
  obtain ⟨hsize, hfront⟩ := front_lt hpos h
  rw [← hsize] at hpos hfront
  have hbound : r.size ≤ 2 ^ 31 := hsize ▸ hleast 31 hhi
  have hmask := and_mask_lt hpos (r.front + r.count)
  constructor
  case front => exact hfront
  case current => exact hmask
  case add =>
    rw [addIndex_of_le hpos hbound]
    omega

/-- In a larger ring the element after the first `2 ^ 31` goes to a place before the array. -/
theorem addIndex_neg (hlo : 2 ^ 31 < sz.toNat) (hhi : sz.toNat ≤ 2 ^ 63) :
    addIndex (ringSize sz) 0 (2 ^ 31) < 0 := by
  have hmask : (0 + 2 ^ 31) &&& (ringSize sz - 1) = 2 ^ 31 := by
    rw [Nat.zero_add, ringSize_eq (by omega) hhi, Nat.two_pow_and, testBit_mask hlo hhi]
    rfl
  rw [addIndex, hmask]
  decide

end Rings

end SlotRing

/-! ## Which sizes are safe -/

section Sizes

variable {v : BitVec 64}

theorem bucketIndex_lt (hlo : 1 ≤ v.toNat) (hhi : v.toNat ≤ 2 ^ 63) (pid : BitVec 64) :
    (bucketIndex v pid).toNat < (nextPowerTwo v).toNat := by
  have hpos : 1 ≤ (nextPowerTwo v).toNat := hlo.trans (le_nextPowerTwo hlo hhi)
  rw [bucketIndex, BitVec.toNat_and, toNat_pred hpos]
  exact and_mask_lt hpos _

/-- Only where the bits of `v - 1` have no gap does `nextPowerTwo` return a power of two and is the
mask without holes.  The buckets of the page table are in range all the same; the rings are up to
`2 ^ 31`. -/
theorem masked_indices (hlo : 1 ≤ v.toNat) (hhi : v.toNat ≤ 2 ^ 63) :
    (LeastPower v.toNat (nextPowerTwo v).toNat ↔ NoGap (v.toNat - 1)) ∧
    ((∃ k, (nextPowerTwo v).toNat - 1 = 2 ^ k - 1) ↔ NoGap (v.toNat - 1)) ∧
    (∀ pid, (bucketIndex v pid).toNat < (nextPowerTwo v).toNat) ∧
    ((∀ r, (SlotRing.system v).Reachable r → r.InRange) ↔ v.toNat ≤ 2 ^ 31) := by
  refine ⟨⟨?_, nextPowerTwo_least hlo hhi⟩, ⟨?_, ?_⟩, bucketIndex_lt hlo hhi, ?_, ?_⟩
  · rintro ⟨⟨k, hk⟩, -⟩
    exact noGap_of_nextPowerTwo hlo hhi hk
  · rintro ⟨k, hk⟩
    have hle := le_nextPowerTwo hlo hhi
    have hpos := Nat.two_pow_pos k
    exact noGap_of_nextPowerTwo hlo hhi (k := k) (by omega)
  · intro hgap
    obtain ⟨⟨k, hk⟩, -⟩ := nextPowerTwo_least hlo hhi hgap
    exact ⟨k, by rw [hk]⟩
  · intro h
    by_contra hlt
    have hsize := le_ringSize hlo hhi
    have hrange := (h _ (SlotRing.reachable_freeSlots (n := 2 ^ 31) (by omega))).add.1
    rw [freeSlots_size, freeSlots_front, freeSlots_count] at hrange
    have hneg := SlotRing.addIndex_neg (by omega) hhi
    omega
  · exact fun hle r h => SlotRing.inRange_of_le hlo hle h

/-- The ring in which the page provider cools frames. -/
theorem masked_indices_thousand : LeastPower 1000 1024 ∧
    ∀ r, (SlotRing.system 1000).Reachable r → r.InRange := by
  obtain ⟨hpower, _, _, hring⟩ := masked_indices (v := 1000) (by decide) (by decide)
  exact ⟨hpower.mpr (noGap_of_lt (by decide)), hring.mpr (by decide)⟩

/-- A shift by 32 is missing: the result for `2 ^ 32 + 1` is odd.  And a ring for one element more
than `2 ^ 31` writes before its array. -/
theorem nextPowerTwo_odd :
    ¬ LeastPower (2 ^ 32 + 1) (nextPowerTwo 0x100000001).toNat ∧
    (nextPowerTwo 0x100000001).toNat = 2 ^ 33 - 1 ∧
    ∃ r, (SlotRing.system 0x80000001).Reachable r ∧ ¬ r.full ∧
      addIndex r.size r.front r.count < 0 := by
  refine ⟨fun ⟨⟨k, hk⟩, _⟩ => ?_, by decide, ?_⟩
  · exact noGap_of_nextPowerTwo (by decide) (by decide) hk 0 (by decide) (by decide)
  · refine ⟨freeSlots 0x80000001 (2 ^ 31), SlotRing.reachable_freeSlots (by decide), ?_, ?_⟩
    · rw [SlotRing.full, freeSlots_count, freeSlots_size]
      decide
    · rw [freeSlots_size, freeSlots_front, freeSlots_count]
      exact SlotRing.addIndex_neg (by decide) (by decide)

end Sizes

end ScaleStore
