/-
# Sizes that are powers of two

The page table and the ring buffers mask with their size less one, which has to be a
power of two.  `nextPowerTwo` smears the bits of a number to the right.  The shifts go
up to 16, so that each bit reaches only 31 places: the result is a power of two as
long as no 32 zeroes stand in a row below the highest bit.

`RingBuffer::add` puts its index into an `int`, which is too short from `2 ^ 31` on.
-/

import Mathlib.Data.Nat.Bitwise
import Mathlib.Tactic.Common

namespace ScaleStore

/-- `v |= v >> s`. -/
def smear (v : BitVec 64) (s : Nat) : BitVec 64 := v ||| (v >>> s)

/-- `Helper::nextPowerTwo`. -/
def nextPowerTwo (v : BitVec 64) : BitVec 64 :=
  smear (smear (smear (smear (smear (v - 1) 1) 2) 4) 8) 16 + 1

/-- `Helper::powerOfTwo`. -/
def powerOfTwo (n : BitVec 64) : Prop := n.toNat ≠ 0 ∧ n.toNat &&& (n.toNat - 1) = 0

instance (n : BitVec 64) : Decidable (powerOfTwo n) := inferInstanceAs (Decidable (_ ∧ _))

/-- The size of a ring for `sz` elements. -/
def ringSize (sz : BitVec 64) : Nat := (if powerOfTwo sz then sz else nextPowerTwo sz).toNat

/-- A 64-bit number that is assigned to an `int`. -/
def toInt32 (n : Nat) : Int := (BitVec.ofNat 32 n).toInt

/-- The index at which `RingBuffer::add` writes. -/
def addIndex (size front count : Nat) : Int := toInt32 ((front + count) &&& (size - 1))

theorem toInt32_of_lt {n : Nat} (h : n < 2 ^ 31) : toInt32 n = n := by
  rw [toInt32, BitVec.toInt_eq_toNat_of_lt, BitVec.toNat_ofNat, Nat.mod_eq_of_lt (by omega)]
  rw [BitVec.toNat_ofNat, Nat.mod_eq_of_lt (by omega)]
  omega

theorem and_mask_lt {size : Nat} (h : 0 < size) (n : Nat) : n &&& (size - 1) < size :=
  Nat.lt_of_le_of_lt Nat.and_le_right (Nat.sub_lt h Nat.zero_lt_one)

theorem addIndex_of_le {size front count : Nat} (hpos : 0 < size) (hsize : size ≤ 2 ^ 31) :
    addIndex size front count = ((front + count) &&& (size - 1) : Nat) :=
  toInt32_of_lt ((and_mask_lt hpos _).trans_le hsize)

/-! ## Smearing -/

/-- Each bit of `w` says whether `v` has a bit there or less than `m` places to the left. -/
def Smeared (v w : BitVec 64) (m : Nat) : Prop :=
  ∀ i, w.getLsbD i = true ↔ ∃ d, d < m ∧ v.getLsbD (i + d) = true

theorem Smeared.smear {v w : BitVec 64} {m : Nat} (h : Smeared v w m) :
    Smeared v (smear w m) (m + m) := by
  intro i
  rw [ScaleStore.smear, BitVec.getLsbD_or, BitVec.getLsbD_ushiftRight, Bool.or_eq_true, h, h]
  constructor
  · rintro (⟨d, hd, hbit⟩ | ⟨d, hd, hbit⟩)
    · exact ⟨d, by omega, hbit⟩
    · exact ⟨m + d, by omega, by rwa [← Nat.add_assoc, Nat.add_comm i m]⟩
  · rintro ⟨d, hd, hbit⟩
    by_cases hlt : d < m
    · exact .inl ⟨d, hlt, hbit⟩
    · refine .inr ⟨d - m, by omega, ?_⟩
      rwa [show m + i + (d - m) = i + d by omega]

theorem smeared (v : BitVec 64) :
    Smeared v (smear (smear (smear (smear (smear v 1) 2) 4) 8) 16) 32 := by
  have h : Smeared v v 1 := fun i => by simp
  exact h.smear.smear.smear.smear.smear

/-- Below the highest bit of a number there are nowhere 32 zeroes in a row. -/
def NoGap (w : Nat) : Prop := ∀ i, 2 ^ i ≤ w → (w >>> i) % 2 ^ 32 ≠ 0

theorem noGap_of_lt {w : Nat} (h : w < 2 ^ 32) : NoGap w := by
  intro i hi
  have hlt : w >>> i < 2 ^ 32 := (Nat.shiftRight_le w i).trans_lt h
  rw [Nat.mod_eq_of_lt hlt, Nat.shiftRight_eq_div_pow]
  exact (Nat.div_pos hi (Nat.two_pow_pos i)).ne'

/-- Somewhere in the next 32 places there is a bit. -/
theorem mod_ne_zero_iff {w i : Nat} :
    (w >>> i) % 2 ^ 32 ≠ 0 ↔ ∃ d, d < 32 ∧ w.testBit (i + d) = true := by
  constructor
  · intro h
    obtain ⟨d, hd⟩ := Nat.exists_testBit_of_ne_zero h
    rw [Nat.testBit_mod_two_pow, Nat.testBit_shiftRight, Bool.and_eq_true, decide_eq_true_eq] at hd
    exact ⟨d, hd.1, hd.2⟩
  · rintro ⟨d, hd, hbit⟩ hzero
    have hbit' : ((w >>> i) % 2 ^ 32).testBit d = true := by
      rw [Nat.testBit_mod_two_pow, Nat.testBit_shiftRight, hbit, decide_eq_true hd]
      rfl
    rw [hzero, Nat.zero_testBit] at hbit'
    cases hbit'

theorem le_smear (v : BitVec 64) (s : Nat) : v.toNat ≤ (smear v s).toNat := by
  rw [smear, BitVec.toNat_or]
  exact Nat.left_le_or

section Smears

variable {w : BitVec 64}

/-- Without gaps all bits up to the highest one are set. -/
theorem smeared_eq (hne : w.toNat ≠ 0) (hgap : NoGap w.toNat) :
    (smear (smear (smear (smear (smear w 1) 2) 4) 8) 16).toNat = 2 ^ (w.toNat.log2 + 1) - 1 := by
  apply Nat.eq_of_testBit_eq
  intro i
  rw [Nat.testBit_two_pow_sub_one, Bool.eq_iff_iff, decide_eq_true_eq]
  refine (smeared w i).trans ⟨fun ⟨d, _, hbit⟩ => ?_, fun hi => ?_⟩
  · by_contra hle
    have hlt : w.toNat < 2 ^ (i + d) := (Nat.log2_lt hne).mp (by omega)
    rw [BitVec.getLsbD, Nat.testBit_lt_two_pow hlt] at hbit
    cases hbit
  · have hle : 2 ^ i ≤ w.toNat :=
      (Nat.pow_le_pow_right (by omega) (Nat.le_of_lt_succ hi)).trans (Nat.log2_self_le hne)
    exact mod_ne_zero_iff.mp (hgap i hle)

theorem le_smeared (w : BitVec 64) :
    w.toNat ≤ (smear (smear (smear (smear (smear w 1) 2) 4) 8) 16).toNat :=
  ((((le_smear _ 1).trans (le_smear _ 2)).trans (le_smear _ 4)).trans (le_smear _ 8)).trans
    (le_smear _ 16)

theorem smeared_lt {k : Nat} (hlt : w.toNat < 2 ^ k) :
    (smear (smear (smear (smear (smear w 1) 2) 4) 8) 16).toNat < 2 ^ k := by
  refine Nat.lt_pow_two_of_testBit _ fun i hi => ?_
  by_contra hbit
  obtain ⟨d, _, hd⟩ := (smeared w i).mp (Bool.not_eq_false _ ▸ hbit)
  have hbig : w.toNat < 2 ^ (i + d) := hlt.trans_le (Nat.pow_le_pow_right (by omega) (by omega))
  rw [BitVec.getLsbD, Nat.testBit_lt_two_pow hbig] at hd
  cases hd

/-- If all bits are set, there were no gaps. -/
theorem noGap_of_smeared {k : Nat}
    (h : (smear (smear (smear (smear (smear w 1) 2) 4) 8) 16).toNat = 2 ^ k - 1) :
    NoGap w.toNat := by
  intro i hi
  have hlt : 2 ^ i < 2 ^ k := by
    have := le_smeared w
    have := Nat.two_pow_pos k
    omega
  refine mod_ne_zero_iff.mpr ((smeared w i).mp ?_)
  rw [BitVec.getLsbD, h, Nat.testBit_two_pow_sub_one]
  exact decide_eq_true ((Nat.pow_lt_pow_iff_right (by omega)).mp hlt)

end Smears

/-! ## Powers of two -/

/-- `r` is the least power of two that is not smaller than `v`. -/
def LeastPower (v r : Nat) : Prop := (∃ k, r = 2 ^ k) ∧ v ≤ r ∧ ∀ k, v ≤ 2 ^ k → r ≤ 2 ^ k

section NextPowerTwo

variable {v : BitVec 64}

theorem toNat_pred (hlo : 1 ≤ v.toNat) : (v - 1).toNat = v.toNat - 1 := by
  rw [BitVec.toNat_sub_of_le]
  · rfl
  · rw [BitVec.le_def]
    exact hlo

/-- The last addition does not wrap around. -/
theorem nextPowerTwo_eq (hlo : 1 ≤ v.toNat) (hhi : v.toNat ≤ 2 ^ 63) :
    (nextPowerTwo v).toNat =
      (smear (smear (smear (smear (smear (v - 1) 1) 2) 4) 8) 16).toNat + 1 := by
  have hpred := toNat_pred hlo
  have hlt := smeared_lt (show (v - 1).toNat < 2 ^ 63 by omega)
  rw [nextPowerTwo, BitVec.toNat_add]
  show (_ + 1) % 2 ^ 64 = _
  exact Nat.mod_eq_of_lt (by omega)

theorem le_nextPowerTwo (hlo : 1 ≤ v.toNat) (hhi : v.toNat ≤ 2 ^ 63) :
    v.toNat ≤ (nextPowerTwo v).toNat := by
  have hpred := toNat_pred hlo
  have hle := le_smeared (v - 1)
  rw [nextPowerTwo_eq hlo hhi]
  omega

theorem nextPowerTwo_of_noGap (hlo : 2 ≤ v.toNat) (hhi : v.toNat ≤ 2 ^ 63)
    (hgap : NoGap (v.toNat - 1)) : (nextPowerTwo v).toNat = 2 ^ ((v.toNat - 1).log2 + 1) := by
  have hpred := toNat_pred (Nat.le_of_succ_le hlo)
  rw [nextPowerTwo_eq (Nat.le_of_succ_le hlo) hhi, smeared_eq (by omega) (hpred ▸ hgap), hpred]
  exact Nat.sub_add_cancel (Nat.two_pow_pos _)

theorem noGap_of_nextPowerTwo (hlo : 1 ≤ v.toNat) (hhi : v.toNat ≤ 2 ^ 63) {k : Nat}
    (h : (nextPowerTwo v).toNat = 2 ^ k) : NoGap (v.toNat - 1) := by
  rw [← toNat_pred hlo]
  rw [nextPowerTwo_eq hlo hhi] at h
  exact noGap_of_smeared (Nat.eq_sub_of_add_eq h)

theorem nextPowerTwo_least (hlo : 1 ≤ v.toNat) (hhi : v.toNat ≤ 2 ^ 63)
    (hgap : NoGap (v.toNat - 1)) : LeastPower v.toNat (nextPowerTwo v).toNat := by
  rcases Nat.eq_or_lt_of_le hlo with hone | htwo
  · obtain rfl : v = 1 := BitVec.eq_of_toNat_eq hone.symm
    exact ⟨⟨0, rfl⟩, le_rfl, fun k _ => Nat.one_le_two_pow⟩
  · rw [nextPowerTwo_of_noGap htwo hhi hgap]
    refine ⟨⟨_, rfl⟩, ?_, fun k hk => Nat.pow_le_pow_right (by omega) ?_⟩
    · have hlt := Nat.lt_log2_self (n := v.toNat - 1)
      omega
    · exact (Nat.log2_lt (by omega)).mpr (by omega)

/-- Powers of two remain as they are. -/
theorem nextPowerTwo_two_pow (hlo : 1 ≤ v.toNat) (hhi : v.toNat ≤ 2 ^ 63) {k : Nat}
    (h : v.toNat = 2 ^ k) : (nextPowerTwo v).toNat = 2 ^ k := by
  have hpred := toNat_pred hlo
  have hle := le_smeared (v - 1)
  have hlt := smeared_lt (show (v - 1).toNat < 2 ^ k by omega)
  rw [nextPowerTwo_eq hlo hhi]
  omega

/-- Above `2 ^ 31` the mask has a bit that does not fit into an `int`. -/
theorem testBit_mask (hlo : 2 ^ 31 < v.toNat) (hhi : v.toNat ≤ 2 ^ 63) :
    ((nextPowerTwo v).toNat - 1).testBit 31 = true := by
  have hpos : 1 ≤ v.toNat := by omega
  have hpred := toNat_pred hpos
  have hne : (v - 1).toNat ≠ 0 := by omega
  have hlog : 31 ≤ (v - 1).toNat.log2 := (Nat.le_log2 hne).mpr (by omega)
  have hlog' : (v - 1).toNat.log2 < 63 := (Nat.log2_lt hne).mpr (by omega)
  rw [nextPowerTwo_eq hpos hhi, Nat.add_sub_cancel]
  refine (smeared (v - 1) 31).mpr ⟨(v - 1).toNat.log2 - 31, by omega, ?_⟩
  rw [Nat.add_sub_cancel' hlog]
  exact Nat.testBit_log2 hne

/-! ## The sizes of rings -/

theorem ringSize_eq (hlo : 1 ≤ v.toNat) (hhi : v.toNat ≤ 2 ^ 63) :
    ringSize v = (nextPowerTwo v).toNat := by
  unfold ringSize
  split
  case isTrue h =>
    obtain ⟨k, hk⟩ := Nat.ne_zero_and_sub_one_eq_zero_iff_isPowerOfTwo.mp h
    exact hk.trans (nextPowerTwo_two_pow hlo hhi hk).symm
  case isFalse => rfl

theorem le_ringSize (hlo : 1 ≤ v.toNat) (hhi : v.toNat ≤ 2 ^ 63) : v.toNat ≤ ringSize v := by
  rw [ringSize_eq hlo hhi]
  exact le_nextPowerTwo hlo hhi

theorem ringSize_least (hlo : 1 ≤ v.toNat) (hhi : v.toNat ≤ 2 ^ 32) :
    LeastPower v.toNat (ringSize v) := by
  rw [ringSize_eq hlo (by omega)]
  exact nextPowerTwo_least hlo (by omega) (noGap_of_lt (by omega))

end NextPowerTwo

end ScaleStore
