/-
# The set bits of a word

A loop that takes the lowest set bit off a word, `x ^ (x & -x)`, goes through its set
bits in ascending order.
-/

import Mathlib.Data.List.Sort

namespace ScaleStore.SetBits

variable {w : Nat} {x : BitVec w} {i : Nat}

/-- The set bits in ascending order. -/
def setBits (x : BitVec w) : List Nat := (List.range w).filter x.getLsbD

/-- The word without its lowest set bit. -/
def clearLowest (x : BitVec w) : BitVec w := x ^^^ (x &&& -x)

theorem mem_setBits : i ∈ setBits x ↔ x.getLsbD i = true := by
  rw [setBits, List.mem_filter, List.mem_range, and_iff_right_iff_imp]
  exact BitVec.lt_of_getLsbD

theorem setBits_sorted (x : BitVec w) : (setBits x).Pairwise (· < ·) :=
  List.pairwise_lt_range.filter _

theorem setBits_nodup (x : BitVec w) : (setBits x).Nodup := List.nodup_range.filter _

theorem setBits_eq_nil_iff : setBits x = [] ↔ x = 0 := by
  constructor
  · intro h
    refine BitVec.eq_of_getLsbD_eq fun i _ => ?_
    have hmem : i ∉ setBits x := h ▸ List.not_mem_nil
    rw [mem_setBits, Bool.not_eq_true] at hmem
    rw [hmem]
    exact BitVec.getLsbD_zero.symm
  · rintro rfl
    exact List.filter_eq_nil_iff.mpr fun i _ => by simp

theorem length_setBits_le (x : BitVec w) : (setBits x).length ≤ w := by
  have h := List.length_filter_le x.getLsbD (List.range w)
  rwa [List.length_range] at h

/-- `__builtin_popcount`. -/
theorem length_setBits (x : BitVec w) : (setBits x).length = x.cpop.toNat := by
  have h : ∀ n, x.cpopNatRec n 0 = ((List.range n).filter x.getLsbD).length := by
    intro n
    induction n with
    | zero => rfl
    | succ n ih =>
        rw [BitVec.cpopNatRec_succ, BitVec.cpopNatRec_eq, ih, List.range_succ, List.filter_append,
          List.length_append]
        cases hbit : x.getLsbD n <;> simp [hbit]
  rw [BitVec.toNat_cpop, h]
  rfl

/-- The lowest set bit is the one that nothing is below. -/
theorem getLsbD_lowest (hx : x ≠ 0) (i : Nat) :
    (x &&& -x).getLsbD i = decide (i = x.ctz.toNat) := by
  have hset := BitVec.getLsbD_true_ctz_of_ne_zero hx
  rw [BitVec.getLsbD_and, BitVec.getLsbD_neg, Bool.eq_iff_iff, decide_eq_true_eq]
  have hbelow : ∀ j, j < x.ctz.toNat → x.getLsbD j = false := fun j hj =>
    BitVec.getLsbD_false_of_lt_ctz hj
  constructor
  · intro h
    rcases Nat.lt_trichotomy i x.ctz.toNat with hlt | heq | hgt
    · simp [hbelow i hlt] at h
    · exact heq
    · have hex : ∃ j < i, x.getLsbD j = true := ⟨_, hgt, hset⟩
      obtain ⟨hbit, hneg⟩ := (Bool.and_eq_true _ _).mp h
      rw [hbit, decide_eq_true (BitVec.lt_of_getLsbD hbit), decide_eq_true hex] at hneg
      cases hneg
  · rintro rfl
    have hnone : ¬ ∃ j < x.ctz.toNat, x.getLsbD j = true := by
      rintro ⟨j, hj, hbit⟩
      rw [hbelow j hj] at hbit
      cases hbit
    simp [hset, hnone]

theorem getLsbD_clearLowest (hx : x ≠ 0) (i : Nat) :
    (clearLowest x).getLsbD i = true ↔ x.getLsbD i = true ∧ i ≠ x.ctz.toNat := by
  have hset := BitVec.getLsbD_true_ctz_of_ne_zero hx
  rw [clearLowest, BitVec.getLsbD_xor, getLsbD_lowest hx]
  by_cases hi : i = x.ctz.toNat
  · subst hi
    simp [hset]
  · simp [hi]

/-- One round of the loop. -/
theorem setBits_eq_cons (hx : x ≠ 0) : setBits x = x.ctz.toNat :: setBits (clearLowest x) := by
  refine (setBits_sorted x).eq_of_mem_iff
    (List.pairwise_cons.mpr ⟨fun i hi => ?_, setBits_sorted _⟩) fun i => ?_
  · obtain ⟨hbit, hne⟩ := (getLsbD_clearLowest hx i).mp (mem_setBits.mp hi)
    by_contra hle
    rw [BitVec.getLsbD_false_of_lt_ctz (by omega)] at hbit
    cases hbit
  · rw [List.mem_cons, mem_setBits, mem_setBits, getLsbD_clearLowest hx]
    constructor
    · intro hbit
      by_cases hi : i = x.ctz.toNat
      · exact .inl hi
      · exact .inr ⟨hbit, hi⟩
    · rintro (rfl | hbit)
      · exact BitVec.getLsbD_true_ctz_of_ne_zero hx
      · exact hbit.1

end ScaleStore.SetBits
