/-
# Structure layout

The layout rules of C++ for plain structures: a member is placed at the next
multiple of its alignment, and the size of a structure is rounded up to the
largest alignment of its members.  Alignments are powers of two and divide the
size of their type, so that the elements of an array follow each other without
gaps.

The one fact that users need about rounding is when a rounded offset still lies
below a limit: exactly when the offset does after the part of the limit that no
multiple of the alignment reaches has been given up.
-/

import Mathlib.Data.Nat.Basic
import Mathlib.Tactic

namespace ScaleStore.StructLayout

/-! ## Rounding up -/

/-- The least multiple of `a` that is not smaller than `n`. -/
def alignUp (n a : Nat) : Nat := (n + a - 1) / a * a

variable {n m a : Nat}

theorem dvd_alignUp (n a : Nat) : a ∣ alignUp n a := Nat.dvd_mul_left a _

theorem le_alignUp (ha : 0 < a) : n ≤ alignUp n a := by
  have hlt := Nat.lt_div_mul_add ha (a := n + a - 1)
  unfold alignUp
  omega

theorem alignUp_le (ha : 0 < a) (hle : n ≤ m) (hdvd : a ∣ m) : alignUp n a ≤ m := by
  obtain ⟨q, rfl⟩ := hdvd
  have hdiv : (n + a - 1) / a ≤ q := by
    have : (n + a - 1) / a < q + 1 := by
      rw [Nat.div_lt_iff_lt_mul ha, Nat.add_mul, Nat.one_mul, Nat.mul_comm q a]
      omega
    omega
  rw [alignUp, Nat.mul_comm a q]
  exact Nat.mul_le_mul_right a hdiv

theorem alignUp_of_dvd (ha : 0 < a) (h : a ∣ n) : alignUp n a = n :=
  le_antisymm (alignUp_le ha le_rfl h) (le_alignUp ha)

/-- A rounded offset lies below a limit when the offset does without the remainder of the limit. -/
theorem alignUp_le_iff (ha : 0 < a) : alignUp n a ≤ m ↔ n + m % a ≤ m := by
  have hmod : m % a ≤ m := Nat.mod_le m a
  constructor
  · intro h
    obtain ⟨q, hq⟩ := dvd_alignUp n a
    have hn := le_alignUp (n := n) ha
    have hqm : q ≤ m / a := by
      rw [Nat.le_div_iff_mul_le ha, Nat.mul_comm, ← hq]
      exact h
    have hmul : a * q ≤ a * (m / a) := Nat.mul_le_mul_left a hqm
    have hdiv := Nat.div_add_mod m a
    omega
  · intro h
    have hle : alignUp n a ≤ m - m % a := alignUp_le ha (by omega) (Nat.dvd_sub_mod m)
    omega

/-! ## Types -/

/-- What the layout rules know about a type. -/
structure ObjectType where
  size : Nat
  align : Nat
  align_pow : ∃ k, align = 2 ^ k
  align_dvd : align ∣ size

namespace ObjectType

theorem align_pos (t : ObjectType) : 0 < t.align := by
  obtain ⟨k, hk⟩ := t.align_pow
  rw [hk]
  exact Nat.two_pow_pos k

/-- An unsigned integer, a boolean or a pointer of `2 ^ k` bytes. -/
def scalar (k : Nat) : ObjectType := ⟨2 ^ k, 2 ^ k, ⟨k, rfl⟩, Nat.dvd_refl _⟩

def array (t : ObjectType) (n : Nat) : ObjectType :=
  ⟨n * t.size, t.align, t.align_pow, Nat.dvd_mul_left_of_dvd t.align_dvd n⟩

end ObjectType

/-! ## Structures -/

/-- Where the last member ends when the members follow the first `offset` bytes. -/
def membersEnd (offset : Nat) (members : List ObjectType) : Nat :=
  members.foldl (fun o t => alignUp o t.align + t.size) offset

def maxAlign (members : List ObjectType) : Nat := members.foldr (fun t a => max t.align a) 1

theorem maxAlign_pow (members : List ObjectType) : ∃ k, maxAlign members = 2 ^ k := by
  induction members with
  | nil => exact ⟨0, rfl⟩
  | cons t rest ih =>
    show ∃ k, max t.align (maxAlign rest) = 2 ^ k
    rcases le_total t.align (maxAlign rest) with h | h
    · rw [max_eq_right h]
      exact ih
    · rw [max_eq_left h]
      exact t.align_pow

/-- A structure of these members, with its padding at the end. -/
def struct (members : List ObjectType) : ObjectType :=
  ⟨alignUp (membersEnd 0 members) (maxAlign members), maxAlign members, maxAlign_pow members,
    dvd_alignUp _ _⟩

end ScaleStore.StructLayout
