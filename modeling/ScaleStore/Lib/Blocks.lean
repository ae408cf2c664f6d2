/-
# Sequences cut into blocks

A sequence stored block by block, every block but the last one full.  The element
at an index is then found by division: the quotient names the block, the remainder
the place in it.
-/

import Mathlib.Data.List.Basic
import Mathlib.Tactic.Common

namespace ScaleStore

universe u

variable {α : Type u} {cap : Nat} {b : List α} {bs : List (List α)}

/-- All blocks but the last one have `cap` elements, and the last one has no more. -/
def Packed (cap : Nat) : List (List α) → Prop
  | [] => True
  | [b] => b.length ≤ cap
  | b :: c :: bs => b.length = cap ∧ Packed cap (c :: bs)

namespace Packed

theorem tail (h : Packed cap (b :: bs)) : Packed cap bs := by
  cases bs with
  | nil => trivial
  | cons c bs => exact h.2

theorem length_head_le (h : Packed cap (b :: bs)) : b.length ≤ cap := by
  cases bs with
  | nil => exact h
  | cons c bs => exact Nat.le_of_eq h.1

theorem snoc_iff : Packed cap (bs ++ [b]) ↔ (∀ c ∈ bs, c.length = cap) ∧ b.length ≤ cap := by
  induction bs with
  | nil => simp [Packed]
  | cons c bs ih =>
    rw [List.forall_mem_cons, and_assoc, ← ih]
    cases bs <;> rfl

theorem drop (h : Packed cap bs) (k : Nat) : Packed cap (bs.drop k) := by
  induction k generalizing bs with
  | zero => exact h
  | succ k ih =>
    cases bs with
    | nil => trivial
    | cons b bs => exact ih h.tail

/-- Whole blocks are skipped by counting elements. -/
theorem drop_mul (h : Packed cap bs) (k : Nat) :
    bs.flatten.drop (cap * k) = (bs.drop k).flatten := by
  induction bs generalizing k with
  | nil => simp
  | cons b bs ih =>
    cases k with
    | zero => simp
    | succ k =>
      rw [List.drop_succ_cons, ← ih h.tail, List.flatten_cons, List.drop_append]
      have hskip : cap * (k + 1) = cap + cap * k := by
        rw [Nat.mul_succ, Nat.add_comm]
      have hle := h.length_head_le
      rw [List.drop_eq_nil_of_le (by omega), List.nil_append]
      cases bs with
      | nil => simp
      | cons c bs =>
        rw [hskip, h.1, Nat.add_sub_cancel_left]

/-- The element at an index, in the block the quotient names. -/
theorem getElem?_eq (h : Packed cap bs) (hcap : 0 < cap) (i : Nat) :
    bs.flatten[i]? = bs[i / cap]?.bind fun b => b[i % cap]? := by
  conv_lhs => rw [← Nat.div_add_mod i cap]
  rw [← List.getElem?_drop, h.drop_mul, ← List.head?_drop (i := i / cap)]
  have hrest := h.drop (i / cap)
  rcases hsplit : bs.drop (i / cap) with _ | ⟨b, cs⟩
  · simp
  · rw [hsplit] at hrest
    rw [List.flatten_cons, List.head?_cons, Option.bind_some]
    rcases Nat.lt_or_ge (i % cap) b.length with hlt | hge
    · exact List.getElem?_append_left hlt
    · -- only the last block can have room at this place
      cases cs with
      | nil => simp
      | cons c cs => exact absurd (Nat.mod_lt i hcap) (Nat.not_lt.mpr (hrest.1 ▸ hge))

/-- What follows an index: the rest of its block, then the blocks behind it. -/
theorem drop_eq (h : Packed cap bs) {i : Nat} (hi : bs[i / cap]? = some b)
    (hb : i % cap ≤ b.length) :
    bs.flatten.drop i = b.drop (i % cap) ++ (bs.drop (i / cap + 1)).flatten := by
  obtain ⟨hlt, rfl⟩ := List.getElem?_eq_some_iff.mp hi
  conv_lhs => rw [← Nat.div_add_mod i cap]
  rw [← List.drop_drop, h.drop_mul, List.drop_eq_getElem_cons hlt, List.flatten_cons,
    List.drop_append_of_le_length hb]

/-- The number of blocks, of which all but the first hold something. -/
theorem length_eq (h : Packed cap bs) (hcap : 0 < cap) (hne : bs ≠ [])
    (htail : ∀ b ∈ bs.tail, b ≠ []) :
    bs.length = max 1 ((bs.flatten.length + cap - 1) / cap) := by
  obtain ⟨cs, b, rfl⟩ := List.eq_nil_or_concat' bs |>.resolve_left hne
  obtain ⟨hfull, hle⟩ := snoc_iff.mp h
  have hlen : cs.flatten.length = cs.length * cap := by
    rw [List.length_flatten, List.map_congr_left hfull]
    simp
  rw [List.flatten_concat, List.length_append, List.length_append, hlen, List.length_singleton]
  rcases cs with _ | ⟨c, cs⟩
  · have hdiv : (([] : List (List α)).length * cap + b.length + cap - 1) / cap ≤ 1 := by
      rw [Nat.div_le_iff_le_mul_add_pred hcap, List.length_nil]
      omega
    exact (Nat.max_eq_left hdiv).symm
  · have hb : 0 < b.length := List.length_pos_of_ne_nil (htail b (by simp))
    have hdiv : ((c :: cs).length * cap + b.length + cap - 1) / cap = (c :: cs).length + 1 := by
      rw [Nat.div_eq_iff hcap, Nat.succ_mul]
      omega
    rw [hdiv]
    exact (Nat.max_eq_right (Nat.le_add_left _ _)).symm

end Packed

end ScaleStore
