/-
# Ring buffers

A fixed array whose size is a power of two, a front index and a count.  Indices
wrap by masking with `size - 1`.  Nothing is checked on the way in: `add` relies
on its caller to have asked `full`.
-/

import Mathlib.Data.Nat.Bitwise
import Mathlib.Data.Nat.ModEq
import Mathlib.Logic.Function.Basic

namespace ScaleStore

universe u

/-- `RingBuffer<T>`; the cells outside the window `front, …, front + count - 1` hold anything. -/
structure RingBuffer (T : Type u) where
  size : Nat
  data : Nat → T
  front : Nat
  count : Nat
  size_pow : ∃ k, size = 2 ^ k
  /-- `add` keeps its index in an `int`. -/
  size_le : size ≤ 2 ^ 31
  front_lt : front < size
  count_le : count ≤ size

namespace RingBuffer

variable {T : Type u}

def empty (r : RingBuffer T) : Prop := r.count = 0

def full (r : RingBuffer T) : Prop := r.count = r.size

instance (r : RingBuffer T) : Decidable r.full := inferInstanceAs (Decidable (_ = _))

/-- The cell `i` places behind the front. -/
def index (r : RingBuffer T) (i : Nat) : Nat := (r.front + i) &&& (r.size - 1)

/-- `add`, for a caller that has seen the buffer not full. -/
def add (r : RingBuffer T) (t : T) (h : ¬ r.full) : RingBuffer T :=
  { r with
    data := Function.update r.data (r.index r.count) t
    count := r.count + 1
    count_le := by
      have hle := r.count_le
      have hne : r.count ≠ r.size := h
      omega }

/-- The cell that `remove` returns. -/
def peek (r : RingBuffer T) : T := r.data r.front

/-- The buffer `remove` leaves behind. -/
def remove (r : RingBuffer T) : RingBuffer T :=
  { r with
    front := (r.front + 1) &&& (r.size - 1)
    count := r.count - 1
    front_lt := by
      obtain ⟨k, hk⟩ := r.size_pow
      rw [hk, Nat.and_two_pow_sub_one_eq_mod]
      exact Nat.mod_lt _ (Nat.two_pow_pos k)
    count_le := Nat.le_trans (Nat.sub_le _ _) r.count_le }

/-- The elements in the order in which `remove` returns them. -/
def toList (r : RingBuffer T) : List T :=
  (List.range r.count).map fun i => r.data (r.index i)

theorem index_eq (r : RingBuffer T) (i : Nat) : r.index i = (r.front + i) % r.size := by
  obtain ⟨k, hk⟩ := r.size_pow
  rw [index, hk, Nat.and_two_pow_sub_one_eq_mod]

/-- Within one round all cells are different. -/
theorem index_inj (r : RingBuffer T) {i j : Nat} (hi : i < r.size) (hj : j < r.size)
    (h : r.index i = r.index j) : i = j := by
  rw [index_eq, index_eq] at h
  have hmod : Nat.ModEq r.size i j := Nat.ModEq.add_left_cancel' r.front h
  rwa [Nat.ModEq, Nat.mod_eq_of_lt hi, Nat.mod_eq_of_lt hj] at hmod

theorem toList_add (r : RingBuffer T) (t : T) (h : ¬ r.full) :
    (r.add t h).toList = r.toList ++ [t] := by
  have hlt : r.count < r.size := Nat.lt_of_le_of_ne r.count_le h
  have hold : ∀ i ∈ List.range r.count,
      Function.update r.data (r.index r.count) t (r.index i) = r.data (r.index i) := by
    intro i hi
    have hi' := List.mem_range.mp hi
    apply Function.update_of_ne
    intro heq
    have := r.index_inj (by omega) hlt heq
    omega
  have hmap := List.map_congr_left hold
  simp only [toList, add, List.range_succ, List.map_append, List.map_cons, List.map_nil]
  refine congrArg₂ (· ++ ·) hmap ?_
  simp [index]

/-- `remove` takes the first element out. -/
theorem toList_remove (r : RingBuffer T) (h : 0 < r.count) :
    r.toList = r.peek :: r.remove.toList := by
  obtain ⟨n, hn⟩ : ∃ n, r.count = n + 1 := ⟨r.count - 1, by omega⟩
  have hfirst : r.index 0 = r.front := by
    rw [index_eq, Nat.add_zero, Nat.mod_eq_of_lt r.front_lt]
  have hnext : ∀ i, r.remove.index i = r.index (i + 1) := by
    intro i
    rw [index_eq, index_eq]
    obtain ⟨k, hk⟩ := r.size_pow
    simp only [remove, hk, Nat.and_two_pow_sub_one_eq_mod, Nat.mod_add_mod]
    congr 1
    omega
  have hrest : r.remove.toList = (List.range n).map fun i => r.data (r.index (i + 1)) := by
    have hcount : r.remove.count = n := by simp [remove, hn]
    rw [toList, hcount]
    exact List.map_congr_left fun i _ => congrArg r.data (hnext i)
  rw [hrest, toList, hn, List.range_succ_eq_map, List.map_cons, List.map_map, hfirst]
  rfl

end RingBuffer

end ScaleStore
