/-
# The ring of free slots

`RingBuffer` takes its size from the number of elements that it is to hold, rounded up
to a power of two.  `add` does not look whether there is room, and puts its index into
an `int`; `remove` makes sure that there is an element.
-/

import ScaleStore.Lib.RingBuffer
import ScaleStore.Structures.PowerTwo

namespace ScaleStore

/-- `RingBuffer<uint64_t>`, with nothing promised about its fields; what lies around the array
has an index as well. -/
structure SlotRing where
  size : Nat
  data : Int → Nat
  front : Nat
  count : Nat

namespace SlotRing

variable (r : SlotRing)

def add (slot : Nat) : SlotRing :=
  { r with
    data := Function.update r.data (addIndex r.size r.front r.count) slot
    count := r.count + 1 }

/-- `remove`; nothing is returned where it throws. -/
def remove : Option (Nat × SlotRing) :=
  if r.count > 0 then
    some (r.data r.front, { r with front := (r.front + 1) &&& (r.size - 1), count := r.count - 1 })
  else none

/-- The slots in the order in which `remove` returns them. -/
def slots : List Nat :=
  (List.range r.count).map fun i => r.data ((r.front + i) &&& (r.size - 1) : Nat)

/-- What the operations rely on. -/
structure Sound : Prop where
  size_pow : ∃ k, r.size = 2 ^ k
  size_le : r.size ≤ 2 ^ 31
  front_lt : r.front < r.size
  count_le : r.count ≤ r.size

/-- A sound ring is a checked one. -/
def checked (h : r.Sound) : RingBuffer Nat where
  size := r.size
  data i := r.data i
  front := r.front
  count := r.count
  size_pow := h.size_pow
  size_le := h.size_le
  front_lt := h.front_lt
  count_le := h.count_le

@[simp] theorem length_slots : r.slots.length = r.count := by simp [slots]

theorem add_data (slot : Nat) : (r.add slot).data =
    Function.update r.data (addIndex r.size r.front r.count) slot := rfl

variable {r} {slot : Nat}

theorem Sound.add (h : r.Sound) (slot : Nat) (hlt : r.count < r.size) :
    (r.add slot).Sound ∧ (r.add slot).slots = r.slots ++ [slot] := by
  refine ⟨⟨h.size_pow, h.size_le, h.front_lt, hlt⟩, ?_⟩
  have hcast : Function.Injective (fun i : Nat => (i : Int)) := fun _ _ => Int.ofNat.inj
  have hdata := Function.update_comp_eq_of_injective r.data hcast
    ((r.front + r.count) &&& (r.size - 1)) slot
  have hslots : (r.add slot).slots = ((r.checked h).add slot hlt.ne).toList := by
    refine List.map_congr_left fun i _ => ?_
    rw [add_data, addIndex_of_le (Nat.zero_lt_of_lt hlt) h.size_le]
    exact congrFun hdata _
  exact hslots.trans ((r.checked h).toList_add slot hlt.ne)

theorem Sound.remove (h : r.Sound) {r' : SlotRing} (hr : r.remove = some (slot, r')) :
    r'.Sound ∧ r.slots = slot :: r'.slots ∧ r'.size = r.size := by
  unfold SlotRing.remove at hr
  split at hr
  case isTrue hpos =>
    obtain ⟨rfl, rfl⟩ := Prod.mk.inj (Option.some.inj hr)
    have hchecked := (r.checked h).remove
    exact ⟨⟨h.size_pow, h.size_le, (r.checked h).remove.front_lt, (r.checked h).remove.count_le⟩,
      (r.checked h).toList_remove hpos, rfl⟩
  case isFalse => cases hr

end SlotRing

/-- The ring that the buffers build: it holds the slots below `batch_max_size`. -/
def freeSlots (batch_max_size : BitVec 64) : Nat → SlotRing
  | 0 => { size := ringSize batch_max_size, data := fun _ => 0, front := 0, count := 0 }
  | n + 1 => (freeSlots batch_max_size n).add n

variable {batch_max_size : BitVec 64} {n : Nat}

@[simp] theorem freeSlots_size : (freeSlots batch_max_size n).size = ringSize batch_max_size := by
  induction n with
  | zero => rfl
  | succ n ih => exact ih

@[simp] theorem freeSlots_count : (freeSlots batch_max_size n).count = n := by
  induction n with
  | zero => rfl
  | succ n ih => exact congrArg (· + 1) ih

@[simp] theorem freeSlots_front : (freeSlots batch_max_size n).front = 0 := by
  induction n with
  | zero => rfl
  | succ n ih => exact ih

theorem freeSlots_sound (hlo : 1 ≤ batch_max_size.toNat) (hhi : batch_max_size.toNat ≤ 2 ^ 31)
    (hn : n ≤ ringSize batch_max_size) :
    (freeSlots batch_max_size n).Sound ∧ (freeSlots batch_max_size n).slots = List.range n := by
  obtain ⟨hpow, hle, hleast⟩ := ringSize_least hlo (by omega)
  induction n with
  | zero => exact ⟨⟨hpow, hleast 31 hhi, Nat.lt_of_lt_of_le hlo hle, Nat.zero_le _⟩, rfl⟩
  | succ n ih =>
    obtain ⟨hsound, hslots⟩ := ih (Nat.le_of_succ_le hn)
    have hadd := hsound.add n (by simpa using Nat.lt_of_succ_le hn)
    exact ⟨hadd.1, by rw [freeSlots, hadd.2, hslots, List.range_succ]⟩

/-- Up to `2 ^ 31` each slot goes to its own place. -/
theorem freeSlots_data (hsize : ringSize batch_max_size = 2 ^ 32) (hn : n ≤ 2 ^ 31) (i : Nat) :
    (freeSlots batch_max_size n).data i = if i < n then i else 0 := by
  induction n with
  | zero => rfl
  | succ n ih =>
    have hindex : addIndex (2 ^ 32) 0 n = n := by
      have hmask : (0 + n) &&& (2 ^ 32 - 1) = n := by
        rw [Nat.zero_add, Nat.and_two_pow_sub_one_of_lt_two_pow (by omega)]
      rw [addIndex, hmask]
      exact toInt32_of_lt (by omega)
    rw [freeSlots, SlotRing.add_data, freeSlots_size, freeSlots_front, freeSlots_count, hsize,
      hindex, Function.update_apply, ih (Nat.le_of_succ_le hn)]
    split_ifs <;> omega

/-- The slot `2 ^ 31` goes to a place before the array, and is lost. -/
theorem freeSlots_lost (hsize : ringSize batch_max_size = 2 ^ 32) :
    2 ^ 31 ∉ (freeSlots batch_max_size (2 ^ 31 + 1)).slots := by
  have hindex : addIndex (2 ^ 32) 0 (2 ^ 31) = -2 ^ 31 := by decide
  intro hmem
  obtain ⟨i, hi, hslot⟩ := List.mem_map.mp hmem
  rw [List.mem_range, freeSlots_count] at hi
  rw [freeSlots_front, freeSlots_size, hsize, Nat.zero_add,
    Nat.and_two_pow_sub_one_of_lt_two_pow (by omega), freeSlots, SlotRing.add_data, freeSlots_size,
    freeSlots_front, freeSlots_count, hsize, hindex, Function.update_of_ne (by omega),
    freeSlots_data hsize le_rfl] at hslot
  split_ifs at hslot
  omega

end ScaleStore
