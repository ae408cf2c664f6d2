/-
# Programs on arrays, with the accesses they make

An array is a function on the naturals of which the first `capacity` cells exist.
A program returns its result together with every access it has made: a cell that it
reads or writes, or a block that it copies.  It is safe if all of them lie inside.

Indices and the lengths of blocks may be computed by subtractions, so they are
integers here; a negative length would be a huge unsigned one.
-/

import Mathlib.Logic.Function.Basic
import Mathlib.Tactic.Common

namespace ScaleStore

universe u v

/-- An access to an array, or a copy from one array into another. -/
inductive Access where
  | cell (capacity : Nat) (index : Int)
  | block (capacity dst srcCapacity src : Nat) (n : Int)
deriving DecidableEq, Repr

def Access.Inside : Access → Prop
  | cell capacity index => 0 ≤ index ∧ index < capacity
  | block capacity dst srcCapacity src n => 0 ≤ n ∧ dst + n ≤ capacity ∧ src + n ≤ srcCapacity

instance : DecidablePred Access.Inside := fun access =>
  match access with
  | .cell .. => inferInstanceAs (Decidable (_ ∧ _))
  | .block .. => inferInstanceAs (Decidable (_ ∧ _))

/-- A result with the accesses that have been made for it. -/
structure Traced (α : Type u) where
  value : α
  accesses : List Access

namespace Traced

variable {α β : Type u}

instance : Monad Traced where
  pure a := ⟨a, []⟩
  bind m f := ⟨(f m.value).value, m.accesses ++ (f m.value).accesses⟩

def Safe (m : Traced α) : Prop := ∀ access ∈ m.accesses, access.Inside

@[simp] theorem value_pure (a : α) : (pure a : Traced α).value = a := rfl

@[simp] theorem value_bind (m : Traced α) (f : α → Traced β) :
    (m >>= f).value = (f m.value).value := rfl

@[simp] theorem value_map (m : Traced α) (f : α → β) : (f <$> m).value = f m.value := rfl

@[simp] theorem safe_pure (a : α) : (pure a : Traced α).Safe := fun _ h => nomatch h

@[simp] theorem safe_bind {m : Traced α} {f : α → Traced β} :
    (m >>= f).Safe ↔ m.Safe ∧ (f m.value).Safe :=
  List.forall_mem_append

@[simp] theorem safe_map {m : Traced α} {f : α → β} : (f <$> m).Safe ↔ m.Safe := by
  show (∀ access ∈ m.accesses ++ [], access.Inside) ↔ _
  rw [List.append_nil]
  rfl

theorem value_ite {p : Prop} [Decidable p] {m m' : Traced α} :
    (if p then m else m').value = if p then m.value else m'.value := apply_ite ..

theorem safe_ite {p : Prop} [Decidable p] {m m' : Traced α} :
    (if p then m else m').Safe ↔ (p → m.Safe) ∧ (¬ p → m'.Safe) := by
  split <;> simp_all

end Traced

open Traced

variable {α : Type u} (capacity : Nat) (array : Nat → α)

@[reducible] def readCell (i : Nat) : Traced α := ⟨array i, [.cell capacity i]⟩

/-- A read at an index that may be negative. -/
def readAt (i : Int) : Traced α := ⟨array i.toNat, [.cell capacity i]⟩

def writeCell (i : Nat) (a : α) : Traced (Nat → α) :=
  ⟨Function.update array i a, [.cell capacity i]⟩

/-- `memcpy`. -/
def copyBlock (dst srcCapacity : Nat) (source : Nat → α) (src : Nat) (n : Int) :
    Traced (Nat → α) :=
  ⟨fun i => if dst ≤ i ∧ i < dst + n then source (src + (i - dst)) else array i,
    [.block capacity dst srcCapacity src n]⟩

/-- `memmove` within one array. -/
def moveBlock (dst src : Nat) (n : Int) : Traced (Nat → α) :=
  copyBlock capacity array dst capacity array src n

variable {capacity array}

theorem safe_cell {i : Nat} {a : α} :
    (⟨a, [.cell capacity i]⟩ : Traced α).Safe ↔ i < capacity := by
  refine List.forall_mem_singleton.trans ?_
  show (0 : Int) ≤ i ∧ (i : Int) < capacity ↔ _
  omega

@[simp] theorem safe_readCell (i : Nat) : (readCell capacity array i).Safe ↔ i < capacity :=
  safe_cell

@[simp] theorem value_readAt (i : Int) : (readAt capacity array i).value = array i.toNat := rfl

@[simp] theorem safe_readAt (i : Int) :
    (readAt capacity array i).Safe ↔ 0 ≤ i ∧ i < capacity :=
  List.forall_mem_singleton

@[simp] theorem value_writeCell (i : Nat) (a : α) :
    (writeCell capacity array i a).value = Function.update array i a := rfl

@[simp] theorem safe_writeCell (i : Nat) (a : α) :
    (writeCell capacity array i a).Safe ↔ i < capacity :=
  safe_cell

@[simp] theorem safe_copyBlock (dst srcCapacity : Nat) (source : Nat → α) (src : Nat) (n : Int) :
    (copyBlock capacity array dst srcCapacity source src n).Safe ↔
      0 ≤ n ∧ dst + n ≤ capacity ∧ src + n ≤ srcCapacity :=
  List.forall_mem_singleton

theorem value_moveBlock (dst src : Nat) (n : Int) (i : Nat) :
    (moveBlock capacity array dst src n).value i =
      if dst ≤ i ∧ i < dst + n then array (src + (i - dst)) else array i := rfl

@[simp] theorem safe_moveBlock (dst src : Nat) (n : Int) :
    (moveBlock capacity array dst src n).Safe ↔
      0 ≤ n ∧ dst + n ≤ capacity ∧ src + n ≤ capacity :=
  List.forall_mem_singleton

end ScaleStore
