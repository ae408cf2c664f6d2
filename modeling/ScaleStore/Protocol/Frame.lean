/-
# Buffer frames

What the possession protocol keeps about a page on one node: `BufferFrame` with
its latch, its possession and the `Possessors` union.  The union is modelled by
the 64 bits both of its members share; `exclusive` and `shared` may only be used
in the mode `possession` names, and using the wrong one is a fault.

A frame that is not in the hash table (`BF_STATE::FREE`) has no value here.
-/

import Mathlib.Algebra.GroupWithZero.Nat
import Mathlib.Data.Finset.Card
import Mathlib.Data.Fintype.Basic
import Mathlib.Tactic.Common

namespace ScaleStore.Protocol

/-- `NodeID`, as far as a 64-bit possession bitmap can name nodes. -/
abbrev NodeID := Fin 64

instance instNeZeroNodes : NeZero 64 := ⟨by decide⟩

/-! ## The possessors union -/

/-- The storage of `union Possessors`. -/
abbrev Possessors := BitVec 64

namespace Possessors

/-- `StaticBitmap<64>::test`. -/
def test (b : Possessors) (n : NodeID) : Bool := b.getLsbD n

/-- `StaticBitmap<64>::set`. -/
def set (b : Possessors) (n : NodeID) : Possessors := b ||| (1#64 <<< n.val)

/-- `StaticBitmap<64>::reset`. -/
def reset (b : Possessors) (n : NodeID) : Possessors := b &&& ~~~(1#64 <<< n.val)

/-- `StaticBitmap<64>::any`. -/
def any (b : Possessors) : Bool := b != 0#64

/-- `StaticBitmap<64>::count`. -/
def count (b : Possessors) : Nat := (Finset.univ.filter fun n : NodeID => b.test n).card

/-- The storage after writing `n` through the member `exclusive`. -/
def ofNode (n : NodeID) : Possessors := BitVec.ofNat 64 n

/-- The storage read through the member `exclusive`. -/
def toNode (b : Possessors) : NodeID := Fin.ofNat 64 b.toNat

/-- The nodes whose bits are set. -/
def members (b : Possessors) : Finset NodeID := Finset.univ.filter fun n => b.test n

theorem getLsbD_one_shift (n m : NodeID) :
    (1#64 <<< n.val).getLsbD m = decide (m = n) := by
  rw [BitVec.getLsbD_shiftLeft, BitVec.getLsbD_one]
  have hm := m.isLt
  by_cases h : m = n
  · subst h
    simp [hm]
  · have hne : m.val ≠ n.val := fun e => h (Fin.ext e)
    simp only [hm, h, decide_true, Bool.true_and, decide_false, Bool.and_eq_false_imp,
      Bool.not_eq_true', decide_eq_false_iff_not, decide_eq_true_eq]
    omega

@[simp] theorem test_set (b : Possessors) (n m : NodeID) :
    (b.set n).test m = (b.test m || decide (m = n)) := by
  simp only [set, test, BitVec.getLsbD_or, getLsbD_one_shift]

@[simp] theorem test_reset (b : Possessors) (n m : NodeID) :
    (b.reset n).test m = (b.test m && !decide (m = n)) := by
  simp only [reset, test, BitVec.getLsbD_and, BitVec.getLsbD_not, getLsbD_one_shift]
  simp

@[simp] theorem test_zero (n : NodeID) : test 0#64 n = false := by simp [test]

@[simp] theorem mem_members {b : Possessors} {n : NodeID} : n ∈ b.members ↔ b.test n = true := by
  simp [members]

@[simp] theorem members_set (b : Possessors) (n : NodeID) :
    (b.set n).members = insert n b.members := by
  ext m
  simp [or_comm]

@[simp] theorem members_reset (b : Possessors) (n : NodeID) :
    (b.reset n).members = b.members.erase n := by
  ext m
  simp [and_comm]

@[simp] theorem members_zero : members 0#64 = ∅ := by
  ext m
  simp

theorem any_iff {b : Possessors} : b.any = true ↔ b.members.Nonempty := by
  constructor
  · intro h
    by_contra hn
    rw [Finset.not_nonempty_iff_eq_empty] at hn
    have hz : b = 0#64 := by
      apply BitVec.eq_of_getLsbD_eq
      intro i hi
      have hm : (⟨i, hi⟩ : NodeID) ∉ b.members := by simp [hn]
      simpa [test] using hm
    simp [any, hz] at h
  · rintro ⟨n, hn⟩
    simp only [any, bne_iff_ne, ne_eq]
    rintro rfl
    simp at hn

theorem any_eq_false_iff {b : Possessors} : b.any = false ↔ b.members = ∅ := by
  rw [← Finset.not_nonempty_iff_eq_empty, ← any_iff, Bool.not_eq_true]

@[simp] theorem reset_reset (b : Possessors) (n : NodeID) : (b.reset n).reset n = b.reset n := by
  simp only [reset, BitVec.and_assoc, BitVec.and_self]

/-- A bitmap with a single bit. -/
theorem members_of_count {b : Possessors} {n : NodeID} (hc : b.count = 1) (hn : b.test n = true) :
    b.members = {n} := by
  obtain ⟨m, hm⟩ := Finset.card_eq_one.mp (show b.members.card = 1 from hc)
  have hmem : n ∈ b.members := mem_members.mpr hn
  rw [hm, Finset.mem_singleton] at hmem
  rw [hm, hmem]

@[simp] theorem toNode_ofNode (n : NodeID) : toNode (ofNode n) = n := by
  have hn := n.isLt
  apply Fin.ext
  simp only [toNode, ofNode, BitVec.toNat_ofNat, Fin.val_ofNat]
  omega

@[simp] theorem ofNode_zero : ofNode 0 = 0#64 := rfl

end Possessors

/-! ## Frames -/

/-- `POSSESSION`. -/
inductive Possession where
  | nobody
  | exclusive
  | shared
deriving DecidableEq, Repr

/-- `BF_STATE`. -/
inductive BfState where
  | hot
  | evicted
  | ioRdma
  | ioSsd
  | invalidationExpected
deriving DecidableEq, Repr

/-- Who has latched a frame exclusively beyond one handler call. -/
inductive Holder (W : Type) where
  | worker (w : W)
  /-- The message handler, while it reads the page from the SSD. -/
  | handler
  /-- The page provider, between selecting the frame and applying the response. -/
  | provider
  /-- The owner's page provider, until the pages it retrieves have arrived. -/
  | retriever
deriving DecidableEq, Repr

/-- `BufferFrame`, together with the holders of its `HybridLatch`. -/
structure Frame (W C : Type) where
  state : BfState
  possession : Possession
  possessors : Possessors
  pVersion : Nat
  mhWaiting : Bool
  dirty : Bool
  /-- The page the frame points to, by its content. -/
  page : Option C
  /-- The exclusive latch. -/
  holder : Option (Holder W)
  /-- The workers that hold the shared latch. -/
  readers : Finset W

/-- Why a handler or the cold path of `fix` throws. -/
inductive Fault where
  /-- `ensure` failed. -/
  | ensure
  /-- The possessors union was used in a mode that `possession` does not name. -/
  | mode
  /-- A node would address a message to itself. -/
  | self
deriving DecidableEq, Repr

/-- `ensure`. -/
def ensure (c : Bool) (e : Fault) : Except Fault Unit := if c then .ok () else .error e

@[simp] theorem ensure_bind {α : Type} {c : Bool} {e : Fault} {g : Unit → Except Fault α} :
    (ensure c e >>= g) = if c then g () else .error e := by
  cases c <;> rfl

namespace Frame

variable {W C : Type} (f : Frame W C)

/-- Nobody holds the latch in any mode. -/
def Latchable : Prop := f.holder = none ∧ f.readers = ∅

instance [DecidableEq W] : Decidable f.Latchable :=
  inferInstanceAs (Decidable (f.holder = none ∧ f.readers = ∅))

/-- Reading `possessors.exclusive`. -/
def getExclusive : Except Fault NodeID :=
  if f.possession = .exclusive then .ok f.possessors.toNode else .error .mode

/-- Reading `possessors.shared`. -/
def getShared : Except Fault Possessors :=
  if f.possession = .shared then .ok f.possessors else .error .mode

/-- Writing `possessors.exclusive`. -/
def putExclusive (n : NodeID) : Except Fault (Frame W C) :=
  if f.possession = .exclusive then .ok { f with possessors := .ofNode n } else .error .mode

/-- Writing `possessors.shared`. -/
def putShared (b : Possessors) : Except Fault (Frame W C) :=
  if f.possession = .shared then .ok { f with possessors := b } else .error .mode

/-- `BufferFrame::setPossessor`. -/
def setPossessor (n : NodeID) : Except Fault (Frame W C) :=
  match f.possession with
  | .nobody => .error .ensure
  | .exclusive => f.putExclusive n
  | .shared => f.putShared (f.possessors.set n)

/-- `BufferFrame::isPossessor`. -/
def isPossessor (n : NodeID) : Bool :=
  match f.possession with
  | .nobody => false
  | .exclusive => f.possessors.toNode == n
  | .shared => f.possessors.test n

/-- The nodes the frame names as possessors. -/
def named : Finset NodeID :=
  match f.possession with
  | .nobody => ∅
  | .exclusive => {f.possessors.toNode}
  | .shared => f.possessors.members

@[simp] theorem mem_named {n : NodeID} : n ∈ f.named ↔ f.isPossessor n = true := by
  unfold named isPossessor
  cases f.possession with
  | nobody => simp
  | exclusive => rw [Finset.mem_singleton, beq_iff_eq, eq_comm]
  | shared => simp

/-- A frame as `findFrameOrInsert` puts it into the table, latched by `h`, around a page taken
from the free list. -/
def fresh (h : Holder W) (state : BfState) (c : C) : Frame W C where
  state := state
  possession := .nobody
  possessors := 0#64
  pVersion := 0
  mhWaiting := false
  dirty := false
  page := some c
  holder := some h
  readers := ∅

end Frame

end ScaleStore.Protocol
