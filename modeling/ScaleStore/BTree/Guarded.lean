/-
# Pages behind latches

The tree as workers share it: every page has a version, at most one exclusive
holder, and any number of sharers.  The instructions are what the guards of
`BufferFrameGuards.hpp` and the node operations of `BTree.hpp` do to pages, each one
an atomic step.

What a worker reads without a latch is only worth something while the version is the
one it has remembered; otherwise the page may be in the middle of a change, or its
buffer may hold another page already, and the read answers anything.  That is also why
a node operation on latched pages may be taken as a single step: whoever looks at these
pages in the meantime gets anything.

A version stands for the frame a guard points to together with that frame's version:
when the buffer manager moves a page away, the version moves on.  A page that has been
reclaimed can still be asked for; its contents are anything, too.  Its identifier is not
handed out again, since the node that reclaims it is not the owner.
-/

import ScaleStore.BTree.Refinement
import ScaleStore.Lib.Linearizable
import Mathlib.Data.Finset.Basic

namespace ScaleStore.BTree

/-- `OptimisticBFGuard`: a page and the version it had when it was fixed. -/
structure OptimisticGuard where
  pid : PID
  vAcquired : Nat

structure Pages (T K V : Type) where
  heap : Heap K V
  version : PID → Nat
  holder : PID → Option T
  sharers : PID → Finset T

namespace Pages

variable {T K V : Type}

/-- The exclusive latch is taken, or given back. -/
def latch (m : Pages T K V) (pid : PID) (holder : Option T) : Pages T K V :=
  { m with
    holder := Function.update m.holder pid holder
    version := Function.update m.version pid (m.version pid + 0b10) }

def share (m : Pages T K V) (pid : PID) (sharers : Finset T) : Pages T K V :=
  { m with sharers := Function.update m.sharers pid sharers }

/-- New contents.  A page that is allocated on the way is latched by the guard that allocates it
and given back. -/
def write (m : Pages T K V) (heap : Heap K V) : Pages T K V :=
  { m with
    heap
    version := fun pid =>
      if m.heap.next ≤ pid ∧ pid < heap.next then m.version pid + 0b100 else m.version pid }

/-- What reading a page may answer. -/
def Reads (m : Pages T K V) (pid : PID) (page : Page K V) : Prop :=
  m.heap.page pid ≠ .unmapped → page = m.heap.page pid

section Fields

variable (m : Pages T K V) (pid : PID) (o : Option T) (s : Finset T) (h : Heap K V)

@[simp] theorem latch_heap : (m.latch pid o).heap = m.heap := rfl

@[simp] theorem latch_sharers : (m.latch pid o).sharers = m.sharers := rfl

@[simp] theorem latch_holder : (m.latch pid o).holder = Function.update m.holder pid o := rfl

@[simp] theorem latch_version : (m.latch pid o).version =
    Function.update m.version pid (m.version pid + 2) := rfl

@[simp] theorem share_heap : (m.share pid s).heap = m.heap := rfl

@[simp] theorem share_holder : (m.share pid s).holder = m.holder := rfl

@[simp] theorem share_version : (m.share pid s).version = m.version := rfl

@[simp] theorem share_sharers : (m.share pid s).sharers = Function.update m.sharers pid s := rfl

@[simp] theorem write_heap : (m.write h).heap = h := rfl

@[simp] theorem write_holder : (m.write h).holder = m.holder := rfl

@[simp] theorem write_sharers : (m.write h).sharers = m.sharers := rfl

end Fields

end Pages

/-! ## What a worker may find in a page -/

namespace Page

variable {K V : Type}

def isInner : Page K V → Bool
  | .inner _ => true
  | _ => false

def isLeaf : Page K V → Bool
  | .leaf _ => true
  | _ => false

/-- The fields of `BTreeEntry`. -/
def root : Page K V → PID
  | .entry root _ => root
  | _ => entryPage

def height : Page K V → Nat
  | .entry _ height => height
  | _ => 0

/-- `inner.children[...]`, at the position a search ends at. -/
def childAt (next : Inner K → Nat) : Page K V → PID
  | .inner n => n.children[next n]?.getD entryPage
  | _ => entryPage

def leafCount : Page K V → Nat
  | .leaf l => l.count
  | _ => 0

def isUnderflow (c : Capacity) : Page K V → Bool
  | .leaf l => l.isUnderflow c
  | _ => false

variable [LinearOrder K] [Inhabited K]

/-- The payload of `k`, when the leaf holds it. -/
def payload (k : K) : Page K V → Option V
  | .leaf l => (l.find k).bind fun pos => (l.entries[pos]?).map Prod.snd
  | _ => none

end Page

/-! ## Instructions -/

inductive Instr (K V : Type)
  | fixOptimistic (pid : PID)
  | fixExclusive (pid : PID)
  | fixShared (pid : PID)
  | tryLatchShared (pid : PID)
  | unlatchExclusive (pid : PID)
  | unlatchShared (pid : PID)
  /-- `retry()` of an optimistic guard. -/
  | retry (g : OptimisticGuard)
  /-- A read without a latch. -/
  | peek (g : OptimisticGuard)
  /-- A read of a latched page. -/
  | read (pid : PID)
  /-- The payload of `k` in a latched leaf. -/
  | find (pid : PID) (k : K)
  | insert (pid : PID) (k : K) (v : V)
  | remove (pid : PID) (k : K)
  | update (pid : PID) (k : K) (callback : V → V)
  /-- `split` of a node and the publication of its right half. -/
  | split (parent cur : PID)
  /-- The merge of `remove`, with the reclaimed sibling out of the tree. -/
  | merge (parent cur right : PID) (pos : Nat)

@[reducible] def Instr.Answer {K V : Type} : Instr K V → Type
  | .fixOptimistic _ => OptimisticGuard
  | .fixExclusive _ => Nat
  | .tryLatchShared _ | .retry _ | .remove _ _ | .update _ _ _ | .split _ _ => Bool
  | .peek _ | .read _ => Page K V
  | .find _ _ => Option V
  | .fixShared _ | .unlatchExclusive _ | .unlatchShared _ | .insert _ _ _ | .merge _ _ _ _ => Unit

section Exec

variable {T K V : Type} [DecidableEq T] [LinearOrder K] [Inhabited K]

/-- `split` of a leaf or of an inner node, under latched parent and node. -/
def splitPage (c : Capacity) (entry : PID) (h : Heap K V) (parent cur : PID) :
    Except Fault (Heap K V) :=
  match h.page cur with
  | .leaf l => splitLeaf c entry h parent cur l
  | .inner n => splitInner c entry h parent cur n
  | _ => .error .ensure

/-- `callback(leaf.payloads[pos])`. -/
def Leaf.update (l : Leaf K V) (k : K) (callback : V → V) : Option (Leaf K V) :=
  match l.find k with
  | some pos =>
      match l.entries[pos]? with
      | some e => some { l with
          entries := l.entries.take pos ++ (e.1, callback e.2) :: l.entries.drop (pos + 1) }
      | none => none
  | none => none

/-- One instruction of worker `t`.  A fix waits until it gets its latch. -/
def execInstr (c : Capacity) (entry : PID) (t : T) :
    (i : Instr K V) → Pages T K V → i.Answer → Pages T K V → Prop
  | .fixOptimistic pid, m, g, m' => m.holder pid = none ∧ g = ⟨pid, m.version pid⟩ ∧ m' = m
  | .fixExclusive pid, m, vAcquired, m' =>
      m.holder pid = none ∧ m.sharers pid = ∅ ∧ vAcquired = m.version pid + 0b10 ∧
        m' = m.latch pid (some t)
  | .fixShared pid, m, _, m' =>
      m.holder pid = none ∧ m' = m.share pid (Insert.insert t (m.sharers pid))
  | .tryLatchShared pid, m, ok, m' =>
      ok = true ∧ m.holder pid = none ∧ m' = m.share pid (Insert.insert t (m.sharers pid)) ∨
        ok = false ∧ m' = m
  | .unlatchExclusive pid, m, _, m' => m.holder pid = some t ∧ m' = m.latch pid none
  | .unlatchShared pid, m, _, m' =>
      t ∈ m.sharers pid ∧ m' = m.share pid ((m.sharers pid).erase t)
  | .retry g, m, stale, m' => stale = decide (m.version g.pid ≠ g.vAcquired) ∧ m' = m
  | .peek g, m, page, m' => (m.version g.pid = g.vAcquired → m.Reads g.pid page) ∧ m' = m
  | .read pid, m, page, m' => m.Reads pid page ∧ m' = m
  | .find pid k, m, v, m' => (∃ page, m.Reads pid page ∧ v = page.payload k) ∧ m' = m
  | .insert pid k v, m, _, m' =>
      match m.heap.page pid with
      | .leaf l => m' = m.write (m.heap.set pid (.leaf (l.insert k v)))
      | _ => m' = m
  | .remove pid k, m, removed, m' =>
      match m.heap.page pid with
      | .leaf l =>
          removed = (l.remove k).2 ∧ m' = m.write (m.heap.set pid (.leaf (l.remove k).1))
      | _ => m' = m
  | .update pid k callback, m, found, m' =>
      match m.heap.page pid with
      | .leaf l =>
          match l.update k callback with
          | some l' => found = true ∧ m' = m.write (m.heap.set pid (.leaf l'))
          | none => found = false ∧ m' = m
      | _ => m' = m
  | .split parent cur, m, ok, m' =>
      match splitPage c entry m.heap parent cur with
      | .ok h => ok = true ∧ m' = m.write h
      | .error _ => ok = false ∧ m' = m
  | .merge parent cur right pos, m, _, m' =>
      match m.heap.page parent, m.heap.page cur, m.heap.page right with
      | .inner n, .leaf l, .leaf r => m' = m.write (mergeInto m.heap parent cur right n pos l r)
      | _, _, _ => m' = m

/-- The buffer manager takes a page that nobody has latched away and brings it back. -/
def Moved (m m' : Pages T K V) : Prop :=
  ∃ pid v, m.holder pid = none ∧ m.sharers pid = ∅ ∧ m.version pid < v ∧
    m' = { m with version := Function.update m.version pid v }

end Exec

end ScaleStore.BTree
