/-
# The tree on arrays

The operations of `BTree.hpp` on pages with arrays, from the label `restart` to the
next restart or the end: an insertion that splits a node comes back for another
round.  Rounds of several calls may alternate.

Code that takes a page for a node that it is not uses arrays that do not exist.  That
is recorded as an access as well.
-/

import ScaleStore.BTree.NodeArrays
import ScaleStore.BTree.Tree

namespace ScaleStore.BTree.Arrays

variable {K V : Type}

inductive Page (K V : Type) where
  | unmapped
  | entry (root : PID) (height : Nat)
  | leaf (l : BTreeLeaf K V)
  | inner (n : BTreeInner K)

structure Heap (K V : Type) where
  page : PID → Page K V
  /-- The page id of the next allocation. -/
  next : PID

/-- What the arrays of a page hold before anything has been written to them. -/
structure Garbage (K V : Type) where
  leaf : PID → BTreeLeaf K V
  inner : PID → BTreeInner K

def Heap.set (h : Heap K V) (pid : PID) (p : Page K V) : Heap K V :=
  { h with page := Function.update h.page pid p }

def Heap.alloc (h : Heap K V) (p : Page K V) : Heap K V :=
  { page := Function.update h.page h.next p, next := h.next + 1 }

namespace Heap

variable (h : Heap K V) {pid q : PID} (p : Page K V)

@[simp] theorem set_page_self : (h.set pid p).page pid = p := Function.update_self ..

theorem set_page_of_ne (hne : q ≠ pid) : (h.set pid p).page q = h.page q :=
  Function.update_of_ne hne ..

@[simp] theorem alloc_page_self : (h.alloc p).page h.next = p := Function.update_self ..

theorem alloc_page_of_ne (hne : q ≠ h.next) : (h.alloc p).page q = h.page q :=
  Function.update_of_ne hne ..

end Heap

/-- The constructor `BTree()`. -/
def create (garbage : Garbage K V) : Heap K V :=
  ((⟨fun _ => .unmapped, entryPage⟩ : Heap K V).alloc (.entry (entryPage + 1) 0)).alloc
    (.leaf { garbage.leaf (entryPage + 1) with lower := none, upper := none, count := 0 })

/-- How a round ends. -/
inductive Outcome where
  | returned
  | restart
  | thrown
  /-- The loop has not come to its end. -/
  | running
deriving DecidableEq, Repr

/-- The page is not what the code takes it for. -/
def wrongType {α : Type} (a : α) : Traced α := ⟨a, [.cell 0 0]⟩

section Operations

variable [LinearOrder K] (c : ArraySizes) (garbage : Garbage K V) (h : Heap K V) (k : K)

/-! ## insert -/

/-- The new node goes to the parent, or below a new root. -/
def publish (parent cur new : PID) (sep : K) : Traced (Heap K V × Outcome) :=
  if parent = entryPage then
    match h.page entryPage with
    | .entry _ height => do
        let root ← BTreeInner.makeRoot c (garbage.inner h.next) sep cur new
        pure ((h.alloc (.inner root)).set entryPage (.entry h.next (height + 1)), .restart)
    | _ => wrongType (h, .running)
  else
    match h.page parent with
    | .inner n => do
        match ← n.insert c sep new with
        | some n' => pure (h.set parent (.inner n'), .restart)
        | none => pure (h, .thrown)
    | _ => wrongType (h, .running)

def splitLeaf (parent cur : PID) (l : BTreeLeaf K V) : Traced (Heap K V × Outcome) := do
  let (left, right, sep) ← l.split c (garbage.leaf h.next)
  publish c garbage ((h.alloc (.leaf right)).set cur (.leaf left)) parent cur h.next sep

def splitInner (parent cur : PID) (n : BTreeInner K) : Traced (Heap K V × Outcome) := do
  let (left, right, sep) ← n.split c (garbage.inner h.next)
  publish c garbage ((h.alloc (.inner right)).set cur (.inner left)) parent cur h.next sep

/-- `while (currentLevel < height)`: down to the leaf (`true`) or to a full inner node (`false`),
with its parent. -/
def insertDescend : Nat → PID → PID → Traced (Option (Bool × PID × PID))
  | 0, parent, cur => pure (some (true, parent, cur))
  | levels + 1, parent, cur =>
      match h.page cur with
      | .inner n =>
          if n.isFull c then pure (some (false, parent, cur))
          else do
            let pos ← lowerBoundBF c.inner n.keys n.count k
            let child ← readCell c.inner n.children pos
            insertDescend levels cur child
      | .leaf _ => pure none
      | _ => wrongType none

/-- Where an insertion ends up in this round. -/
def insertTarget : Traced (Option (Bool × PID × PID)) :=
  match h.page entryPage with
  | .entry root height => insertDescend c h k height entryPage root
  | _ => wrongType none

def insertRound (v : V) : Traced (Heap K V × Outcome) := do
  match ← insertTarget c h k with
  | none => pure (h, .thrown)
  | some (false, parent, cur) =>
      match h.page cur with
      | .inner n => splitInner c garbage h parent cur n
      | _ => wrongType (h, .running)
  | some (true, parent, cur) =>
      match h.page cur with
      | .leaf l =>
          if l.isFull c then splitLeaf c garbage h parent cur l
          else do
            let l' ← l.insert c k v
            pure (h.set cur (.leaf l'), .returned)
      | .inner _ => pure (h, .thrown)
      | _ => wrongType (h, .running)

/-! ## lookup -/

def descendHeight : Nat → PID → Traced (Option PID)
  | 0, cur => pure (some cur)
  | levels + 1, cur =>
      match h.page cur with
      | .inner n => do
          let pos ← lowerBoundBF c.inner n.keys n.count k
          let child ← readCell c.inner n.children pos
          descendHeight levels child
      | .leaf _ => pure none
      | _ => wrongType none

/-- The leaf of the key; nothing is returned where `ensure` throws. -/
def findLeaf : Traced (Option (PID × BTreeLeaf K V)) :=
  match h.page entryPage with
  | .entry root height => do
      match ← descendHeight c h k height root with
      | none => pure none
      | some cur =>
          match h.page cur with
          | .leaf l => pure (some (cur, l))
          | _ => wrongType none
  | _ => wrongType none

/-- `lookup` and `lookup_opt(Key, Value&)`: the payload is read before the position is tested. -/
def lookup : Traced (Option V) := do
  match ← findLeaf c h k with
  | none => pure none
  | some (_, l) =>
      let pos ← lowerBound c.leaf l.keys l.count k
      let returnValue ← readCell c.leaf l.payloads pos
      if ← l.holds c pos k then pure (some returnValue) else pure none

/-- `lookup_opt` with a function for the payload. -/
def lookup_opt : Traced (Option V) := do
  match ← findLeaf c h k with
  | none => pure none
  | some (_, l) =>
      let pos ← lowerBound c.leaf l.keys l.count k
      if ← l.holds c pos k then
        let payload ← readCell c.leaf l.payloads pos
        pure (some payload)
      else pure none

def lookupAndUpdate (callback : V → V) : Traced (Heap K V × Outcome) := do
  match ← findLeaf c h k with
  | none => pure (h, .thrown)
  | some (cur, l) =>
      let pos ← lowerBound c.leaf l.keys l.count k
      if ← l.holds c pos k then
        let payload ← readCell c.leaf l.payloads pos
        let payloads ← writeCell c.leaf l.payloads pos (callback payload)
        pure (h.set cur (.leaf { l with payloads }), .returned)
      else pure (h, .thrown)

/-! ## remove -/

/-- The loop over inner nodes, `next` being the search in them: the leaf with its parent, unless the
loop is cut off after `fuel` nodes. -/
def descendType (next : BTreeInner K → Traced Nat) : Nat → PID → PID → Traced (Option (PID × PID))
  | 0, _, _ => pure none
  | fuel + 1, parent, cur =>
      match h.page cur with
      | .inner n => do
          let pos ← next n
          let child ← readCell c.inner n.children pos
          descendType next fuel cur child
      | .leaf _ => pure (some (parent, cur))
      | _ => wrongType none

def removeFrom (cur : PID) (l : BTreeLeaf K V) : Traced (Heap K V × Outcome) := do
  let (l', _) ← l.remove c k
  pure (h.set cur (.leaf l'), .returned)

/-- The branch for leaves that underflow. -/
def mergeAndRemove (parent cur : PID) (l : BTreeLeaf K V) : Traced (Heap K V × Outcome) :=
  match h.page parent with
  | .inner n => do
      let pos ← lowerBound c.inner n.keys n.count k
      if 2 ≤ n.count ∧ pos + 1 < n.count then
        let pid_right ← readCell c.inner n.children (pos + 1)
        match h.page pid_right with
        | .leaf right =>
            if l.count + right.count ≥ c.leaf then removeFrom c h k cur l
            else
              let merged ← l.merge c right
              let (n', _) ← n.remove c pos
              removeFrom c ((h.set parent (.inner n')).set pid_right .unmapped) k cur merged
        | _ => wrongType (h, .running)
      else removeFrom c h k cur l
  | _ => wrongType (h, .running)

def removeRound (fuel : Nat) : Traced (Heap K V × Outcome) :=
  match h.page entryPage with
  | .entry root _ => do
      match ←
          descendType c h (fun n => lowerBound c.inner n.keys n.count k) fuel entryPage root with
      | none => pure (h, .running)
      | some (parent, cur) =>
          match h.page cur with
          | .leaf l =>
              if l.isUnderflow c ∧ parent ≠ entryPage then mergeAndRemove c h k parent cur l
              else removeFrom c h k cur l
          | _ => wrongType (h, .running)
  | _ => wrongType (h, .running)

/-! ## scan -/

section Scan

variable (func : Callback K V) (l : BTreeLeaf K V)

/-- `func(leaf.keys[*it], leaf.payloads[*it])`, after what it has been handed before. -/
def visit (it : Nat) (seen : List (K × V)) : Traced (List (K × V)) := do
  let key ← readCell c.leaf l.keys it
  let payload ← readCell c.leaf l.payloads it
  pure (seen ++ [(key, payload)])

def ascLoop : Nat → Nat → List (K × V) → Traced (List (K × V) × Bool)
  | 0, _, seen => pure (seen, true)
  | rounds + 1, it, seen =>
      if it = l.count then pure (seen, true)
      else do
        let seen ← visit c l it seen
        if func seen then ascLoop rounds (it + 1) seen else pure (seen, false)

/-- `ASC_SCAN::operator()`. -/
def ascScan (seen : List (K × V)) : Traced (List (K × V) × OpResult K) :=
  if l.count = 0 then pure (seen, resume l.upper)
  else do
    let pos ← lowerBound c.leaf l.keys l.count k
    let (seen, all) ← ascLoop c func l (l.count + 1) pos seen
    pure (seen, if all then resume l.upper else .finished)

def descLoop : Nat → List (K × V) → Traced (List (K × V) × Bool)
  | 0, seen => do
      let seen ← visit c l 0 seen
      pure (seen, func seen)
  | it + 1, seen => do
      let seen ← visit c l (it + 1) seen
      if func seen then descLoop it seen else pure (seen, false)

/-- `DESC_SCAN::operator()`. -/
def descScan (seen : List (K × V)) : Traced (List (K × V) × OpResult K) :=
  if l.count = 0 then pure (seen, resume l.lower)
  else do
    let bound ← lowerBound c.leaf l.keys l.count k
    let it := if bound ≥ l.count then l.count - 1 else bound
    let key ← readCell c.leaf l.keys it
    if k < key ∧ it = 0 then pure (seen, resume l.lower)
    else
      let (seen, all) ← descLoop c func l (if k < key then it - 1 else it) seen
      pure (seen, if all then resume l.lower else .finished)

/-- `next_node` of the functors. -/
def nextNode (dir : Direction) (isFirstTraversal : Bool) (n : BTreeInner K) : Traced Nat :=
  match dir with
  | .desc => lowerBound c.inner n.keys n.count k
  | .asc =>
      if isFirstTraversal then lowerBound c.inner n.keys n.count k
      else upperBound c.inner n.keys n.count k

/-- `scan_`. -/
def scanRound (dir : Direction) (isFirstTraversal : Bool) (fuel : Nat) (seen : List (K × V)) :
    Traced (Option (List (K × V) × OpResult K)) :=
  match h.page entryPage with
  | .entry root _ => do
      match ← descendType c h (nextNode c k dir isFirstTraversal) fuel entryPage root with
      | none => pure none
      | some (_, cur) =>
          match h.page cur with
          | .leaf l =>
              match dir with
              | .asc => some <$> ascScan c k func l seen
              | .desc => some <$> descScan c k func l seen
          | _ => wrongType none
  | _ => wrongType none

end Scan

end Operations

/-! ## Runs -/

/-- A round of a call. -/
inductive Action (K V : Type) where
  | insert (k : K) (v : V)
  | remove (k : K) (fuel : Nat)
  | lookup (k : K)
  | lookup_opt (k : K)
  | lookupAndUpdate (k : K) (callback : V → V)
  | scan (k : K) (dir : Direction) (isFirstTraversal : Bool) (func : Callback K V) (fuel : Nat)
      (seen : List (K × V))

structure State (K V : Type) where
  heap : Heap K V
  accesses : List Access

section Runs

variable [LinearOrder K] (c : ArraySizes) (garbage : Garbage K V)

/-- The heap that a round leaves, with the accesses that it has made. -/
def round (h : Heap K V) : Action K V → Traced (Heap K V)
  | .insert k v => Prod.fst <$> insertRound c garbage h k v
  | .remove k fuel => Prod.fst <$> removeRound c h k fuel
  | .lookup k => (fun _ => h) <$> lookup c h k
  | .lookup_opt k => (fun _ => h) <$> lookup_opt c h k
  | .lookupAndUpdate k callback => Prod.fst <$> lookupAndUpdate c h k callback
  | .scan k dir isFirstTraversal func fuel seen =>
      (fun _ => h) <$> scanRound c h k func dir isFirstTraversal fuel seen

def State.after (s : State K V) (action : Action K V) : State K V where
  heap := (round c garbage s.heap action).value
  accesses := s.accesses ++ (round c garbage s.heap action).accesses

/-- Rounds in a new tree, one after the other. -/
def run (actions : List (Action K V)) : State K V :=
  actions.foldl (·.after c garbage ·) ⟨create garbage, []⟩

end Runs

end ScaleStore.BTree.Arrays
