/-
# The tree and its operations, one call at a time

Pages are reached through their `PID`; the entry page holds the root and the
height.  This module is the call-by-call reading of `BTree.hpp`: every guard is
granted, so no `retry()` fires, and what remains is the control flow — the two
kinds of descent, the eager splits with their restart, the merge in `remove`,
and the scan driver that resumes from a fence key.

A call ends in a heap, or in `Fault.ensure` when the source would throw, or in
`Fault.fuel` when the step budget of an unbounded loop is used up.
-/

import ScaleStore.BTree.Separator

namespace ScaleStore.BTree

universe u v

/-- What the page of a `PID` holds.  A page that was never allocated, or was
reclaimed, is `unmapped`. -/
inductive Page (K : Type u) (V : Type v)
  | unmapped
  | entry (root : PID) (height : Nat)
  | leaf (l : Leaf K V)
  | inner (n : Inner K)
  deriving Repr

structure Heap (K : Type u) (V : Type v) where
  page : PID → Page K V
  /-- The `PID` the next allocation returns. -/
  next : PID

inductive Fault
  | ensure
  | fuel
  deriving DecidableEq, Repr

section Heap

variable {K : Type u} {V : Type v}

def Heap.set (h : Heap K V) (pid : PID) (p : Page K V) : Heap K V :=
  { h with page := fun q => if q = pid then p else h.page q }

/-- `ExclusiveBFGuard()` followed by `allocate`: a fresh page with contents. -/
def Heap.alloc (h : Heap K V) (p : Page K V) : Heap K V :=
  { page := fun q => if q = h.next then p else h.page q, next := h.next + 1 }

@[simp] theorem Heap.set_page (h : Heap K V) (pid q : PID) (p : Page K V) :
    (h.set pid p).page q = if q = pid then p else h.page q := rfl

@[simp] theorem Heap.set_next (h : Heap K V) (pid : PID) (p : Page K V) :
    (h.set pid p).next = h.next := rfl

@[simp] theorem Heap.alloc_page (h : Heap K V) (q : PID) (p : Page K V) :
    (h.alloc p).page q = if q = h.next then p else h.page q := rfl

@[simp] theorem Heap.alloc_next (h : Heap K V) (p : Page K V) :
    (h.alloc p).next = h.next + 1 := rfl

/-- The entry page of a tree is the first page its constructor allocates. -/
def entryPage : PID := 0

/-- The constructor `BTree()`: the entry page and an empty root leaf. -/
def create : Heap K V :=
  let fresh : Heap K V := { page := fun _ => .unmapped, next := entryPage }
  (fresh.alloc (.entry (entryPage + 1) 0)).alloc (.leaf Leaf.empty)

end Heap

section Operations

variable {K : Type u} {V : Type v} [LinearOrder K] [Inhabited K]

/-! ## Splits and the merge, on latched pages -/

/-- `makeRoot`: a new inner root above `left` and `right`, one level higher. -/
def makeRoot (h : Heap K V) (entry : PID) (k : K) (left right : PID) : Except Fault (Heap K V) :=
  match h.page entry with
  | .entry _ height =>
      .ok ((h.alloc (.inner (Inner.ofPair k left right))).set entry (.entry h.next (height + 1)))
  | _ => .error .ensure

/-- Hand a new right sibling to the parent, or grow the tree at the top. -/
def publish (c : Capacity) (entry : PID) (h : Heap K V) (parent : PID) (sep : K)
    (left right : PID) : Except Fault (Heap K V) :=
  if parent = entry then makeRoot h entry sep left right
  else match h.page parent with
    | .inner n =>
        if n.count < c.inner - 1 then .ok (h.set parent (.inner (n.insert sep right)))
        else .error .ensure
    | _ => .error .ensure

/-- `BTreeLeaf::split` under latched parent and leaf, and its publication. -/
def splitLeaf (c : Capacity) (entry : PID) (h : Heap K V) (parent cur : PID) (l : Leaf K V) :
    Except Fault (Heap K V) :=
  if l.count = c.leaf then
    publish c entry ((h.alloc (.leaf l.splitRight)).set cur (.leaf l.splitLeft)) parent l.splitKey
      cur h.next
  else .error .ensure

/-- `BTreeInner::split` under latched parent and node, and its publication. -/
def splitInner (c : Capacity) (entry : PID) (h : Heap K V) (parent cur : PID) (n : Inner K) :
    Except Fault (Heap K V) :=
  publish c entry ((h.alloc (.inner n.splitRight)).set cur (.inner n.splitLeft)) parent n.splitKey
    cur h.next

/-- The merge of `remove` under latched parent, leaf and right sibling: the
sibling's entries move over, its separator goes, and its page is reclaimed. -/
def mergeInto (h : Heap K V) (parent cur right : PID) (n : Inner K) (pos : Nat)
    (l r : Leaf K V) : Heap K V :=
  ((h.set cur (.leaf (l.mergeRight r))).set parent (.inner (n.remove pos))).set right .unmapped

/-! ## insert -/

/-- The leaf part of `insert`; `false` means the leaf was split and the call
starts again. -/
def insertAtLeaf (c : Capacity) (entry : PID) (h : Heap K V) (k : K) (v : V)
    (parent cur : PID) : Except Fault (Heap K V × Bool) :=
  match h.page cur with
  | .leaf l =>
      if l.isFull c then
        match splitLeaf c entry h parent cur l with
        | .ok h' => .ok (h', false)
        | .error e => .error e
      else .ok (h.set cur (.leaf (l.insert k v)), true)
  | _ => .error .ensure

/-- `while (currentLevel < height)`: full inner nodes are split on the way. -/
def insertDescend (c : Capacity) (entry : PID) (h : Heap K V) (k : K) (v : V) :
    Nat → PID → PID → Except Fault (Heap K V × Bool)
  | 0, parent, cur => insertAtLeaf c entry h k v parent cur
  | levels + 1, parent, cur =>
      match h.page cur with
      | .inner n =>
          if n.isFull c then
            match splitInner c entry h parent cur n with
            | .ok h' => .ok (h', false)
            | .error e => .error e
          else match n.children[n.lowerBoundBF k]? with
            | some child => insertDescend c entry h k v levels cur child
            | none => .error .ensure
      | _ => .error .ensure

/-- One pass from the label `restart`. -/
def insertPass (c : Capacity) (entry : PID) (h : Heap K V) (k : K) (v : V) :
    Except Fault (Heap K V × Bool) :=
  match h.page entry with
  | .entry root height => insertDescend c entry h k v height entry root
  | _ => .error .ensure

def insert (c : Capacity) (entry : PID) (k : K) (v : V) :
    Nat → Heap K V → Except Fault (Heap K V)
  | 0, _ => .error .fuel
  | fuel + 1, h =>
      match insertPass c entry h k v with
      | .ok (h', true) => .ok h'
      | .ok (h', false) => insert c entry k v fuel h'
      | .error e => .error e

/-! ## lookup -/

/-- The descent by the stored height, with the branch-free search. -/
def descendHeight (h : Heap K V) (k : K) : Nat → PID → Except Fault PID
  | 0, cur => .ok cur
  | levels + 1, cur =>
      match h.page cur with
      | .inner n =>
          match n.children[n.lowerBoundBF k]? with
          | some child => descendHeight h k levels child
          | none => .error .ensure
      | _ => .error .ensure

/-- The leaf a point operation works on, with its position of `k`; an unbound
key is the `ensure(false)` at the end of these functions. -/
def locate (entry : PID) (h : Heap K V) (k : K) : Except Fault (PID × Leaf K V × Nat) :=
  match h.page entry with
  | .entry root height =>
      match descendHeight h k height root with
      | .ok cur =>
          match h.page cur with
          | .leaf l =>
              match l.find k with
              | some pos => .ok (cur, l, pos)
              | none => .error .ensure
          | _ => .error .ensure
      | .error e => .error e
  | _ => .error .ensure

def lookup (entry : PID) (h : Heap K V) (k : K) : Except Fault V :=
  match locate entry h k with
  | .ok (_, l, pos) =>
      match l.entries[pos]? with
      | some e => .ok e.2
      | none => .error .ensure
  | .error e => .error e

/-- The optimistic variant differs from `lookup` in its guards only. -/
def lookup_opt (entry : PID) (h : Heap K V) (k : K) : Except Fault V := lookup entry h k

def lookupAndUpdate (entry : PID) (h : Heap K V) (k : K) (callback : V → V) :
    Except Fault (Heap K V) :=
  match locate entry h k with
  | .ok (cur, l, pos) =>
      match l.entries[pos]? with
      | some e =>
          .ok (h.set cur (.leaf { l with
            entries := l.entries.take pos ++ (e.1, callback e.2) :: l.entries.drop (pos + 1) }))
      | none => .error .ensure
  | .error e => .error e

/-! ## remove -/

/-- The descent by node type; it returns the leaf with its parent. -/
def descendType (h : Heap K V) (nextNode : Inner K → Nat) :
    Nat → PID → PID → Except Fault (PID × PID)
  | 0, _, _ => .error .fuel
  | fuel + 1, parent, cur =>
      match h.page cur with
      | .inner n =>
          match n.children[nextNode n]? with
          | some child => descendType h nextNode fuel cur child
          | none => .error .ensure
      | .leaf _ => .ok (parent, cur)
      | _ => .error .ensure

/-- The underflow branch of `remove`: merge with the right sibling when there is
one that is not the last child and fits, then remove the key. -/
def mergeAndRemove (c : Capacity) (h : Heap K V) (k : K) (parent cur : PID) (l : Leaf K V) :
    Except Fault (Heap K V × Bool) :=
  match h.page parent with
  | .inner n =>
      let pos := n.lowerBound k
      if 2 ≤ n.count ∧ pos + 1 < n.count then
        match n.children[pos + 1]? with
        | some right =>
            match h.page right with
            | .leaf r =>
                if c.leaf ≤ l.count + r.count then
                  .ok (h.set cur (.leaf (l.remove k).1), (l.remove k).2)
                else
                  let merged := l.mergeRight r
                  .ok ((mergeInto h parent cur right n pos l r).set cur
                    (.leaf (merged.remove k).1), (merged.remove k).2)
            | _ => .error .ensure
        | none => .error .ensure
      else .ok (h.set cur (.leaf (l.remove k).1), (l.remove k).2)
  | _ => .error .ensure

def remove (c : Capacity) (entry : PID) (h : Heap K V) (k : K) (fuel : Nat) :
    Except Fault (Heap K V × Bool) :=
  match h.page entry with
  | .entry root _ =>
      match descendType h (fun n => n.lowerBound k) fuel entry root with
      | .ok (parent, cur) =>
          match h.page cur with
          | .leaf l =>
              if l.isUnderflow c ∧ parent ≠ entry then mergeAndRemove c h k parent cur l
              else .ok (h.set cur (.leaf (l.remove k).1), (l.remove k).2)
          | _ => .error .ensure
      | .error e => .error e
  | _ => .error .ensure

/-! ## scan -/

inductive Direction
  | asc
  | desc
  deriving DecidableEq, Repr

/-- `op_result`: the code `CONTINUE` carries the fence key to resume from. -/
inductive OpResult (K : Type u)
  | finished
  | continue (next_sep : K)
  deriving DecidableEq, Repr

/-- A scan callback decides from everything it has been handed so far whether
the scan goes on. -/
abbrev Callback (K : Type u) (V : Type v) := List (K × V) → Bool

/-- Hand entries to the callback until it returns false. -/
def feed (func : Callback K V) (seen : List (K × V)) : List (K × V) → List (K × V) × Bool
  | [] => (seen, true)
  | e :: rest => if func (seen ++ [e]) then feed func (seen ++ [e]) rest else (seen ++ [e], false)

/-- `next_node` of the two scan functors. -/
def nextNode (dir : Direction) (isFirstTraversal : Bool) (k : K) (n : Inner K) : Nat :=
  match dir with
  | .desc => n.lowerBound k
  | .asc => if isFirstTraversal then n.lowerBound k else n.upperBound k

/-- The result code at the end of a leaf: its fence in scan direction. -/
def resume (fence : FenceKey K) : OpResult K :=
  match fence with
  | none => .finished
  | some sep => .continue sep

/-- `ASC_SCAN::operator()`. -/
def ascScan (func : Callback K V) (k : K) (l : Leaf K V) (seen : List (K × V)) :
    List (K × V) × OpResult K :=
  if l.count = 0 then (seen, resume l.upper)
  else
    match feed func seen (l.entries.drop (l.lowerBound k)) with
    | (seen', true) => (seen', resume l.upper)
    | (seen', false) => (seen', .finished)

/-- `DESC_SCAN::operator()`: the iterator counts down and includes position 0. -/
def descScan (func : Callback K V) (k : K) (l : Leaf K V) (seen : List (K × V)) :
    List (K × V) × OpResult K :=
  if l.count = 0 then (seen, resume l.lower)
  else
    let bound := l.lowerBound k
    let it := if l.count ≤ bound then l.count - 1 else bound
    let larger := k < Search.cells l.keys it
    if larger ∧ it = 0 then (seen, resume l.lower)
    else
      let start := if larger then it - 1 else it
      match feed func seen (l.entries.take (start + 1)).reverse with
      | (seen', true) => (seen', resume l.lower)
      | (seen', false) => (seen', .finished)

def scanLeaf (dir : Direction) (func : Callback K V) (k : K) (l : Leaf K V)
    (seen : List (K × V)) : List (K × V) × OpResult K :=
  match dir with
  | .asc => ascScan func k l seen
  | .desc => descScan func k l seen

/-- `scan_`: one traversal from the entry page to a leaf. -/
def scanStep (entry : PID) (dir : Direction) (func : Callback K V) (fuel : Nat) (h : Heap K V)
    (isFirstTraversal : Bool) (k : K) (seen : List (K × V)) :
    Except Fault (List (K × V) × OpResult K) :=
  match h.page entry with
  | .entry root _ =>
      match descendType h (nextNode dir isFirstTraversal k) fuel entry root with
      | .ok (_, cur) =>
          match h.page cur with
          | .leaf l => .ok (scanLeaf dir func k l seen)
          | _ => .error .ensure
      | .error e => .error e
  | _ => .error .ensure

/-- The do-while loop of `scan`. -/
def scanLoop (entry : PID) (dir : Direction) (func : Callback K V) (depth : Nat) (h : Heap K V) :
    Nat → Bool → K → List (K × V) → Except Fault (List (K × V))
  | 0, _, _, _ => .error .fuel
  | fuel + 1, isFirstTraversal, k, seen =>
      match scanStep entry dir func depth h isFirstTraversal k seen with
      | .ok (seen', .continue sep) => scanLoop entry dir func depth h fuel false sep seen'
      | .ok (seen', .finished) => .ok seen'
      | .error e => .error e

def scan (entry : PID) (dir : Direction) (func : Callback K V) (fuel : Nat) (h : Heap K V)
    (k : K) : Except Fault (List (K × V)) :=
  scanLoop entry dir func fuel h fuel true k []

end Operations

end ScaleStore.BTree
