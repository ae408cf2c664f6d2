/-
# The operations, guard by guard

`insert`, `remove`, the lookups and one leaf step of a scan as `BTree.hpp` runs them
next to other workers: optimistic guards on the way down, latches at the leaf, and a
restart whenever a version has moved on.  One attempt goes from the label `restart` to
the next `goto restart`, which is the result `none`, or to the end of the call.

Leaving a scope gives back the latches of its guards.  A failed `ensure` ends the call:
`raised` is `ensure(false)` for a key that is not there, `failed` the check of a node
type, which comes after the last look at the version and so may see anything.
-/

import ScaleStore.BTree.Guarded

namespace ScaleStore.BTree

/-- The calls workers make, `scan_` being one leaf step of `scan`. -/
inductive Call (K V : Type)
  | insert (k : K) (v : V)
  | remove (k : K)
  | lookup (k : K)
  | lookup_opt (k : K)
  | lookupAndUpdate (k : K) (callback : V → V)
  | scan_ (dir : Direction) (func : Callback K V) (isFirstTraversal : Bool) (k : K)
      (seen : List (K × V))

inductive Reply (K V : Type)
  | done
  | removed (wasBound : Bool)
  | value (v : V)
  | raised
  | handed (seen : List (K × V)) (res : OpResult K)
  | failed

/-- A key that is not there ends in `ensure(false)`. -/
def Reply.found {K V : Type} : Option V → Reply K V
  | some v => .value v
  | none => .raised

abbrev Code (K V R : Type) := Prog (Instr K V) Instr.Answer R

section Guards

variable {K V : Type}

def instr (i : Instr K V) : Code K V i.Answer := Prog.exec i

def fixOptimistic (pid : PID) : Code K V OptimisticGuard := instr (.fixOptimistic pid)
def fixExclusive (pid : PID) : Code K V Nat := instr (.fixExclusive pid)
def fixShared (pid : PID) : Code K V Unit := instr (.fixShared pid)
def tryLatchShared (pid : PID) : Code K V Bool := instr (.tryLatchShared pid)
def unlatchExclusive (pid : PID) : Code K V Unit := instr (.unlatchExclusive pid)
def unlatchShared (pid : PID) : Code K V Unit := instr (.unlatchShared pid)
def retry (g : OptimisticGuard) : Code K V Bool := instr (.retry g)
def peek (g : OptimisticGuard) : Code K V (Page K V) := instr (.peek g)
def readPage (pid : PID) : Code K V (Page K V) := instr (.read pid)
def findKey (pid : PID) (k : K) : Code K V (Option V) := instr (.find pid k)
def insertKey (pid : PID) (k : K) (v : V) : Code K V Unit := instr (.insert pid k v)
def removeKey (pid : PID) (k : K) : Code K V Bool := instr (.remove pid k)
def updateKey (pid : PID) (k : K) (callback : V → V) : Code K V Bool :=
  instr (.update pid k callback)
def splitNode (parent cur : PID) : Code K V Bool := instr (.split parent cur)
def mergeNodes (parent cur right : PID) (pos : Nat) : Code K V Unit :=
  instr (.merge parent cur right pos)

/-- `asPtr`, which looks at the version and sets the state to `RETRY`, and the `retry()` behind
it. -/
def asPtr (g : OptimisticGuard) : Code K V Bool := do
  if ← retry g then
    return true
  retry g

/-- `ExclusiveBFGuard(OptimisticBFGuard&&)`; false is the state `RETRY`, with no latch left. -/
def upgrade (g : OptimisticGuard) : Code K V Bool := do
  if ← retry g then
    return false
  let vAcquired ← fixExclusive g.pid
  if vAcquired = g.vAcquired + 0b10 then
    return true
  unlatchExclusive g.pid
  return false

/-- `SharedBFGuard(OptimisticBFGuard&&)`. -/
def upgradeShared (g : OptimisticGuard) : Code K V Bool := do
  if !(← tryLatchShared g.pid) then
    return false
  if ← retry g then
    unlatchShared g.pid
    return false
  return true

end Guards

section Attempts

variable {K V : Type} [LinearOrder K] [Inhabited K]

/-! ## Ways down -/

/-- The way to a leaf: the leaf and the guard of its parent, or the end of the attempt. -/
inductive Descent (K V L : Type)
  | over (r : Option (Reply K V))
  | leaf (g_parent : OptimisticGuard) (l : L)

/-- `restart:` up to the entry page. -/
def enter (entry : PID) : Code K V (Option OptimisticGuard) := do
  let g_parent ← fixOptimistic entry
  if ← asPtr g_parent then
    return none
  return some g_parent

/-- A full inner node is split, and the call starts again. -/
def splitFull (c : Capacity) (g_parent g_node : OptimisticGuard) :
    Code K V (Option (Option (Reply K V))) := do
  if !(← peek g_node).isFull c then
    return none
  if !(← upgrade g_parent) then
    return some none
  if !(← upgrade g_node) then
    unlatchExclusive g_parent.pid
    return some none
  let ok ← splitNode g_parent.pid g_node.pid
  unlatchExclusive g_node.pid
  unlatchExclusive g_parent.pid
  return some (if ok then none else some .failed)

/-- `while (currentLevel < height)`; only `insert` splits on its way. -/
def descendLevels (c : Capacity) (splits : Bool) (k : K) :
    Nat → OptimisticGuard → PID → Code K V (Descent K V PID)
  | 0, g_parent, currentPID => return .leaf g_parent currentPID
  | levels + 1, g_parent, currentPID => do
      let g_node ← fixOptimistic currentPID
      if ← retry g_parent then
        return .over none
      if ← asPtr g_node then
        return .over none
      if !(← peek g_node).isInner then
        return .over (some .failed)
      match ← (if splits then splitFull c g_parent g_node else return none) with
      | some r => return .over r
      | none =>
        if ← retry g_parent then
          return .over none
        let child := (← peek g_node).childAt fun n => n.lowerBoundBF k
        if ← retry g_node then
          return .over none
        descendLevels c splits k levels g_node child

/-- The descent of `insert`, `lookupAndUpdate` and the lookups, by the height in the entry page. -/
def toLeaf (c : Capacity) (entry : PID) (splits : Bool) (k : K) : Code K V (Descent K V PID) := do
  match ← enter entry with
  | none => return .over none
  | some g_parent =>
    let root := (← peek g_parent).root
    let height := (← peek g_parent).height
    descendLevels c splits k height g_parent root

/-- `while (node->type == PageType::BTreeInner)`; the budget is the number of turns. -/
def descendNodes (next : Inner K → Nat) :
    Nat → OptimisticGuard → OptimisticGuard → Code K V (Descent K V OptimisticGuard)
  | 0, _, _ => return .over none
  | turns + 1, g_parent, g_node => do
      if !(← peek g_node).isInner then
        return .leaf g_parent g_node
      if ← retry g_parent then
        return .over none
      let nextPid := (← peek g_node).childAt next
      if ← retry g_node then
        return .over none
      let g_next ← fixOptimistic nextPid
      if ← asPtr g_next then
        return .over none
      descendNodes next turns g_node g_next

/-- The descent of `remove` and `scan_`, by the types of the nodes. -/
def toLeafNode (entry : PID) (next : Inner K → Nat) (turns : Nat) :
    Code K V (Descent K V OptimisticGuard) := do
  match ← enter entry with
  | none => return .over none
  | some g_parent =>
    let rootPid := (← peek g_parent).root
    let g_node ← fixOptimistic rootPid
    if ← retry g_parent then
      return .over none
    if ← asPtr g_node then
      return .over none
    descendNodes next turns g_parent g_node

/-! ## The calls -/

/-- The leaf part of `insert`. -/
def insertAtPage (c : Capacity) (k : K) (v : V) (g_parent : OptimisticGuard) (currentPID : PID) :
    Code K V (Option (Reply K V)) := do
  let _ ← fixExclusive currentPID
  if !(← readPage currentPID).isLeaf then
    unlatchExclusive currentPID
    return some .failed
  if ← retry g_parent then
    unlatchExclusive currentPID
    return none
  if (← readPage currentPID).isFull c then
    if !(← upgrade g_parent) then
      unlatchExclusive currentPID
      return none
    let ok ← splitNode g_parent.pid currentPID
    unlatchExclusive g_parent.pid
    unlatchExclusive currentPID
    return if ok then none else some .failed
  insertKey currentPID k v
  unlatchExclusive currentPID
  return some .done

def insertAttempt (c : Capacity) (entry : PID) (k : K) (v : V) :
    Code K V (Option (Reply K V)) := do
  match ← toLeaf c entry true k with
  | .over r => return r
  | .leaf g_parent currentPID => insertAtPage c k v g_parent currentPID

def lookupAndUpdateAttempt (c : Capacity) (entry : PID) (k : K) (callback : V → V) :
    Code K V (Option (Reply K V)) := do
  match ← toLeaf c entry false k with
  | .over r => return r
  | .leaf g_parent currentPID =>
    let _ ← fixExclusive currentPID
    if !(← readPage currentPID).isLeaf then
      unlatchExclusive currentPID
      return some .failed
    if ← retry g_parent then
      unlatchExclusive currentPID
      return none
    let found ← updateKey currentPID k callback
    unlatchExclusive currentPID
    return some (if found then .done else .raised)

def lookupAttempt (c : Capacity) (entry : PID) (k : K) : Code K V (Option (Reply K V)) := do
  match ← toLeaf c entry false k with
  | .over r => return r
  | .leaf g_parent currentPID =>
    fixShared currentPID
    if ← retry g_parent then
      unlatchShared currentPID
      return none
    let found ← findKey currentPID k
    unlatchShared currentPID
    return some (.found found)

/-- From the label `restartLeaf` on; the budget is the number of times the leaf is fixed. -/
def lookupLeaf (k : K) (g_parent : OptimisticGuard) (currentPID : PID) :
    Nat → Code K V (Option (Reply K V))
  | 0 => return none
  | turns + 1 => do
      let og_node ← fixOptimistic currentPID
      let stale ← retry og_node
      if ← retry g_parent then
        return none
      if stale then
        lookupLeaf k g_parent currentPID turns
      else
        if ← retry og_node then
          lookupLeaf k g_parent currentPID turns
        else
          let found := (← peek og_node).payload k
          if ← retry g_parent then
            return none
          if ← retry og_node then
            lookupLeaf k g_parent currentPID turns
          else
            return some (.found found)

def lookup_optAttempt (c : Capacity) (entry : PID) (k : K) (turns : Nat) :
    Code K V (Option (Reply K V)) := do
  match ← toLeaf c entry false k with
  | .over r => return r
  | .leaf g_parent currentPID => lookupLeaf k g_parent currentPID turns

/-- `leaf.remove(k)` at the end of `remove`, and the latches given back. -/
def removeAtPage (k : K) (latched : List PID) (cur : PID) : Code K V (Option (Reply K V)) := do
  let removed ← removeKey cur k
  latched.forM unlatchExclusive
  return some (.removed removed)

/-- The underflow branch of `remove`, with parent and leaf latched. -/
def mergeAtPage (c : Capacity) (k : K) (parent cur : PID) : Code K V (Option (Reply K V)) := do
  match ← readPage parent with
  | .inner n =>
    let pos := n.lowerBound k
    if 2 ≤ n.count ∧ pos + 1 < n.count then
      let pid_right := n.children[pos + 1]?.getD entryPage
      let _ ← fixExclusive pid_right
      if c.leaf ≤ (← readPage cur).leafCount + (← readPage pid_right).leafCount then
        removeAtPage k [pid_right, cur, parent] cur
      else
        mergeNodes parent cur pid_right pos
        unlatchExclusive pid_right
        removeAtPage k [cur, parent] cur
    else
      removeAtPage k [cur, parent] cur
  | _ =>
    unlatchExclusive cur
    unlatchExclusive parent
    return some .failed

def removeAttempt (c : Capacity) (entry : PID) (k : K) (turns : Nat) :
    Code K V (Option (Reply K V)) := do
  match ← toLeafNode entry (fun n => n.lowerBound k) turns with
  | .over r => return r
  | .leaf g_parent g_node =>
    let underflow := (← peek g_node).isUnderflow c
    if underflow ∧ g_parent.pid ≠ entry then
      if !(← upgrade g_parent) then
        return none
      if !(← upgrade g_node) then
        unlatchExclusive g_parent.pid
        return none
      mergeAtPage c k g_parent.pid g_node.pid
    else
      if !(← upgrade g_node) then
        return none
      if ← retry g_parent then
        unlatchExclusive g_node.pid
        return none
      removeAtPage k [g_node.pid] g_node.pid

def scan_Attempt (entry : PID) (dir : Direction) (func : Callback K V) (isFirstTraversal : Bool)
    (k : K) (seen : List (K × V)) (turns : Nat) : Code K V (Option (Reply K V)) := do
  match ← toLeafNode entry (nextNode dir isFirstTraversal k) turns with
  | .over r => return r
  | .leaf g_parent g_node =>
    if !(← upgradeShared g_node) then
      return none
    if ← retry g_parent then
      unlatchShared g_node.pid
      return none
    let page ← readPage g_node.pid
    unlatchShared g_node.pid
    return some (match page with
      | .leaf l => let (seen', res) := scanLeaf dir func k l seen; .handed seen' res
      | _ => .failed)

def attempt (c : Capacity) (entry : PID) : Call K V → Nat → Code K V (Option (Reply K V))
  | .insert k v, _ => insertAttempt c entry k v
  | .remove k, turns => removeAttempt c entry k turns
  | .lookup k, _ => lookupAttempt c entry k
  | .lookup_opt k, turns => lookup_optAttempt c entry k turns
  | .lookupAndUpdate k callback, _ => lookupAndUpdateAttempt c entry k callback
  | .scan_ dir func isFirstTraversal k seen, turns =>
      scan_Attempt entry dir func isFirstTraversal k seen turns

/-- The tree and its workers, from a new tree on. -/
def workers (T : Type) [DecidableEq T] (c : Capacity) :
    Implementation T (Pages T K V) (Call K V) (Instr K V) Instr.Answer (Reply K V) where
  init m := m.heap = create ∧ (∀ pid, m.holder pid = none) ∧ ∀ pid, m.sharers pid = ∅
  exec := execInstr c entryPage
  environment := Moved
  attempt := attempt c entryPage

end Attempts

end ScaleStore.BTree
