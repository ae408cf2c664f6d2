/-
# The linked list

Data to be shared between nodes is kept in a list of pages.  Elements are only ever
appended: every variant walks to the last page first and starts a new one when that
is full.  Readers go by division to the page and the place of an index.

Division is right because all pages but the last one are full, which every variant
keeps.  Behind the last page `get` follows `EMPTY_PID`, before it comes to its
`ensure`.  What happens then is up to the frame inside the bucket of that PID: while
the frame is free, it has this PID itself.
-/

import ScaleStore.Lib.Blocks
import ScaleStore.Lib.PointerChain
import ScaleStore.Lib.System
import ScaleStore.Storage.ReadPage

namespace ScaleStore.LinkedList

open Storage

variable {T : Type} {maxEntries : Nat}

/-! ## Nodes and pages -/

def EMPTY_PID : PID := ~~~0#64

/-- What ends a call early. -/
inductive Fault where
  /-- A failed `ensure` raises. -/
  | ensure
  /-- A guard has been asked for a page that does not exist. -/
  | noPage
  /-- A lookup starts again for ever, for a latch that nobody will give back. -/
  | stuck
  /-- A request has been addressed to node 255, for which there is no connection. -/
  | noNode
  /-- The loop has not ended yet. -/
  | unfinished
deriving DecidableEq

/-- A page of the list; the array is filled up to `count`, which is the length of `entries`. -/
structure LinkedListNode (T : Type) (maxEntries : Nat) where
  entries : List T
  next : PID
  count_le : entries.length ≤ maxEntries

namespace LinkedListNode

/-- What `allocate` puts into a page. -/
def new : LinkedListNode T maxEntries := ⟨[], EMPTY_PID, Nat.zero_le _⟩

def count (node : LinkedListNode T maxEntries) : Nat := node.entries.length

def isFull (node : LinkedListNode T maxEntries) : Bool := node.count == maxEntries

def push (node : LinkedListNode T maxEntries) (element : T) :
    Except Fault (LinkedListNode T maxEntries) :=
  if h : node.isFull then .error .ensure
  else .ok {
    entries := node.entries ++ [element]
    next := node.next
    count_le := by
      have hlt := Nat.lt_of_le_of_ne node.count_le fun heq => h (beq_iff_eq.mpr heq)
      simpa using hlt }

end LinkedListNode

/-- The pages there are. -/
abbrev Heap (T : Type) (maxEntries : Nat) := PID → Option (LinkedListNode T maxEntries)

/-- A guard, given by the page of its frame. -/
def fix (heap : Heap T maxEntries) (pid : PID) : Except Fault PID :=
  if (heap pid).isSome then .ok pid else .error .noPage

/-- `as<LinkedListNode>(0)` of a guard. -/
def node (heap : Heap T maxEntries) (guard : PID) : Except Fault (LinkedListNode T maxEntries) :=
  match heap guard with
  | some node => .ok node
  | none => .error .noPage

/-! ## Appending -/

/-- The loop with which every variant begins. -/
def findTail (heap : Heap T maxEntries) : Nat → PID → Except Fault PID
  | 0, _ => .error .unfinished
  | fuel + 1, current => do
      let last ← node heap current
      if last.next ≠ EMPTY_PID then findTail heap fuel (← fix heap last.next)
      else return current

/-- The state of an appending loop. -/
structure Append (T : Type) (maxEntries : Nat) where
  heap : Heap T maxEntries
  /-- The page of `xg_current`. -/
  current : PID
  /-- The pages that have been allocated. -/
  pids : List PID
  /-- The elements that have been pushed. -/
  pushed : List T

/-- A new page behind the current one. -/
def Append.grow (s : Append T maxEntries) (newNode : PID) : Except Fault (Append T maxEntries) := do
  let heap := Function.update s.heap newNode (some .new)
  let last ← node heap s.current
  return { heap := Function.update heap s.current (some { last with next := newNode })
           current := newNode
           pids := s.pids ++ [newNode]
           pushed := s.pushed }

def Append.push (s : Append T maxEntries) (element : T) : Except Fault (Append T maxEntries) := do
  let last ← (← node s.heap s.current).push element
  return { s with
    heap := Function.update s.heap s.current (some last)
    pushed := s.pushed ++ [element] }

/-- One pass of the loop, for an element that may depend on the page it goes to; `allocation`
gives the pages in the order in which it is called. -/
def Append.pass (allocation : Nat → PID) (s : Append T maxEntries) (element : PID → T) :
    Except Fault (Append T maxEntries) := do
  let last ← node s.heap s.current
  let s ← if last.isFull then s.grow (allocation s.pids.length) else .ok s
  s.push (element s.current)

def Append.loop (allocation : Nat → PID) :
    List (PID → T) → Append T maxEntries → Except Fault (Append T maxEntries)
  | [], s => .ok s
  | element :: elements, s => do Append.loop allocation elements (← s.pass allocation element)

def append (fuel : Nat) (heap : Heap T maxEntries) (head : PID) (elements : List (PID → T))
    (allocation : Nat → PID) : Except Fault (Append T maxEntries) := do
  let current ← findTail heap fuel (← fix heap head)
  Append.loop allocation elements ⟨heap, current, [], []⟩

def fill (fuel : Nat) (heap : Heap T maxEntries) (head : PID) (content : List T)
    (allocation : Nat → PID) : Except Fault (Append T maxEntries) :=
  append fuel heap head (content.map fun c _ => c) allocation

/-- `fill` from an iterator, which it moves on. -/
def fillFrom (fuel : Nat) (heap : Heap T maxEntries) (head : PID) (startIterator : Nat → T)
    (numberElements : Nat) (allocation : Nat → PID) :
    Except Fault (Append T maxEntries × (Nat → T)) := do
  let s ← append fuel heap head ((List.range numberElements).map fun k _ => startIterator k)
    allocation
  return (s, fun k => startIterator (numberElements + k))

/-- `fillNumbers`, where `convert` is the conversion of `uint64_t` to the type of the elements. -/
def fillNumbers (fuel : Nat) (heap : Heap T maxEntries) (head : PID) (convert : Nat → T)
    (numberElements : Nat) (allocation : Nat → PID) : Except Fault (Append T maxEntries) :=
  append fuel heap head ((List.range numberElements).map fun k _ => convert k) allocation

/-- `fillNumbers` with a function for the elements; it also collects the pages. -/
def fillNumbersWith (fuel : Nat) (heap : Heap T maxEntries) (head : PID)
    (incrFunction : Nat → PID → T) (numberElements : Nat) (allocation : Nat → PID) :
    Except Fault (Append T maxEntries) :=
  append fuel heap head ((List.range numberElements).map incrFunction) allocation

/-- Unlike the other variants, `push` stays at the page it has found and writes to the new one
through the guard of that. -/
def push (fuel : Nat) (heap : Heap T maxEntries) (head : PID) (element : T) (newNode : PID) :
    Except Fault (Heap T maxEntries) := do
  let current ← findTail heap fuel (← fix heap head)
  let last ← node heap current
  if last.isFull then
    let heap := Function.update heap newNode (some .new)
    let last ← node heap current
    let heap := Function.update heap current (some { last with next := newNode })
    let last ← (← node heap newNode).push element
    return Function.update heap newNode (some last)
  else
    let last ← last.push element
    return Function.update heap current (some last)

/-! ## Reading -/

/-- The frame inside the bucket of `EMPTY_PID`, on the node of the caller. -/
inductive InlineFrame where
  /-- FREE, with `EMPTY_PID` for its PID. -/
  | free
  /-- The same, latched by a call of `fix` that has raised. -/
  | latched
  /-- It holds some page. -/
  | used
deriving DecidableEq

/-- `fix` of `EMPTY_PID`: how it fails, and what becomes of the frame. -/
def InlineFrame.fixEmpty : InlineFrame → Fault × InlineFrame
  -- `Shared` latches the frame for a REMOTE_POSSESSION_CHANGE, whose `ensure` wants it to be SHARED
  | .free => (.ensure, .latched)
  -- `Shared` returns RETRY each time
  | .latched => (.stuck, .latched)
  -- a frame is inserted, and the page is requested from its owner
  | .used => (.noNode, .used)

/-- The shared guard for what a page has as its next one. -/
def fixNext (heap : Heap T maxEntries) (bucket : InlineFrame) (next : PID) :
    Except Fault PID × InlineFrame :=
  if next = EMPTY_PID then (.error bucket.fixEmpty.1, bucket.fixEmpty.2)
  else (fix heap next, bucket)

/-- The loop that moves on by a number of pages. -/
def hop (heap : Heap T maxEntries) (bucket : InlineFrame) :
    Nat → PID → Except Fault PID × InlineFrame
  | 0, current => (.ok current, bucket)
  | pages + 1, current =>
      match node heap current with
      | .error fault => (.error fault, bucket)
      | .ok here =>
          match fixNext heap bucket here.next with
          | (.error fault, bucket) => (.error fault, bucket)
          | (.ok next, bucket) => hop heap bucket pages next

def get (heap : Heap T maxEntries) (bucket : InlineFrame) (head : PID) (idx : Nat) :
    Except Fault T × InlineFrame :=
  let pages := idx / maxEntries
  match fix heap head with
  | .error fault => (.error fault, bucket)
  | .ok current =>
      match hop heap bucket pages current with
      | (.error fault, bucket) => (.error fault, bucket)
      | (.ok current, bucket) =>
          let page_idx := idx % maxEntries
          match node heap current with
          | .error fault => (.error fault, bucket)
          | .ok here =>
              match here.entries[page_idx]? with
              | some element => (.ok element, bucket)
              | none => (.error .ensure, bucket)

/-- The next page of `applyToRange`, which checks that it is the one it has asked for. -/
def nextPage (heap : Heap T maxEntries) (current : PID) : Except Fault PID := do
  let next_pid := (← node heap current).next
  let guard ← fix heap next_pid
  if next_pid = guard then return guard else throw .ensure

def hopChecked (heap : Heap T maxEntries) : Nat → PID → Except Fault PID
  | 0, current => .ok current
  | pages + 1, current => do hopChecked heap pages (← nextPage heap current)

/-- The inner loop of `applyToRange` over the entries from `page_idx` on: what `func` is called
with, `startIdx` behind the loop, and whether the loop has returned from the function. -/
def applyToNode : List T → Nat → Nat → List T × Nat × Bool
  | [], startIdx, _ => ([], startIdx, false)
  | element :: elements, startIdx, endIdx =>
      if startIdx = endIdx then ([], startIdx, true)
      else
        let rest := applyToNode elements (startIdx + 1) endIdx
        (element :: rest.1, rest.2)

/-- The outer loop of `applyToRange`. -/
def applyLoop (heap : Heap T maxEntries) : Nat → PID → Nat → Nat → Nat → Except Fault (List T)
  | 0, _, _, _, _ => .error .unfinished
  | fuel + 1, current, page_idx, startIdx, endIdx =>
      if startIdx < endIdx then do
        let here ← node heap current
        let (called, startIdx, returned) := applyToNode (here.entries.drop page_idx) startIdx endIdx
        if returned ∨ startIdx = endIdx then return called
        else
          let current ← nextPage heap current
          return called ++ (← applyLoop heap fuel current 0 startIdx endIdx)
      else .ok []

/-- `applyToRange`, with the elements `func` is called with, in order. -/
def applyToRange (fuel : Nat) (heap : Heap T maxEntries) (head : PID) (startIdx endIdx : Nat) :
    Except Fault (List T) := do
  let pages := startIdx / maxEntries
  let current ← hopChecked heap pages (← fix heap head)
  let page_idx := startIdx % maxEntries
  if page_idx < (← node heap current).count then
    applyLoop heap fuel current page_idx startIdx endIdx
  else throw .ensure

/-! ## Runs -/

/-- The list, with the elements that have been pushed so far. -/
structure State (T : Type) (maxEntries : Nat) where
  heap : Heap T maxEntries
  head : PID
  pushed : List T
  bucket : InlineFrame

/-- The constructor, at the page its guard has allocated. -/
def State.new (heap : Heap T maxEntries) (head : PID) (bucket : InlineFrame) :
    State T maxEntries :=
  ⟨Function.update heap head (some .new), head, [], bucket⟩

/-- A call that appends. -/
inductive Call (T : Type) where
  | push (element : T) (newNode : PID)
  | fill (content : List T) (allocation : Nat → PID)
  | fillFrom (startIterator : Nat → T) (numberElements : Nat) (allocation : Nat → PID)
  | fillNumbers (convert : Nat → T) (numberElements : Nat) (allocation : Nat → PID)
  | fillNumbersWith (incrFunction : Nat → PID → T) (numberElements : Nat)
      (allocation : Nat → PID)

def State.exec (fuel : Nat) (s : State T maxEntries) : Call T → Except Fault (State T maxEntries)
  | .push element newNode => do
      return ⟨← LinkedList.push fuel s.heap s.head element newNode, s.head, s.pushed ++ [element],
        s.bucket⟩
  | .fill content allocation => do
      let after ← fill fuel s.heap s.head content allocation
      return ⟨after.heap, s.head, s.pushed ++ content, s.bucket⟩
  | .fillFrom startIterator numberElements allocation => do
      let (after, _) ← fillFrom fuel s.heap s.head startIterator numberElements allocation
      return ⟨after.heap, s.head, s.pushed ++ (List.range numberElements).map startIterator,
        s.bucket⟩
  | .fillNumbers convert numberElements allocation => do
      let after ← fillNumbers fuel s.heap s.head convert numberElements allocation
      return ⟨after.heap, s.head, s.pushed ++ (List.range numberElements).map convert, s.bucket⟩
  | .fillNumbersWith incrFunction numberElements allocation => do
      let after ← fillNumbersWith fuel s.heap s.head incrFunction numberElements allocation
      return ⟨after.heap, s.head, s.pushed ++ after.pushed, s.bucket⟩

/-- The pages from the `lo`th to the `hi`th call of the allocation function are fresh. -/
structure Fresh (heap : Heap T maxEntries) (allocation : Nat → PID) (lo hi : Nat) : Prop where
  unmapped : ∀ k, lo ≤ k → k < hi → heap (allocation k) = none
  valid : ∀ k, lo ≤ k → k < hi → allocation k ≠ EMPTY_PID
  distinct : ∀ k i, lo ≤ k → k < i → i < hi → allocation i ≠ allocation k

/-- What a call appends, as far as it is known before. -/
def Call.elements : Call T → List (PID → T)
  | .push element _ => [fun _ => element]
  | .fill content _ => content.map fun c _ => c
  | .fillFrom startIterator numberElements _ =>
      (List.range numberElements).map fun k _ => startIterator k
  | .fillNumbers convert numberElements _ => (List.range numberElements).map fun k _ => convert k
  | .fillNumbersWith incrFunction numberElements _ => (List.range numberElements).map incrFunction

def Call.allocation : Call T → Nat → PID
  | .push _ newNode => fun _ => newNode
  | .fill _ allocation | .fillFrom _ _ allocation | .fillNumbers _ _ allocation
  | .fillNumbersWith _ _ allocation => allocation

/-- The allocation function of the call returns fresh pages.  No call makes more allocations than
it has elements to append. -/
def Call.Fresh (heap : Heap T maxEntries) (call : Call T) : Prop :=
  LinkedList.Fresh heap call.allocation 0 call.elements.length

/-- The constructor's page is fresh, too, and no page has the identifier `EMPTY_PID`. -/
def Init (s : State T maxEntries) : Prop :=
  ∃ (heap : Heap T maxEntries) (head : PID) (bucket : InlineFrame), heap EMPTY_PID = none ∧
    heap head = none ∧ head ≠ EMPTY_PID ∧ s = .new heap head bucket

/-- A call that appends, or a call of `get`; and other pages come into the bucket and leave it. -/
inductive Step (s : State T maxEntries) : State T maxEntries → Prop where
  | append {s'} (fuel : Nat) (call : Call T) : call.Fresh s.heap → s.exec fuel call = .ok s' →
    Step s s'
  | get (idx : Nat) : Step s { s with bucket := (LinkedList.get s.heap s.bucket s.head idx).2 }
  | others (bucket : InlineFrame) : s.bucket ≠ .latched → bucket ≠ .latched →
    Step s { s with bucket }

variable (T maxEntries) in
def system : System (State T maxEntries) where
  Init := Init
  Step := Step

/-! ## What the list is -/

/-- The page behind a page. -/
def nextOf (heap : Heap T maxEntries) (pid : PID) : Option PID :=
  (heap pid).bind fun here => if here.next = EMPTY_PID then none else some here.next

def entriesOf (heap : Heap T maxEntries) (pid : PID) : List T :=
  ((heap pid).map LinkedListNode.entries).getD []

/-- The pages from the head on are full except for the last one and hold what has been pushed; calls
end well; and `applyToRange` applies its function to the elements of the range. -/
structure IsSequence (s : State T maxEntries) : Prop where
  spelled : ∃ nodes, Chain (nextOf s.heap) (some s.head) nodes none ∧
    (∀ pid ∈ nodes.dropLast, (entriesOf s.heap pid).length = maxEntries) ∧
    (nodes.map (entriesOf s.heap)).flatten = s.pushed
  call : ∀ call : Call T, call.Fresh s.heap →
    ∃ enough, ∀ fuel, enough ≤ fuel → ∃ s', s.exec fuel call = .ok s'
  range : ∀ startIdx endIdx, startIdx < s.pushed.length → endIdx ≤ s.pushed.length →
    ∃ enough, ∀ fuel, enough ≤ fuel → applyToRange fuel s.heap s.head startIdx endIdx =
      .ok ((s.pushed.drop startIdx).take (endIdx - startIdx))

/-- `get` returns the element of an index, and raises where there is none. -/
def Gets (s : State T maxEntries) (idx : Nat) : Prop :=
  (get s.heap s.bucket s.head idx).1 =
    match s.pushed[idx]? with
    | some element => .ok element
    | none => .error .ensure

/-! ## Walking along the pages -/

section Walk

variable {heap : Heap T maxEntries} {head pid next : PID} {here : LinkedListNode T maxEntries}
  {nodes : List PID}

theorem node_eq (h : heap pid = some here) : node heap pid = .ok here := by
  rw [node, h]

theorem fix_eq (h : (heap pid).isSome) : fix heap pid = .ok pid := if_pos h

theorem nextOf_eq_some (h : nextOf heap pid = some next) :
    ∃ here, heap pid = some here ∧ here.next = next ∧ next ≠ EMPTY_PID := by
  obtain ⟨here, hhere, hnext⟩ := Option.bind_eq_some_iff.mp h
  rw [Option.ite_none_left_eq_some] at hnext
  obtain ⟨hne, heq⟩ := hnext
  obtain rfl := Option.some.inj heq
  exact ⟨here, hhere, rfl, hne⟩

theorem nextOf_eq_none (hhere : heap pid = some here) (h : nextOf heap pid = none) :
    here.next = EMPTY_PID := by
  simpa [nextOf, hhere] using h

/-- The last page is found if there are enough passes. -/
theorem findTail_eq {fuel : Nat} (h : Chain (nextOf heap) (some head) (nodes ++ [pid]) none)
    (hmapped : ∀ p ∈ nodes ++ [pid], (heap p).isSome) :
    findTail heap fuel head = if nodes.length < fuel then .ok pid else .error .unfinished := by
  induction fuel generalizing head nodes with
  | zero => rfl
  | succ fuel ih =>
    cases nodes with
    | nil =>
      obtain ⟨heq, hnext⟩ := h
      obtain rfl := Option.some.inj heq
      obtain ⟨here, hhere⟩ := Option.isSome_iff_exists.mp (hmapped head (by simp))
      rw [findTail, node_eq hhere]
      simp [bind, Except.bind, nextOf_eq_none hhere hnext, pure, Except.pure]
    | cons p nodes =>
      rw [List.cons_append] at h
      obtain ⟨heq, hrest⟩ := h
      obtain rfl := Option.some.inj heq
      have hhead := hrest.head_eq
      obtain ⟨q, hq⟩ : ∃ q, (nodes ++ [pid]).head? = some q := by
        cases nodes <;> simp
      rw [hq] at hhead
      obtain ⟨here, hhere, hnext, hne⟩ := nextOf_eq_some hhead
      have hmem : q ∈ nodes ++ [pid] := List.mem_of_mem_head? (by rw [hq]; rfl)
      rw [findTail, node_eq hhere]
      simp only [bind, Except.bind, hnext, ne_eq, hne, not_false_eq_true, if_true,
        fix_eq (hmapped q (List.mem_cons_of_mem _ hmem)), List.length_cons,
        Nat.add_lt_add_iff_right]
      exact ih (hhead ▸ hrest) fun p hp => hmapped p (List.mem_cons_of_mem _ hp)

/-- What the first page of a chain has as its next one. -/
theorem next_of_chain (h : Chain (nextOf heap) (some head) (head :: nodes) none)
    (hhere : heap head = some here) : here.next = nodes.head?.getD EMPTY_PID := by
  obtain ⟨-, hrest⟩ := h
  cases nodes with
  | nil => exact nextOf_eq_none hhere hrest
  | cons q nodes =>
    obtain ⟨here', hhere', hnext, -⟩ := nextOf_eq_some hrest.head_eq
    obtain rfl := Option.some.inj (hhere.symm.trans hhere')
    exact hnext

theorem chain_tail {q : PID} (h : Chain (nextOf heap) (some head) (head :: q :: nodes) none) :
    Chain (nextOf heap) (some q) (q :: nodes) none := by
  obtain ⟨-, hrest⟩ := h
  exact hrest.1 ▸ hrest

/-- Moving on by a number of pages ends at the page of that number, or with `EMPTY_PID` where the
pages end. -/
theorem hop_eq {bucket : InlineFrame} (h : Chain (nextOf heap) (some head) nodes none)
    (hmapped : ∀ p ∈ nodes, (heap p).isSome) (hempty : heap EMPTY_PID = none) (pages : Nat) :
    hop heap bucket pages head =
      match nodes[pages]? with
      | some pid => (.ok pid, bucket)
      | none => (.error bucket.fixEmpty.1, bucket.fixEmpty.2) := by
  induction pages generalizing head nodes with
  | zero =>
    cases nodes with
    | nil => cases h
    | cons p nodes =>
      obtain rfl := Option.some.inj h.1
      rfl
  | succ pages ih =>
    cases nodes with
    | nil => cases h
    | cons p nodes =>
      obtain rfl := Option.some.inj h.1
      obtain ⟨here, hhere⟩ := Option.isSome_iff_exists.mp (hmapped head List.mem_cons_self)
      have hnext := next_of_chain h hhere
      rw [hop, node_eq hhere, List.getElem?_cons_succ]
      cases nodes with
      | nil => simp [fixNext, hnext]
      | cons q nodes =>
        have hne : q ≠ EMPTY_PID := by
          rintro rfl
          simpa [hempty] using hmapped EMPTY_PID (by simp)
        have hq : fixNext heap bucket here.next = (.ok q, bucket) := by
          rw [hnext]
          simp [fixNext, hne, fix_eq (hmapped q (by simp))]
        rw [← ih (chain_tail h) fun p hp => hmapped p (List.mem_cons_of_mem _ hp)]
        simp only [hq]

/-- A guard is at the page it has been asked for, so that the check never fails. -/
theorem nextPage_eq (heap : Heap T maxEntries) (current : PID) :
    nextPage heap current = (do fix heap (← node heap current).next) := by
  rw [nextPage]
  cases node heap current with
  | error fault => rfl
  | ok here =>
    by_cases hmapped : (heap here.next).isSome
    · simp [bind, Except.bind, fix_eq hmapped, pure, Except.pure]
    · simp [bind, Except.bind, fix, hmapped]

theorem hopChecked_eq (h : Chain (nextOf heap) (some head) nodes none)
    (hmapped : ∀ p ∈ nodes, (heap p).isSome) {pages : Nat} (hpage : nodes[pages]? = some pid) :
    hopChecked heap pages head = .ok pid := by
  induction pages generalizing head nodes with
  | zero =>
    cases nodes with
    | nil => cases h
    | cons p nodes =>
      obtain rfl := Option.some.inj h.1
      obtain rfl := Option.some.inj hpage
      rfl
  | succ pages ih =>
    cases nodes with
    | nil => cases h
    | cons p nodes =>
      obtain rfl := Option.some.inj h.1
      obtain ⟨here, hhere⟩ := Option.isSome_iff_exists.mp (hmapped head List.mem_cons_self)
      have hnext := next_of_chain h hhere
      rw [List.getElem?_cons_succ] at hpage
      cases nodes with
      | nil => cases hpage
      | cons q nodes =>
        have hq := fix_eq (hmapped q (by simp))
        rw [hopChecked, nextPage_eq, node_eq hhere]
        simp only [bind, Except.bind, hnext, List.head?_cons, Option.getD_some, hq]
        exact ih (chain_tail h) (fun p hp => hmapped p (List.mem_cons_of_mem _ hp)) hpage

end Walk

/-! ## Reading the elements -/

/-- The elements are spelled by the pages from the head on. -/
structure Spells (heap : Heap T maxEntries) (head : PID) (nodes : List PID) (elements : List T) :
    Prop where
  chain : Chain (nextOf heap) (some head) nodes none
  mapped : ∀ pid ∈ nodes, (heap pid).isSome
  empty : heap EMPTY_PID = none
  nodup : nodes.Nodup
  packed : Packed maxEntries (nodes.map (entriesOf heap))
  spelled : (nodes.map (entriesOf heap)).flatten = elements

section Read

variable {heap : Heap T maxEntries} {head pid current : PID} {here : LinkedListNode T maxEntries}
  {nodes : List PID} {elements : List T}

theorem entriesOf_eq (h : heap pid = some here) : entriesOf heap pid = here.entries := by
  rw [entriesOf, h]
  rfl

theorem Spells.exists_cons (h : Spells heap head nodes elements) :
    ∃ rest, nodes = head :: rest := by
  cases nodes with
  | nil => cases h.chain
  | cons p rest =>
    obtain rfl := Option.some.inj h.chain.1
    exact ⟨rest, rfl⟩

theorem Spells.fix_head (h : Spells heap head nodes elements) : fix heap head = .ok head := by
  obtain ⟨rest, rfl⟩ := h.exists_cons
  exact fix_eq (h.mapped head List.mem_cons_self)

/-- `get` as long as there is a page for the index. -/
theorem Spells.get_eq (h : Spells heap head nodes elements) (hmax : 0 < maxEntries) {idx : Nat}
    (hidx : idx / maxEntries < nodes.length) (bucket : InlineFrame) :
    get heap bucket head idx = (
      match elements[idx]? with
      | some element => .ok element
      | none => .error .ensure, bucket) := by
  have hpage : nodes[idx / maxEntries]? = some nodes[idx / maxEntries] :=
    List.getElem?_eq_getElem hidx
  obtain ⟨here, hhere⟩ := Option.isSome_iff_exists.mp (h.mapped _ (List.getElem_mem hidx))
  have helement : elements[idx]? = here.entries[idx % maxEntries]? := by
    rw [← h.spelled, h.packed.getElem?_eq hmax, List.getElem?_map, hpage]
    simp [entriesOf_eq hhere]
  simp only [get, h.fix_head]
  rw [hop_eq h.chain h.mapped h.empty, hpage]
  simp only [node_eq hhere]
  rw [helement]
  cases here.entries[idx % maxEntries]? <;> rfl

/-- Behind the last page there is no element, and `get` does what `fix` does with `EMPTY_PID`. -/
theorem Spells.get_missing (h : Spells heap head nodes elements) (hmax : 0 < maxEntries)
    {idx : Nat} (hidx : nodes.length ≤ idx / maxEntries) (bucket : InlineFrame) :
    get heap bucket head idx = (.error bucket.fixEmpty.1, bucket.fixEmpty.2) ∧
      elements[idx]? = none := by
  have hpage : nodes[idx / maxEntries]? = none := List.getElem?_eq_none hidx
  constructor
  · simp only [get, h.fix_head]
    rw [hop_eq h.chain h.mapped h.empty, hpage]
  · rw [← h.spelled, h.packed.getElem?_eq hmax, List.getElem?_map, hpage]
    rfl

theorem applyToNode_eq {startIdx endIdx : Nat} (h : startIdx ≤ endIdx) :
    applyToNode elements startIdx endIdx =
      (elements.take (endIdx - startIdx), startIdx + min elements.length (endIdx - startIdx),
        decide (endIdx - startIdx < elements.length)) := by
  induction elements generalizing startIdx with
  | nil => simp [applyToNode]
  | cons element elements ih =>
    rw [applyToNode]
    split
    case isTrue heq =>
      subst heq
      simp
    case isFalse hne =>
      have hlt : startIdx < endIdx := Nat.lt_of_le_of_ne h hne
      obtain ⟨left, hleft⟩ : ∃ left, endIdx - startIdx = left + 1 :=
        ⟨endIdx - (startIdx + 1), by omega⟩
      have hleft' : endIdx - (startIdx + 1) = left := by omega
      rw [ih hlt, hleft, hleft', List.take_succ_cons, List.length_cons]
      simp
      omega

/-- From the current page on, the function is applied to the elements up to the end of the range,
provided that there are that many. -/
theorem applyLoop_eq {fuel page_idx startIdx endIdx : Nat}
    (h : Chain (nextOf heap) (some current) (current :: nodes) none)
    (hmapped : ∀ p ∈ current :: nodes, (heap p).isSome) (hfuel : nodes.length < fuel)
    (helements : (entriesOf heap current).drop page_idx ++ (nodes.map (entriesOf heap)).flatten =
      elements)
    (hend : endIdx - startIdx ≤ elements.length) :
    applyLoop heap fuel current page_idx startIdx endIdx =
      .ok (elements.take (endIdx - startIdx)) := by
  induction fuel generalizing current nodes page_idx startIdx elements with
  | zero => exact absurd hfuel (Nat.not_lt_zero _)
  | succ fuel ih =>
    obtain ⟨here, hhere⟩ := Option.isSome_iff_exists.mp (hmapped current List.mem_cons_self)
    rw [entriesOf_eq hhere] at helements
    rw [applyLoop]
    split
    case isFalse hle => simp [Nat.sub_eq_zero_of_le (Nat.le_of_not_lt hle)]
    case isTrue hlt =>
      rw [node_eq hhere]
      simp only [bind, Except.bind, applyToNode_eq (Nat.le_of_lt hlt), decide_eq_true_eq]
      generalize here.entries.drop page_idx = here_elements at helements ⊢
      subst helements
      by_cases hin : endIdx - startIdx ≤ here_elements.length
      · -- the range ends in this node, or with it
        rw [if_pos (by omega), List.take_append_of_le_length hin]
        rfl
      · rw [if_neg (by omega)]
        cases nodes with
        | nil => simp at hend; omega
        | cons next nodes =>
          obtain ⟨here', hhere', hnext, -⟩ := nextOf_eq_some h.2.head_eq
          obtain rfl := Option.some.inj (hhere.symm.trans hhere')
          have hleft : endIdx - (startIdx + here_elements.length) =
              endIdx - startIdx - here_elements.length := by omega
          have hmore : endIdx - (startIdx + here_elements.length) ≤
              ((entriesOf heap next).drop 0 ++ (nodes.map (entriesOf heap)).flatten).length := by
            rw [List.length_append] at hend
            show _ ≤ (((next :: nodes).map (entriesOf heap)).flatten).length
            omega
          have hrest := ih (h.2.1 ▸ h.2) (fun p hp => hmapped p (List.mem_cons_of_mem _ hp))
            (Nat.lt_of_succ_lt_succ hfuel) rfl hmore
          rw [nextPage_eq, node_eq hhere]
          simp only [bind, Except.bind, hnext, fix_eq (hmapped next (by simp))]
          rw [Nat.min_eq_left (by omega), hrest, hleft]
          exact congrArg Except.ok List.take_append.symm

/-- `applyToRange` with indices of the list. -/
theorem Spells.applyToRange_eq (h : Spells heap head nodes elements) (hmax : 0 < maxEntries)
    {fuel startIdx endIdx : Nat} (hstart : startIdx < elements.length)
    (hend : endIdx ≤ elements.length) (hfuel : nodes.length ≤ fuel) :
    applyToRange fuel heap head startIdx endIdx =
      .ok ((elements.drop startIdx).take (endIdx - startIdx)) := by
  have helement := h.packed.getElem?_eq hmax startIdx
  rw [h.spelled, List.getElem?_eq_getElem hstart] at helement
  obtain ⟨entries, hentries, hplace⟩ := Option.bind_eq_some_iff.mp helement.symm
  obtain ⟨current, hcurrent, rfl⟩ := by
    rw [List.getElem?_map, Option.map_eq_some_iff] at hentries
    exact hentries
  obtain ⟨hpage, hget⟩ := List.getElem?_eq_some_iff.mp hcurrent
  obtain ⟨here, hhere⟩ :=
    Option.isSome_iff_exists.mp (h.mapped current (hget ▸ List.getElem_mem hpage))
  obtain ⟨hlt, -⟩ := List.getElem?_eq_some_iff.mp hplace
  have hrest := h.packed.drop_eq hentries (Nat.le_of_lt hlt)
  rw [h.spelled, ← List.map_drop] at hrest
  rw [applyToRange, h.fix_head]
  simp only [bind, Except.bind]
  rw [hopChecked_eq h.chain h.mapped hcurrent]
  simp only [node_eq hhere]
  rw [entriesOf_eq hhere] at hlt
  rw [if_pos (show _ < here.count from hlt)]
  have hsplit : nodes.take (startIdx / maxEntries) ++
      current :: nodes.drop (startIdx / maxEntries + 1) = nodes := by
    rw [← hget, List.cons_getElem_drop_succ, List.take_append_drop]
  obtain ⟨p, -, rfl, hchain⟩ := Chain.append_iff.mp (hsplit ▸ h.chain)
  refine applyLoop_eq ⟨rfl, hchain⟩ ?_ ?_ hrest.symm ?_
  · intro p hp
    exact h.mapped p (hsplit ▸ List.mem_append_right _ hp)
  · rw [List.length_drop]
    exact (Nat.sub_lt (Nat.zero_lt_of_lt hpage) (Nat.succ_pos _)).trans_le hfuel
  · rw [List.length_drop]
    omega

end Read

/-! ## Appending keeps the list -/

section Append

variable {heap : Heap T maxEntries} {head pid current newNode : PID}
  {here last : LinkedListNode T maxEntries} {nodes : List PID} {elements : List T} {element : T}
  {allocation : Nat → PID} {lo hi : Nat}

theorem nextOf_update : nextOf (Function.update heap pid (some here)) =
    Function.update (nextOf heap) pid (if here.next = EMPTY_PID then none else some here.next) := by
  funext p
  by_cases hp : p = pid
  · subst hp
    simp [nextOf]
  · simp [nextOf, Function.update_of_ne hp]

theorem entriesOf_update : entriesOf (Function.update heap pid (some here)) =
    Function.update (entriesOf heap) pid here.entries := by
  funext p
  by_cases hp : p = pid
  · subst hp
    simp [entriesOf]
  · simp [entriesOf, Function.update_of_ne hp]

/-- A page with the same pointer. -/
theorem nextOf_update_of_next (hhere : heap pid = some here) (hnext : last.next = here.next) :
    nextOf (Function.update heap pid (some last)) = nextOf heap := by
  rw [nextOf_update, Function.update_eq_self_iff, nextOf, hhere, hnext]
  rfl

/-- A page with the same entries. -/
theorem entriesOf_update_of_entries (hentries : here.entries = entriesOf heap pid) :
    entriesOf (Function.update heap pid (some here)) = entriesOf heap := by
  rw [entriesOf_update, Function.update_eq_self_iff, hentries]

theorem push_ok (h : ¬ here.isFull) (element : T) : ∃ last, here.push element = .ok last := by
  rw [LinkedListNode.push, dif_neg h]
  exact ⟨_, rfl⟩

theorem push_spec (h : here.push element = .ok last) :
    last.entries = here.entries ++ [element] ∧ last.next = here.next := by
  rw [LinkedListNode.push] at h
  split at h
  case isTrue => cases h
  case isFalse =>
    obtain rfl := Except.ok.inj h
    exact ⟨rfl, rfl⟩

theorem Spells.ne_empty (h : Spells heap head nodes elements) (hhere : heap current = some here) :
    EMPTY_PID ≠ current := by
  rintro rfl
  exact absurd (h.empty.symm.trans hhere) (Option.some_ne_none _).symm

theorem Spells.push (h : Spells heap head (nodes ++ [current]) elements)
    (hhere : heap current = some here) (hlast : here.push element = .ok last) :
    Spells (Function.update heap current (some last)) head (nodes ++ [current])
      (elements ++ [element]) := by
  obtain ⟨hentries, hnext⟩ := push_spec hlast
  have hothers : nodes.map (entriesOf (Function.update heap current (some last))) =
      nodes.map (entriesOf heap) := by
    refine List.map_congr_left fun p hp => ?_
    rw [entriesOf_update]
    refine Function.update_of_ne (fun heq => ?_) _ _
    exact (List.disjoint_of_nodup_append h.nodup) (heq ▸ hp) (List.mem_singleton_self _)
  have hlastEntries : entriesOf (Function.update heap current (some last)) current =
      entriesOf heap current ++ [element] := by
    rw [entriesOf_update, Function.update_self, hentries, entriesOf_eq hhere]
  constructor
  case chain => exact nextOf_update_of_next hhere hnext ▸ h.chain
  case mapped =>
    intro p hp
    by_cases hpc : p = current
    · simp [hpc]
    · rw [Function.update_of_ne hpc]
      exact h.mapped p hp
  case empty =>
    rw [Function.update_of_ne (h.ne_empty hhere)]
    exact h.empty
  case nodup => exact h.nodup
  case packed =>
    have hpacked := h.packed
    rw [List.map_append, List.map_singleton, Packed.snoc_iff] at hpacked ⊢
    rw [hothers, entriesOf_update, Function.update_self]
    exact ⟨hpacked.1, last.count_le⟩
  case spelled =>
    have hspelled := h.spelled
    rw [List.map_append, List.map_singleton, List.flatten_concat] at hspelled ⊢
    rw [hothers, hlastEntries, ← List.append_assoc, hspelled]

/-- A new page adds no entries. -/
theorem entriesOf_grow (hhere : heap current = some here) (hnew : heap newNode = none)
    (hne : current ≠ newNode) :
    entriesOf (Function.update (Function.update heap newNode (some .new)) current
      (some { here with next := newNode })) = entriesOf heap := by
  rw [entriesOf_update_of_entries, entriesOf_update_of_entries]
  · rw [entriesOf, hnew]
    rfl
  · rw [entriesOf_update, Function.update_of_ne hne, entriesOf_eq hhere]

theorem Spells.grow (h : Spells heap head (nodes ++ [current]) elements)
    (hhere : heap current = some here) (hfull : here.isFull) (hnew : heap newNode = none)
    (hvalid : newNode ≠ EMPTY_PID) :
    Spells (Function.update (Function.update heap newNode (some .new)) current
      (some { here with next := newNode })) head ((nodes ++ [current]) ++ [newNode]) elements := by
  have hfresh : newNode ∉ nodes ++ [current] := by
    intro hmem
    have hmapped := h.mapped newNode hmem
    rw [hnew] at hmapped
    cases hmapped
  have hne : current ≠ newNode := fun heq => hfresh (by simp [heq])
  have hentries := entriesOf_grow hhere hnew hne
  constructor
  case chain =>
    have hkeep : nextOf (Function.update heap newNode (some .new)) = nextOf heap := by
      rw [nextOf_update, Function.update_eq_self_iff, nextOf, hnew]
      rfl
    rw [nextOf_update, hkeep, if_neg hvalid]
    refine h.chain.link ?_ hfresh (by rw [nextOf, hnew]; rfl)
    exact fun hmem => (List.disjoint_of_nodup_append h.nodup) hmem (List.mem_singleton_self _)
  case mapped =>
    intro p hp
    by_cases hpc : p = current
    · simp [hpc]
    · rw [Function.update_of_ne hpc]
      rcases List.mem_append.mp hp with hp | hp
      · have hpn : p ≠ newNode := fun heq => hfresh (heq ▸ hp)
        rw [Function.update_of_ne hpn]
        exact h.mapped p hp
      · rw [List.mem_singleton.mp hp, Function.update_self]
        rfl
  case empty =>
    rw [Function.update_of_ne (h.ne_empty hhere), Function.update_of_ne hvalid.symm]
    exact h.empty
  case nodup =>
    exact h.nodup.append (List.nodup_singleton _) (List.disjoint_singleton.mpr hfresh)
  case packed =>
    rw [hentries, List.map_append, List.map_singleton, Packed.snoc_iff, entriesOf, hnew]
    refine ⟨?_, Nat.zero_le _⟩
    have hpacked := h.packed
    rw [List.map_append, List.map_singleton, Packed.snoc_iff] at hpacked
    simp only [List.map_append, List.map_singleton, List.forall_mem_append,
      List.forall_mem_singleton]
    refine ⟨hpacked.1, ?_⟩
    rw [entriesOf_eq hhere]
    exact beq_iff_eq.mp hfull
  case spelled =>
    rw [hentries, List.map_append, List.map_singleton, List.flatten_concat, h.spelled, entriesOf,
      hnew]
    exact List.append_nil _

theorem Fresh.mono {heap' : Heap T maxEntries} {lo' hi' : Nat} (h : Fresh heap allocation lo hi)
    (hlo : lo ≤ lo') (hhi : hi' ≤ hi)
    (hkeep : ∀ k, lo' ≤ k → k < hi' → heap' (allocation k) = heap (allocation k)) :
    Fresh heap' allocation lo' hi' where
  unmapped k hk hki := by
    rw [hkeep k hk hki]
    exact h.unmapped k (hlo.trans hk) (hki.trans_le hhi)
  valid k hk hki := h.valid k (hlo.trans hk) (hki.trans_le hhi)
  distinct k i hk hki hi := h.distinct k i (hlo.trans hk) hki (hi.trans_le hhi)

/-- Fresh pages are other pages than those of the list. -/
theorem Fresh.ne (h : Fresh heap allocation lo hi) (hhere : heap pid = some here) {k : Nat}
    (hlo : lo ≤ k) (hhi : k < hi) : allocation k ≠ pid := by
  rintro rfl
  exact absurd ((h.unmapped k hlo hhi).symm.trans hhere) (Option.some_ne_none _).symm

/-- The list while it is appended to: the current page is the last one, and every page behind the
head holds something. -/
def Appending (s : Append T maxEntries) (head : PID) (elements : List T) : Prop :=
  ∃ nodes, Spells s.heap head (nodes ++ [s.current]) elements ∧
    ∀ pid ∈ (nodes ++ [s.current]).tail, entriesOf s.heap pid ≠ []

theorem append_push {s : Append T maxEntries}
    (h : Spells s.heap head (nodes ++ [s.current]) elements)
    (hfilled : ∀ pid ∈ (nodes ++ [s.current]).tail, pid ≠ s.current → entriesOf s.heap pid ≠ [])
    (hhere : s.heap s.current = some here) (hroom : ¬ here.isFull) (element : T) :
    ∃ s', s.push element = .ok s' ∧ s'.pids = s.pids ∧ s'.pushed = s.pushed ++ [element] ∧
      (∀ pid, pid ≠ s.current → s'.heap pid = s.heap pid) ∧
      Appending s' head (elements ++ [element]) := by
  obtain ⟨last, hlast⟩ := push_ok hroom element
  refine ⟨{ s with
    heap := Function.update s.heap s.current (some last)
    pushed := s.pushed ++ [element] }, ?_, rfl, rfl, ?_, nodes, h.push hhere hlast, ?_⟩
  · rw [Append.push, node_eq hhere]
    simp only [bind, Except.bind, hlast]
    rfl
  · exact fun pid hne => Function.update_of_ne hne _ _
  · intro pid hpid
    rw [entriesOf_update]
    by_cases heq : pid = s.current
    · rw [heq, Function.update_self, (push_spec hlast).1]
      simp
    · rw [Function.update_of_ne heq]
      exact hfilled pid hpid heq

theorem append_grow {s : Append T maxEntries}
    (h : Spells s.heap head (nodes ++ [s.current]) elements)
    (hhere : s.heap s.current = some here) (hfull : here.isFull) (hnew : s.heap newNode = none)
    (hvalid : newNode ≠ EMPTY_PID) :
    ∃ grown, s.grow newNode = .ok grown ∧ grown.current = newNode ∧
      grown.pids = s.pids ++ [newNode] ∧ grown.pushed = s.pushed ∧
      grown.heap newNode = some .new ∧
      (∀ pid, pid ≠ s.current → pid ≠ newNode → grown.heap pid = s.heap pid) ∧
      entriesOf grown.heap = entriesOf s.heap ∧
      Spells grown.heap head ((nodes ++ [s.current]) ++ [grown.current]) elements := by
  have hne : s.current ≠ newNode := by
    rintro rfl
    exact absurd (hnew.symm.trans hhere) (Option.some_ne_none _).symm
  refine ⟨{
    heap := Function.update (Function.update s.heap newNode (some .new)) s.current
      (some { here with next := newNode })
    current := newNode
    pids := s.pids ++ [newNode]
    pushed := s.pushed }, ?_, rfl, rfl, rfl, ?_, ?_, entriesOf_grow hhere hnew hne,
    h.grow hhere hfull hnew hvalid⟩
  · have hcurrent : Function.update s.heap newNode (some .new) s.current = some here := by
      rwa [Function.update_of_ne hne]
    rw [Append.grow, node_eq hcurrent]
    rfl
  · exact (Function.update_of_ne hne.symm _ _).trans (Function.update_self ..)
  · intro pid hpc hpn
    exact (Function.update_of_ne hpc _ _).trans (Function.update_of_ne hpn _ _)

/-- A pass appends its element, and the pages that it has not taken remain fresh. -/
theorem Appending.pass {s : Append T maxEntries} (hmax : 0 < maxEntries)
    (h : Appending s head elements) (hfresh : Fresh s.heap allocation s.pids.length hi)
    (hhi : s.pids.length < hi) (element : PID → T) :
    ∃ s' pid, s.pass allocation element = .ok s' ∧ s'.pushed = s.pushed ++ [element pid] ∧
      s'.pids.length ≤ s.pids.length + 1 ∧ Fresh s'.heap allocation s'.pids.length hi ∧
      Appending s' head (elements ++ [element pid]) := by
  obtain ⟨nodes, hspells, hfilled⟩ := h
  obtain ⟨here, hhere⟩ := Option.isSome_iff_exists.mp (hspells.mapped s.current (by simp))
  rw [Append.pass, node_eq hhere]
  by_cases hfull : here.isFull
  · -- a new page is linked behind the current one, and takes the element
    obtain ⟨grown, hgrow, hcurrent, hpids, hpushed, hnode, hkeep, hentries, hspells'⟩ :=
      append_grow hspells hhere hfull (hfresh.unmapped _ le_rfl hhi) (hfresh.valid _ le_rfl hhi)
    have hroom : ¬ (.new : LinkedListNode T maxEntries).isFull := by
      simpa [LinkedListNode.isFull, LinkedListNode.count, LinkedListNode.new] using hmax.ne
    -- the new page is the only one behind the head without elements
    have hfilled' : ∀ pid ∈ ((nodes ++ [s.current]) ++ [grown.current]).tail,
        pid ≠ grown.current → entriesOf grown.heap pid ≠ [] := by
      intro pid hpid hne
      rw [List.tail_append_of_ne_nil (by simp)] at hpid
      rcases List.mem_append.mp hpid with hpid | hpid
      · rw [hentries]
        exact hfilled pid hpid
      · exact absurd (List.mem_singleton.mp hpid) hne
    obtain ⟨s', hpush, hpids', hpushed', hkeep', happending⟩ :=
      append_push hspells' hfilled' (hcurrent ▸ hnode) hroom (element grown.current)
    have hlength : s'.pids.length = s.pids.length + 1 := by
      rw [hpids', hpids, List.length_append, List.length_singleton]
    refine ⟨s', grown.current, ?_, hpushed ▸ hpushed', hlength.le, ?_, happending⟩
    · simp only [bind, Except.bind, if_pos hfull, hgrow]
      exact hpush
    · rw [hlength]
      refine hfresh.mono (Nat.le_succ _) le_rfl fun k hk hki => ?_
      have hkn : allocation k ≠ allocation s.pids.length := hfresh.distinct _ k le_rfl hk hki
      rw [hkeep' _ (hcurrent ▸ hkn), hkeep _ (hfresh.ne hhere (Nat.le_of_lt hk) hki) hkn]
  · obtain ⟨s', hpush, hpids, hpushed, hkeep, happending⟩ :=
      append_push hspells (fun pid hpid _ => hfilled pid hpid) hhere hfull (element s.current)
    refine ⟨s', s.current, ?_, hpushed, hpids ▸ Nat.le_succ _, ?_, happending⟩
    · simp only [bind, Except.bind, if_neg hfull]
      exact hpush
    · rw [hpids]
      exact hfresh.mono le_rfl le_rfl fun k hk hki => hkeep _ (hfresh.ne hhere hk hki)

/-- The loop appends its elements, in order. -/
theorem Appending.loop {s : Append T maxEntries} (hmax : 0 < maxEntries)
    (h : Appending s head elements) {fs : List (PID → T)}
    (hfresh : Fresh s.heap allocation s.pids.length hi) (hhi : s.pids.length + fs.length ≤ hi) :
    ∃ s' added, Append.loop allocation fs s = .ok s' ∧ s'.pushed = s.pushed ++ added ∧
      List.Forall₂ (fun f element => ∃ pid, element = f pid) fs added ∧
      Appending s' head (elements ++ added) := by
  induction fs generalizing s elements with
  | nil => exact ⟨s, [], rfl, (List.append_nil _).symm, .nil, by rwa [List.append_nil]⟩
  | cons f fs ih =>
    rw [List.length_cons] at hhi
    obtain ⟨s₁, pid, hpass, hpushed₁, hlength, hfresh₁, h₁⟩ := h.pass hmax hfresh (by omega) f
    obtain ⟨s', added, hloop, hpushed, hadded, h'⟩ := ih h₁ hfresh₁ (by omega)
    refine ⟨s', f pid :: added, ?_, ?_, .cons ⟨pid, rfl⟩ hadded, ?_⟩
    · rw [Append.loop, hpass]
      exact hloop
    · rw [hpushed, hpushed₁, List.append_assoc, List.singleton_append]
    · rwa [List.append_assoc, List.singleton_append] at h'

/-- A list between two calls. -/
def Listed (heap : Heap T maxEntries) (head : PID) (elements : List T) : Prop :=
  ∃ nodes, Spells heap head nodes elements ∧ ∀ pid ∈ nodes.tail, entriesOf heap pid ≠ []

/-- Every variant but `push`: it ends, given enough passes to find the last page, and appends its
elements. -/
theorem Listed.append (hmax : 0 < maxEntries) (h : Listed heap head elements)
    {fs : List (PID → T)} (hfresh : Fresh heap allocation 0 fs.length) :
    (∃ enough, ∀ fuel, enough ≤ fuel → ∃ s, append fuel heap head fs allocation = .ok s) ∧
      ∀ fuel s, append fuel heap head fs allocation = .ok s →
        List.Forall₂ (fun f element => ∃ pid, element = f pid) fs s.pushed ∧
        Listed s.heap head (elements ++ s.pushed) := by
  obtain ⟨nodes, hspells, hfilled⟩ := h
  obtain ⟨rest, hrest⟩ := hspells.exists_cons
  obtain ⟨init, last, rfl⟩ := (List.eq_nil_or_concat' nodes).resolve_left (by simp [hrest])
  have hstart : Appending ⟨heap, last, [], []⟩ head elements := ⟨init, hspells, hfilled⟩
  obtain ⟨s, added, hloop, hpushed, hadded, nodes', hspells', hfilled'⟩ :=
    hstart.loop hmax hfresh (Nat.zero_add _).le
  obtain rfl : s.pushed = added := hpushed
  have heq (fuel : Nat) : LinkedList.append fuel heap head fs allocation =
      if init.length < fuel then .ok s else .error .unfinished := by
    rw [LinkedList.append, hspells.fix_head]
    simp only [bind, Except.bind, findTail_eq hspells.chain hspells.mapped]
    by_cases hfuel : init.length < fuel
    · simp only [if_pos hfuel, hloop]
    · simp only [if_neg hfuel]
  refine ⟨⟨init.length + 1, fun fuel hfuel => ⟨s, (heq fuel).trans (if_pos hfuel)⟩⟩, ?_⟩
  intro fuel s' hs'
  rw [heq] at hs'
  split at hs'
  case isTrue =>
    obtain rfl := Except.ok.inj hs'
    exact ⟨hadded, _, hspells', hfilled'⟩
  case isFalse => cases hs'

/-- Elements that do not depend on their page. -/
theorem eq_of_forall₂ {α : Type} (f : α → T) (xs : List α) {added : List T}
    (h : List.Forall₂ (fun (g : PID → T) element => ∃ pid, element = g pid)
      (xs.map fun x _ => f x) added) : added = xs.map f := by
  rw [List.forall₂_map_left_iff] at h
  have heq : List.Forall₂ (fun x element => f x = element) xs added :=
    h.imp fun _ _ ⟨_, h⟩ => h.symm
  rw [← List.forall₂_map_left_iff, List.forall₂_eq_eq_eq] at heq
  exact heq.symm

/-- `push` does what the others do for a single element. -/
theorem push_eq (fuel : Nat) (heap : Heap T maxEntries) (head : PID) (element : T) (newNode : PID) :
    LinkedList.push fuel heap head element newNode =
      (append fuel heap head [fun _ => element] fun _ => newNode).map Append.heap := by
  rw [LinkedList.push, LinkedList.append]
  simp only [bind, Except.bind]
  cases fix heap head with
  | error fault => rfl
  | ok current =>
    cases hfind : findTail heap fuel current with
    | error fault => simp [hfind, Except.map]
    | ok current =>
      simp only [hfind, Append.loop, Append.pass, Append.grow, Append.push, bind, Except.bind]
      cases hnode : node heap current with
      | error fault => simp [Except.map]
      | ok last =>
        by_cases hfull : last.isFull
        · simp only [if_pos hfull]
          cases node (Function.update heap newNode (some .new)) current with
          | error fault => rfl
          | ok last =>
            simp only [pure, Except.pure]
            rcases hnew : node (Function.update (Function.update heap newNode (some .new)) current
              (some { last with next := newNode })) newNode with fault | empty
            · rfl
            · rcases hpush : empty.push element with fault | full <;> simp [hpush, Except.map]
        · simp only [if_neg hfull]
          rcases hpush : last.push element with fault | full <;>
            simp [Except.map, pure, Except.pure]

end Append

/-! ## Every call -/

section Call

variable {s s' : State T maxEntries} {call : Call T} {fuel : Nat}

/-- All calls come down to appending. -/
theorem exec_eq (s : State T maxEntries) (fuel : Nat) (call : Call T) :
    ∃ pushed : List T → List T,
      (∀ added, List.Forall₂ (fun f element => ∃ pid, element = f pid) call.elements added →
        pushed added = added) ∧
      s.exec fuel call = (append fuel s.heap s.head call.elements call.allocation).map
        fun after => ⟨after.heap, s.head, s.pushed ++ pushed after.pushed, s.bucket⟩ := by
  cases call with
  | push element newNode =>
    refine ⟨fun _ => [element], fun added h => (eq_of_forall₂ id [element] h).symm, ?_⟩
    rw [State.exec, LinkedList.push_eq]
    simp only [Call.elements, Call.allocation]
    cases append fuel s.heap s.head [fun _ => element] fun _ => newNode <;> rfl
  | fill content allocation =>
    refine ⟨fun _ => content, fun added h => ?_, ?_⟩
    · rw [eq_of_forall₂ id content h, List.map_id]
    · rw [State.exec, fill]
      simp only [Call.elements, Call.allocation]
      cases append fuel s.heap s.head (content.map fun c _ => c) allocation <;> rfl
  | fillFrom startIterator numberElements allocation =>
    refine ⟨fun _ => (List.range numberElements).map startIterator,
      fun added h => (eq_of_forall₂ startIterator _ h).symm, ?_⟩
    rw [State.exec, LinkedList.fillFrom]
    simp only [Call.elements, Call.allocation]
    cases append fuel s.heap s.head ((List.range numberElements).map fun k _ => startIterator k)
      allocation <;> rfl
  | fillNumbers convert numberElements allocation =>
    refine ⟨fun _ => (List.range numberElements).map convert,
      fun added h => (eq_of_forall₂ convert _ h).symm, ?_⟩
    rw [State.exec, LinkedList.fillNumbers]
    simp only [Call.elements, Call.allocation]
    cases append fuel s.heap s.head ((List.range numberElements).map fun k _ => convert k)
      allocation <;> rfl
  | fillNumbersWith incrFunction numberElements allocation =>
    refine ⟨id, fun added _ => rfl, ?_⟩
    rw [State.exec, fillNumbersWith]
    simp only [Call.elements, Call.allocation]
    cases append fuel s.heap s.head ((List.range numberElements).map incrFunction)
      allocation <;> rfl

/-- Calls end, given enough passes. -/
theorem exec_ok (hmax : 0 < maxEntries) (h : Listed s.heap s.head s.pushed)
    (hfresh : call.Fresh s.heap) :
    ∃ enough, ∀ fuel, enough ≤ fuel → ∃ s', s.exec fuel call = .ok s' := by
  obtain ⟨enough, hok⟩ := (h.append hmax hfresh).1
  refine ⟨enough, fun fuel hfuel => ?_⟩
  obtain ⟨after, hafter⟩ := hok fuel hfuel
  obtain ⟨pushed, -, hexec⟩ := exec_eq s fuel call
  exact ⟨⟨after.heap, s.head, s.pushed ++ pushed after.pushed, s.bucket⟩,
    by rw [hexec, hafter]; rfl⟩

/-- Calls keep the list. -/
theorem exec_listed (hmax : 0 < maxEntries) (h : Listed s.heap s.head s.pushed)
    (hfresh : call.Fresh s.heap) (hexec : s.exec fuel call = .ok s') :
    Listed s'.heap s'.head s'.pushed := by
  obtain ⟨pushed, hpushed, heq⟩ := exec_eq s fuel call
  rw [heq] at hexec
  rcases hafter : append fuel s.heap s.head call.elements call.allocation with fault | after
  · rw [hafter] at hexec
    cases hexec
  · rw [hafter] at hexec
    obtain rfl := Except.ok.inj hexec
    obtain ⟨hadded, hlisted⟩ := (h.append hmax hfresh).2 fuel after hafter
    show Listed after.heap s.head (s.pushed ++ pushed after.pushed)
    rwa [hpushed _ hadded]

theorem Init.listed (h : Init s) : Listed s.heap s.head s.pushed := by
  obtain ⟨heap, head, bucket, hempty, -, hvalid, rfl⟩ := h
  have hnext : nextOf (Function.update heap head (some .new)) head = none := by
    rw [nextOf_update, Function.update_self]
    rfl
  have hentries : entriesOf (Function.update heap head (some .new)) head = [] := by
    rw [entriesOf_update, Function.update_self]
    rfl
  refine ⟨[head], ⟨⟨rfl, hnext⟩, ?_, ?_, List.nodup_singleton _, ?_, ?_⟩, by simp⟩
  · intro pid hpid
    rw [List.mem_singleton.mp hpid]
    show (Function.update heap head (some .new) head).isSome
    rw [Function.update_self]
    rfl
  · exact (Function.update_of_ne hvalid.symm _ _).trans hempty
  · show (entriesOf (Function.update heap head (some .new)) head).length ≤ maxEntries
    rw [hentries]
    exact Nat.zero_le _
  · show [entriesOf (Function.update heap head (some .new)) head].flatten = []
    rw [hentries]
    rfl

theorem Listed.isSequence (hmax : 0 < maxEntries) (h : Listed s.heap s.head s.pushed) :
    IsSequence s := by
  obtain ⟨nodes, hspells, hfilled⟩ := id h
  refine ⟨⟨nodes, hspells.chain, ?_, hspells.spelled⟩, fun call => exec_ok hmax h, ?_⟩
  · have hpacked := hspells.packed
    rcases List.eq_nil_or_concat' nodes with rfl | ⟨init, last, rfl⟩
    · simp
    · rw [List.map_append, List.map_singleton, Packed.snoc_iff, List.forall_mem_map] at hpacked
      rw [List.dropLast_concat]
      exact hpacked.1
  · intro startIdx endIdx hstart hend
    exact ⟨nodes.length, fun fuel hfuel => hspells.applyToRange_eq hmax hstart hend hfuel⟩

/-- `get` is right about the indices for which there is a page (at least one page there always is),
and about the others for as long as the frame in the bucket of `EMPTY_PID` is free. -/
theorem Listed.gets_iff (hmax : 0 < maxEntries) (h : Listed s.heap s.head s.pushed) (idx : Nat) :
    Gets s idx ↔ idx / maxEntries < max 1 ((s.pushed.length + maxEntries - 1) / maxEntries) ∨
      s.bucket = .free := by
  obtain ⟨nodes, hspells, hfilled⟩ := h
  have hlength : nodes.length = max 1 ((s.pushed.length + maxEntries - 1) / maxEntries) := by
    obtain ⟨rest, hrest⟩ := hspells.exists_cons
    rw [← hspells.spelled, ← hspells.packed.length_eq hmax (by simp [hrest]), List.length_map]
    rwa [← List.map_tail, List.forall_mem_map]
  rw [← hlength, Gets]
  rcases Nat.lt_or_ge (idx / maxEntries) nodes.length with hidx | hidx
  · rw [hspells.get_eq hmax hidx]
    exact iff_of_true rfl (.inl hidx)
  · obtain ⟨hget, hnone⟩ := hspells.get_missing hmax hidx s.bucket
    rw [hget, hnone]
    cases s.bucket with
    | free => exact iff_of_true rfl (.inr rfl)
    | latched | used =>
      refine iff_of_false (fun h => by cases h) ?_
      rintro (hlt | hfree)
      · exact absurd hlt (Nat.not_lt_of_le hidx)
      · cases hfree

end Call

/-- The list is a sequence, except that `get` raises for indices that are on no page only while the
frame in the bucket of `EMPTY_PID` is free. -/
theorem is_sequence (hmax : 0 < maxEntries) {s : State T maxEntries}
    (h : (system T maxEntries).Reachable s) :
    IsSequence s ∧ ∀ idx, Gets s idx ↔
      idx / maxEntries < max 1 ((s.pushed.length + maxEntries - 1) / maxEntries) ∨
        s.bucket = .free := by
  have hlisted : Listed s.heap s.head s.pushed := by
    refine h.invariant (P := fun s => Listed s.heap s.head s.pushed) (fun _ => Init.listed) ?_
    rintro s s' - hlisted st
    cases st with
    | append fuel call hfresh hexec => exact exec_listed hmax hlisted hfresh hexec
    | get | others => exact hlisted
  exact ⟨hlisted.isSequence hmax, hlisted.gets_iff hmax⟩

/-! ## A page that is just full -/

/-- An empty list whose head is page 0, on a node that has no page in the bucket of `EMPTY_PID`. -/
def start (maxEntries : Nat) : State Nat maxEntries := .new (fun _ => none) 0#64 .free

/-- The numbers below `n`, on the pages behind the head. -/
def numbers (n : Nat) : Call Nat := .fillNumbers id n fun k => BitVec.ofNat 64 (k + 1)

theorem numbers_reachable {maxEntries n : Nat} (hn : n < 2 ^ 32) {s : State Nat maxEntries}
    (h : (start maxEntries).exec 1 (numbers n) = .ok s) : (system Nat maxEntries).Reachable s := by
  have hlength : (numbers n).elements.length = n := by
    rw [numbers, Call.elements, List.length_map, List.length_range]
  have hvalue (k : Nat) (hk : k < n) : (BitVec.ofNat 64 (k + 1)).toNat = k + 1 :=
    Nat.mod_eq_of_lt (by omega)
  refine .step (.init ⟨_, _, _, rfl, rfl, by decide, rfl⟩) (.append 1 (numbers n) ⟨?_, ?_, ?_⟩ h)
  · intro k _ hk
    rw [hlength] at hk
    have hne : BitVec.ofNat 64 (k + 1) ≠ 0#64 := by
      intro heq
      have hzero := (hvalue k hk).symm.trans (congrArg BitVec.toNat heq)
      simp at hzero
    show Function.update (fun _ => none) 0#64 (some LinkedListNode.new) _ = none
    exact Function.update_of_ne hne _ _
  · intro k _ hk heq
    rw [hlength] at hk
    have hmax : k + 1 = 2 ^ 64 - 1 := (hvalue k hk).symm.trans (congrArg BitVec.toNat heq)
    omega
  · intro k i _ hki hi heq
    rw [hlength] at hi
    have hsame : i + 1 = k + 1 := (hvalue i hi).symm.trans
      ((congrArg BitVec.toNat heq).trans (hvalue k (hki.trans hi)))
    omega

/-- 61 numbers fill the first page.  The first call that asks for another one raises and leaves the
frame latched; the second one never ends. -/
theorem get_behind_full_page : ¬ ∀ s : State Nat 61, (system Nat 61).Reachable s →
    IsSequence s ∧ ∀ idx, Gets s idx := by
  intro hall
  obtain ⟨s, hs, hfirst, hsecond, hlength⟩ : ∃ s, (start 61).exec 1 (numbers 61) = .ok s ∧
      get s.heap s.bucket s.head 61 = (.error .ensure, .latched) ∧
      get s.heap .latched s.head 61 = (.error .stuck, .latched) ∧ s.pushed[61]? = none :=
    ⟨_, rfl, rfl, rfl, rfl⟩
  have hgets := (hall _ (.step (numbers_reachable (by decide) hs) (.get 61))).2 61
  simp only [Gets, hfirst, hsecond, hlength] at hgets
  cases hgets

/-- Three numbers on two pages. -/
theorem is_sequence_numbers : ∃ s : State Nat 2, s.pushed = [0, 1, 2] ∧
    IsSequence s ∧ ∀ idx, Gets s idx ↔
      idx / 2 < max 1 ((s.pushed.length + 2 - 1) / 2) ∨ s.bucket = .free := by
  obtain ⟨s, hs, hpushed⟩ : ∃ s, (start 2).exec 1 (numbers 3) = .ok s ∧ s.pushed = [0, 1, 2] :=
    ⟨_, rfl, rfl⟩
  exact ⟨s, hpushed, is_sequence (by decide) (numbers_reachable (by decide) hs)⟩

end ScaleStore.LinkedList
