/-
# The partitioned free lists

A `PartitionedQueue` keeps its elements in batches.  Every partition is a
`BatchQueue` with a list of batches that have elements and a list of empty ones;
a thread pushes to and pops from the one batch in its handle, and goes to the
partitions only when that batch is full or used up.

A step is one operation of a `BatchQueue`, which its spin lock makes atomic, or
what a thread does with its own batch between two of them.  The fields of a
handle are written as the source writes them, also where a search for a batch has
failed and they still name the batch that was put back.
-/

import ScaleStore.Lib.Places
import ScaleStore.Lib.System
import Mathlib.Algebra.BigOperators.Group.Finset.Basic
import Mathlib.Algebra.Order.Group.Multiset
import Mathlib.Data.Fintype.BigOperators
import Mathlib.Tactic.Abel

namespace ScaleStore.PartitionedQueue

/-- `utils::Stack`, the element that was pushed last in front. -/
structure Stack (E : Type) (capacity : Nat) where
  items : List E
  size_le : items.length ≤ capacity

namespace Stack

variable {E : Type} {capacity : Nat}

def size (c : Stack E capacity) : Nat := c.items.length

def empty (c : Stack E capacity) : Bool := c.size == 0

def tryPush (c : Stack E capacity) (e : E) : Option (Stack E capacity) :=
  if h : c.items.length = capacity then none
  else some ⟨e :: c.items, by
    have := c.size_le
    rw [List.length_cons]
    omega⟩

def tryPop : Stack E capacity → Option (E × Stack E capacity)
  | ⟨[], _⟩ => none
  | ⟨e :: rest, h⟩ => some (e, ⟨rest, Nat.le_of_succ_le h⟩)

theorem items_of_tryPush {c c' : Stack E capacity} {e : E} (h : c.tryPush e = some c') :
    c'.items = e :: c.items := by
  unfold tryPush at h
  split at h
  · cases h
  · obtain rfl := Option.some.inj h
    rfl

theorem nonempty_of_tryPush (hcapacity : 0 < capacity) {c : Stack E capacity} {e : E}
    (h : c.tryPush e = none) : c.items ≠ [] := by
  unfold tryPush at h
  split at h
  · rename_i hfull
    rw [← List.length_pos_iff]
    omega
  · cases h

theorem items_of_tryPop {c c' : Stack E capacity} {e : E} (h : c.tryPop = some (e, c')) :
    c.items = e :: c'.items := by
  obtain ⟨items, hsize⟩ := c
  cases items with
  | nil => cases h
  | cons x rest =>
    obtain ⟨rfl, rfl⟩ := by simpa [tryPop] using h
    rfl

theorem empty_of_tryPop {c : Stack E capacity} (h : c.tryPop = none) : c.items = [] := by
  obtain ⟨items, hsize⟩ := c
  cases items with
  | nil => rfl
  | cons x rest => cases h

theorem empty_iff {c : Stack E capacity} : c.empty = true ↔ c.items = [] := by
  simp [empty, size]

end Stack

/-- `utils::BatchQueue`: the counter of elements, and the batches of the lists `full` and `empty`
from the head on. -/
structure BatchQueue (B : Type) where
  elements : Nat
  full : List B
  empty : List B

namespace BatchQueue

variable {B : Type}

/-- `push_full` of a batch with `size` elements. -/
def pushFull (q : BatchQueue B) (b : B) (size : Nat) : BatchQueue B :=
  { q with elements := q.elements + size, full := b :: q.full }

def pushEmpty (q : BatchQueue B) (b : B) : BatchQueue B := { q with empty := b :: q.empty }

def tryPopEmpty (q : BatchQueue B) : Option (B × BatchQueue B) :=
  match q.empty with
  | [] => none
  | b :: rest => some (b, { q with empty := rest })

/-- `try_pop_full` with the latch held; `size` is how many elements a batch has. -/
def tryPopFull (q : BatchQueue B) (size : B → Nat) : Option (B × BatchQueue B) :=
  match q.full with
  | [] => none
  | b :: rest => some (b, { q with full := rest, elements := q.elements - size b })

theorem tryPopEmpty_eq_some {q q' : BatchQueue B} {b : B} (h : q.tryPopEmpty = some (b, q')) :
    q.empty = b :: q'.empty ∧ q'.full = q.full ∧ q'.elements = q.elements := by
  unfold tryPopEmpty at h
  split at h
  · cases h
  · rename_i hempty
    obtain ⟨rfl, rfl⟩ := by simpa using h
    exact ⟨hempty, rfl, rfl⟩

theorem tryPopFull_eq_some {q q' : BatchQueue B} {b : B} {size : B → Nat}
    (h : q.tryPopFull size = some (b, q')) :
    q.full = b :: q'.full ∧ q'.empty = q.empty ∧ q'.elements = q.elements - size b := by
  unfold tryPopFull at h
  split at h
  · cases h
  · rename_i hfull
    obtain ⟨rfl, rfl⟩ := by simpa using h
    exact ⟨hfull, rfl, rfl⟩

end BatchQueue

/-- A batch, named by the queue whose array it is in and its index there. -/
abbrev Batch (partitions size : Nat) : Type := Fin partitions × Fin size

/-- The queue a batch comes from. -/
abbrev Batch.home {partitions size : Nat} (b : Batch partitions size) : Fin partitions := b.1

structure BatchHandle (partitions size : Nat) where
  batch : Option (Batch partitions size)
  queue : Option (Fin partitions)

/-- Which queue is asked for a batch: one at random because the handle is empty, one at random
because its batch has been put back, or each in turn. -/
inductive Search where
  | first
  | random
  | scan (i : Nat)
deriving DecidableEq, Repr

/-- Where a call through a handle is. -/
inductive Pc (partitions : Nat) (E : Type) where
  | idle
  /-- `try_push` has a batch from before. -/
  | fill (e : E)
  | seekEmpty (e : E) (src : Search)
  /-- `return b_handle.batch->container.try_push(e)`. -/
  | store (e : E)
  /-- `try_pop` has a batch from before. -/
  | take
  /-- `try_pop_full` is about to look at `elements`. -/
  | seekFull (src : Search)
  /-- `try_pop_full` of queue `p` is about to try the latch. -/
  | lockFull (src : Search) (p : Fin partitions)
  /-- `return b_handle.batch->container.try_pop(e)`. -/
  | last
deriving DecidableEq

/-- The batch of the handle has been put back, or there has been none; its fields mean nothing. -/
def Pc.seeks {partitions : Nat} {E : Type} : Pc partitions E → Bool
  | .seekEmpty _ _ | .seekFull _ | .lockFull _ _ => true
  | _ => false

/-- The queues, the containers of the batches, and the handles. -/
structure State (partitions size capacity : Nat) (E H : Type) where
  queues : Fin partitions → BatchQueue (Batch partitions size)
  container : Batch partitions size → Stack E capacity
  handle : H → BatchHandle partitions size
  pc : H → Pc partitions E
  /-- The elements whose `try_push` returned true, and those that `try_pop` returned. -/
  pushed : Multiset E
  popped : Multiset E

variable {partitions size capacity : Nat} {E H : Type} [DecidableEq H]

namespace State

variable (s : State partitions size capacity E H)

/-- Handle `h` gets new fields and its call goes on at `p`. -/
def go (h : H) (hd : BatchHandle partitions size) (p : Pc partitions E) :
    State partitions size capacity E H :=
  { s with handle := Function.update s.handle h hd, pc := Function.update s.pc h p }

/-- The same for fields and place given together. -/
def goOn (h : H) (next : BatchHandle partitions size × Pc partitions E) :
    State partitions size capacity E H :=
  s.go h next.1 next.2

def setQueue (q : Fin partitions) (bq : BatchQueue (Batch partitions size)) :
    State partitions size capacity E H :=
  { s with queues := Function.update s.queues q bq }

def setContainer (b : Batch partitions size) (c : Stack E capacity) :
    State partitions size capacity E H :=
  { s with container := Function.update s.container b c }

/-- The batch a handle has. -/
def holds (h : H) : Option (Batch partitions size) :=
  if (s.pc h).seeks then none else (s.handle h).batch

/-- All elements in the batches. -/
def stored : Multiset E := ∑ b, ((s.container b).items : Multiset E)

end State

/-- The queue `p` may be asked. -/
def Search.Tries (p : Fin partitions) : Search → Prop
  | .first | .random => True
  | .scan i => p.val = i

/-- What `try_push` does when the queue `p` has no empty batch. -/
def missEmpty (e : E) (p : Fin partitions) (hd : BatchHandle partitions size) :
    Search → BatchHandle partitions size × Pc partitions E
  | .first => (⟨none, none⟩, .idle)
  | .random => ({ hd with queue := some p }, .seekEmpty e (.scan 0))
  | .scan i => (hd, .seekEmpty e (.scan (i + 1)))

/-- What `try_pop` does when a queue gives no batch. -/
def missFull (hd : BatchHandle partitions size) :
    Search → BatchHandle partitions size × Pc partitions E
  | .first => (⟨none, none⟩, .idle)
  | .random => (hd, .seekFull (.scan 0))
  | .scan i => (hd, .seekFull (.scan (i + 1)))

/-! ## Steps -/

/-- What is done next through handle `h`. -/
inductive Step (h : H) (s : State partitions size capacity E H) :
    State partitions size capacity E H → Prop where
  /- `try_push`. -/
  | startPush (e : E) : s.pc h = .idle →
    Step h s (s.go h (s.handle h)
      (if (s.handle h).batch = none then .seekEmpty e .first else .fill e))
  | filled {e b c} : s.pc h = .fill e → (s.handle h).batch = some b →
    (s.container b).tryPush e = some c →
    Step h s ({ s.setContainer b c with pushed := e ::ₘ s.pushed }.go h (s.handle h) .idle)
  | putFull {e b q} : s.pc h = .fill e → (s.handle h).batch = some b →
    (s.handle h).queue = some q → (s.container b).tryPush e = none →
    Step h s ((s.setQueue q ((s.queues q).pushFull b (s.container b).size)).go h (s.handle h)
      (.seekEmpty e .random))
  | gotEmpty {e src p b bq} : s.pc h = .seekEmpty e src → src.Tries p →
    (s.queues p).tryPopEmpty = some (b, bq) →
    Step h s ((s.setQueue p bq).go h ⟨some b, some p⟩
      (if src = .first then .fill e else .store e))
  | missEmpty {e src p} : s.pc h = .seekEmpty e src → src.Tries p →
    (s.queues p).tryPopEmpty = none →
    Step h s (s.goOn h (missEmpty e p (s.handle h) src))
  | noEmpty {e} : s.pc h = .seekEmpty e (.scan partitions) →
    Step h s (s.go h ⟨none, none⟩ .idle)
  | stored {e b c} : s.pc h = .store e → (s.handle h).batch = some b →
    (s.container b).tryPush e = some c →
    Step h s ({ s.setContainer b c with pushed := e ::ₘ s.pushed }.go h (s.handle h) .idle)
  | notStored {e b} : s.pc h = .store e → (s.handle h).batch = some b →
    (s.container b).tryPush e = none → Step h s (s.go h (s.handle h) .idle)
  /- `try_pop`. -/
  | startPop : s.pc h = .idle →
    Step h s (s.go h (s.handle h)
      (if (s.handle h).batch = none then .seekFull .first else .take))
  | taken {e b c} : s.pc h = .take → (s.handle h).batch = some b →
    (s.container b).tryPop = some (e, c) →
    Step h s ({ s.setContainer b c with popped := e ::ₘ s.popped }.go h (s.handle h) .idle)
  | putEmpty {b q} : s.pc h = .take → (s.handle h).batch = some b →
    (s.handle h).queue = some q → (s.container b).tryPop = none →
    Step h s ((s.setQueue q ((s.queues q).pushEmpty b)).go h (s.handle h) (.seekFull .random))
  | noElements {src p} : s.pc h = .seekFull src → src.Tries p → (s.queues p).elements = 0 →
    Step h s (s.goOn h (missFull (s.handle h) src))
  | someElements {src p} : s.pc h = .seekFull src → src.Tries p → (s.queues p).elements ≠ 0 →
    Step h s (s.go h (s.handle h) (.lockFull src p))
  /-- `try_lock` may fail; if it succeeds, the list may be empty by now. -/
  | missFull {src p} : s.pc h = .lockFull src p →
    Step h s (s.goOn h (missFull (s.handle h) src))
  | gotFull {src p b bq} : s.pc h = .lockFull src p →
    (s.queues p).tryPopFull (fun b => (s.container b).size) = some (b, bq) →
    Step h s ((s.setQueue p bq).go h ⟨some b, some p⟩ (if src = .first then .take else .last))
  | noFull : s.pc h = .seekFull (.scan partitions) → Step h s (s.go h ⟨none, none⟩ .idle)
  | lastTaken {e b c} : s.pc h = .last → (s.handle h).batch = some b →
    (s.container b).tryPop = some (e, c) →
    Step h s ({ s.setContainer b c with popped := e ::ₘ s.popped }.go h (s.handle h) .idle)
  | notTaken {b} : s.pc h = .last → (s.handle h).batch = some b →
    (s.container b).tryPop = none → Step h s (s.go h (s.handle h) .idle)
  /- `~BatchHandle`. -/
  | destroyEmpty {b q} : s.pc h = .idle → (s.handle h).batch = some b →
    (s.handle h).queue = some q → (s.container b).empty = true →
    Step h s ((s.setQueue q ((s.queues q).pushEmpty b)).go h ⟨none, none⟩ .idle)
  | destroyFull {b q} : s.pc h = .idle → (s.handle h).batch = some b →
    (s.handle h).queue = some q → (s.container b).empty = false →
    Step h s ((s.setQueue q ((s.queues q).pushFull b (s.container b).size)).go h ⟨none, none⟩ .idle)

/-- The constructors of the queues have put their batches into the lists `empty`. -/
structure Init (s : State partitions size capacity E H) : Prop where
  queues : ∀ q, s.queues q = ⟨0, [], (List.finRange size).reverse.map fun i => (q, i)⟩
  containers : ∀ b, (s.container b).items = []
  handles : ∀ h, s.handle h = ⟨none, none⟩
  pcs : ∀ h, s.pc h = .idle
  nothing : s.pushed = 0 ∧ s.popped = 0

/-- Any number of handles on one `PartitionedQueue`. -/
def partitionedQueue : System (State partitions size capacity E H) where
  Init := Init
  Step s s' := ∃ h, Step h s s'

/-! ## What is conserved -/

/-- Where a batch may be. -/
inductive Place (partitions : Nat) (H : Type) where
  | empty (q : Fin partitions)
  | full (q : Fin partitions)
  | handle (h : H)
deriving DecidableEq

/-- The batches in each place. -/
def State.batches (s : State partitions size capacity E H) :
    Place partitions H → Multiset (Batch partitions size)
  | .empty q => ((s.queues q).empty : Multiset _)
  | .full q => ((s.queues q).full : Multiset _)
  | .handle h => ((s.holds h).toList : Multiset _)

/-- The lists of queue `q` have batches of its own with and without elements, and its counter is
right. -/
structure QueueOk (container : Batch partitions size → Stack E capacity) (q : Fin partitions)
    (bq : BatchQueue (Batch partitions size)) : Prop where
  home_empty : ∀ b ∈ bq.empty, b.home = q
  home_full : ∀ b ∈ bq.full, b.home = q
  full_nonempty : ∀ b ∈ bq.full, (container b).items ≠ []
  empty_empty : ∀ b ∈ bq.empty, (container b).items = []
  elements : bq.elements = (bq.full.map fun b => (container b).size).sum

/-- Batches are in one place and go back to the queue they come from, the counters are right, and
no element is lost or made up. -/
structure Conserved (s : State partitions size capacity E H) : Prop where
  placed : ∀ b, InOnePlace s.batches b
  queues : ∀ q, QueueOk s.container q (s.queues q)
  home_handle : ∀ h b, s.holds h = some b → (s.handle h).queue = some b.home
  balance : s.popped + s.stored = s.pushed

namespace QueueOk

variable {container : Batch partitions size → Stack E capacity} {q : Fin partitions}
  {bq bq' : BatchQueue (Batch partitions size)} {b : Batch partitions size}

theorem tryPopEmpty (hq : QueueOk container q bq) (h : bq.tryPopEmpty = some (b, bq')) :
    QueueOk container q bq' ∧ b.home = q := by
  obtain ⟨hempty, hfull, helements⟩ := BatchQueue.tryPopEmpty_eq_some h
  have hb : b ∈ bq.empty := hempty ▸ List.mem_cons_self
  refine ⟨⟨?_, ?_, ?_, ?_, ?_⟩, hq.home_empty b hb⟩
  · exact fun x hx => hq.home_empty x (hempty ▸ List.mem_cons_of_mem _ hx)
  · rw [hfull]
    exact hq.home_full
  · rw [hfull]
    exact hq.full_nonempty
  · exact fun x hx => hq.empty_empty x (hempty ▸ List.mem_cons_of_mem _ hx)
  · rw [hfull, helements]
    exact hq.elements

theorem tryPopFull (hq : QueueOk container q bq)
    (h : bq.tryPopFull (fun b => (container b).size) = some (b, bq')) :
    QueueOk container q bq' ∧ b.home = q := by
  obtain ⟨hfull, hempty, helements⟩ := BatchQueue.tryPopFull_eq_some h
  have hb : b ∈ bq.full := hfull ▸ List.mem_cons_self
  refine ⟨⟨?_, ?_, ?_, ?_, ?_⟩, hq.home_full b hb⟩
  · rw [hempty]
    exact hq.home_empty
  · exact fun x hx => hq.home_full x (hfull ▸ List.mem_cons_of_mem _ hx)
  · exact fun x hx => hq.full_nonempty x (hfull ▸ List.mem_cons_of_mem _ hx)
  · rw [hempty]
    exact hq.empty_empty
  · rw [helements, hq.elements, hfull, List.map_cons, List.sum_cons, Nat.add_sub_cancel_left]

theorem pushEmpty (hq : QueueOk container q bq) (hhome : b.home = q)
    (hb : (container b).items = []) : QueueOk container q (bq.pushEmpty b) := by
  refine ⟨?_, hq.home_full, hq.full_nonempty, ?_, hq.elements⟩
  · exact List.forall_mem_cons.mpr ⟨hhome, hq.home_empty⟩
  · exact List.forall_mem_cons.mpr ⟨hb, hq.empty_empty⟩

theorem pushFull (hq : QueueOk container q bq) (hhome : b.home = q)
    (hb : (container b).items ≠ []) :
    QueueOk container q (bq.pushFull b (container b).size) := by
  refine ⟨hq.home_empty, ?_, ?_, hq.empty_empty, ?_⟩
  · exact List.forall_mem_cons.mpr ⟨hhome, hq.home_full⟩
  · exact List.forall_mem_cons.mpr ⟨hb, hq.full_nonempty⟩
  · simp only [BatchQueue.pushFull, List.map_cons, List.sum_cons]
    rw [hq.elements, Nat.add_comm]

/-- The container of a batch that is in neither list may change. -/
theorem setContainer (hq : QueueOk container q bq) (hfull : b ∉ bq.full) (hempty : b ∉ bq.empty)
    (c : Stack E capacity) : QueueOk (Function.update container b c) q bq := by
  have hsame : ∀ x ∈ bq.full, Function.update container b c x = container x :=
    fun x hx => Function.update_of_ne (ne_of_mem_of_not_mem hx hfull) _ _
  refine ⟨hq.home_empty, hq.home_full, ?_, ?_, ?_⟩
  · intro x hx
    rw [hsame x hx]
    exact hq.full_nonempty x hx
  · intro x hx
    rw [Function.update_of_ne (ne_of_mem_of_not_mem hx hempty)]
    exact hq.empty_empty x hx
  · have hsizes : bq.full.map (fun x => (Function.update container b c x).size) =
        bq.full.map fun x => (container x).size :=
      List.map_congr_left fun x hx => congrArg Stack.size (hsame x hx)
    rw [hsizes]
    exact hq.elements

end QueueOk

section Lemmas

variable {s s' : State partitions size capacity E H} {h : H} {q : Fin partitions}
  {b : Batch partitions size} {bq : BatchQueue (Batch partitions size)}
  {hd : BatchHandle partitions size} {p : Pc partitions E}

@[simp] theorem State.go_queues : (s.go h hd p).queues = s.queues := rfl
@[simp] theorem State.go_container : (s.go h hd p).container = s.container := rfl
@[simp] theorem State.go_handle : (s.go h hd p).handle = Function.update s.handle h hd := rfl
@[simp] theorem State.go_pushed : (s.go h hd p).pushed = s.pushed := rfl
@[simp] theorem State.go_popped : (s.go h hd p).popped = s.popped := rfl
@[simp] theorem State.go_stored : (s.go h hd p).stored = s.stored := rfl

/-- What a handle has once its fields are `hd` and its call is at `p`. -/
def hasAt (hd : BatchHandle partitions size) (p : Pc partitions E) :
    Option (Batch partitions size) :=
  if p.seeks then none else hd.batch

theorem State.holds_go : (s.go h hd p).holds = Function.update s.holds h (hasAt hd p) := by
  funext h'
  by_cases hh : h' = h
  · subst hh
    simp [State.holds, State.go, hasAt]
  · simp [State.holds, State.go, hh]

omit [DecidableEq H] in
theorem State.holds_of_pc (hpc : (s.pc h).seeks = false) :
    s.holds h = (s.handle h).batch := by
  rw [State.holds, hpc]
  rfl

omit [DecidableEq H] in
theorem State.holds_of_seeks (hpc : (s.pc h).seeks = true) : s.holds h = none := by
  rw [State.holds, hpc]
  rfl

/-- The other places do not see what happens to a handle. -/
theorem State.batches_go {k : Place partitions H} (hk : k ≠ .handle h) :
    (s.go h hd p).batches k = s.batches k := by
  cases k with
  | empty q => rfl
  | full q => rfl
  | handle h' =>
    have hh : h' ≠ h := fun heq => hk (congrArg _ heq)
    rw [State.batches, State.batches, State.holds_go, Function.update_of_ne hh]

/-- Only the lists of `q` change with it. -/
theorem State.batches_setQueue (k : Place partitions H) : (s.setQueue q bq).batches k =
    if k = .empty q then (bq.empty : Multiset _) else
    if k = .full q then (bq.full : Multiset _) else s.batches k := by
  cases k with
  | empty q' =>
    by_cases hq : q' = q
    · simp [State.batches, State.setQueue, hq]
    · simp [State.batches, State.setQueue, hq]
  | full q' =>
    by_cases hq : q' = q
    · simp [State.batches, State.setQueue, hq]
    · simp [State.batches, State.setQueue, hq]
  | handle h' =>
    rw [if_neg (by simp), if_neg (by simp)]
    rfl

namespace Conserved

/-- A batch that a handle has is in no list. -/
theorem not_listed (hs : Conserved s) (hb : s.holds h = some b) (q : Fin partitions) :
    b ∉ (s.queues q).full ∧ b ∉ (s.queues q).empty := by
  obtain ⟨k, _, hother⟩ := hs.placed b
  have hhandle : b ∈ s.batches (.handle h) := by simp [State.batches, hb]
  have hk : k = .handle h := by
    by_contra hne
    exact hother _ (Ne.symm hne) hhandle
  subst hk
  constructor
  · exact fun hmem => hother (.full q) (by simp) (by simpa [State.batches] using hmem)
  · exact fun hmem => hother (.empty q) (by simp) (by simpa [State.batches] using hmem)

/-- What a handle has and its call goes on with is kept. -/
theorem quiet (hs : Conserved s) (hhas : hasAt hd p = s.holds h)
    (hqueue : ∀ b, s.holds h = some b → hd.queue = (s.handle h).queue) :
    Conserved (s.go h hd p) := by
  have hholds : (s.go h hd p).holds = s.holds := by
    rw [State.holds_go, hhas, Function.update_eq_self]
  have hbatches : (s.go h hd p).batches = s.batches := by
    funext k
    cases k with
    | empty q => rfl
    | full q => rfl
    | handle h' => rw [State.batches, State.batches, hholds]
  constructor
  case placed =>
    rw [hbatches]
    exact hs.placed
  case home_handle =>
    intro h' b hb
    rw [hholds] at hb
    rw [State.go_handle]
    by_cases hh : h' = h
    · subst hh
      rw [Function.update_self, hqueue b hb]
      exact hs.home_handle h' b hb
    · rw [Function.update_of_ne hh]
      exact hs.home_handle h' b hb
  case queues => exact hs.queues
  case balance => exact hs.balance

/-- A handle that had no batch has got one from a list of the queue `q`. -/
theorem got (hs : Conserved s) (hnone : s.holds h = none) (hhas : hasAt hd p = some b)
    (hqueue : hd.queue = some q) (hok : QueueOk s.container q bq) (hhome : b.home = q)
    {k : Place partitions H} (hk : k ≠ .handle h) (hmem : b ∈ s.batches k)
    (hmove : ∀ k', k' ≠ .handle h → ((s.setQueue q bq).go h hd p).batches k' =
      if k' = k then (s.batches k).erase b else s.batches k') :
    Conserved ((s.setQueue q bq).go h hd p) := by
  have hholds : ((s.setQueue q bq).go h hd p).holds = Function.update s.holds h (some b) := by
    rw [State.holds_go, hhas]
    rfl
  constructor
  case placed =>
    intro x
    refine (hs.placed x).transfer (a := k) (b := .handle h) (m := {b}) ⟨?_, ?_, ?_⟩ hk
    · rw [hmove k hk, if_pos rfl, Multiset.singleton_add, Multiset.cons_erase hmem]
    · simp [State.batches, hholds, hnone]
    · intro k' hk' hh'
      rw [hmove k' hh', if_neg hk']
  case queues =>
    refine (Function.forall_update_iff _ fun q' bq' => QueueOk s.container q' bq').mpr ⟨hok, ?_⟩
    exact fun q' _ => hs.queues q'
  case home_handle =>
    intro h' x hx
    rw [hholds] at hx
    rw [State.go_handle]
    by_cases hh : h' = h
    · subst hh
      rw [Function.update_self] at hx ⊢
      obtain rfl := Option.some.inj hx
      rw [hqueue, hhome]
    · rw [Function.update_of_ne hh] at hx ⊢
      exact hs.home_handle h' x hx
  case balance => exact hs.balance

/-- A handle has put its batch into a list of the queue `q`. -/
theorem put (hs : Conserved s) (hhas : s.holds h = some b) (hnone : hasAt hd p = none)
    (hok : QueueOk s.container q bq) {k : Place partitions H} (hk : k ≠ .handle h)
    (hmove : ∀ k', k' ≠ .handle h → ((s.setQueue q bq).go h hd p).batches k' =
      if k' = k then b ::ₘ s.batches k else s.batches k') :
    Conserved ((s.setQueue q bq).go h hd p) := by
  have hholds : ((s.setQueue q bq).go h hd p).holds = Function.update s.holds h none := by
    rw [State.holds_go, hnone]
    rfl
  constructor
  case placed =>
    intro x
    refine (hs.placed x).transfer (a := .handle h) (b := k) (m := {b}) ⟨?_, ?_, ?_⟩ (Ne.symm hk)
    · simp [State.batches, hholds, hhas]
    · rw [hmove k hk, if_pos rfl, Multiset.singleton_add]
    · intro k' hh' hk'
      rw [hmove k' hh', if_neg hk']
  case queues =>
    refine (Function.forall_update_iff _ fun q' bq' => QueueOk s.container q' bq').mpr ⟨hok, ?_⟩
    exact fun q' _ => hs.queues q'
  case home_handle =>
    intro h' x hx
    rw [hholds] at hx
    rw [State.go_handle]
    by_cases hh : h' = h
    · subst hh
      simp at hx
    · rw [Function.update_of_ne hh] at hx ⊢
      exact hs.home_handle h' x hx
  case balance => exact hs.balance

theorem gotEmpty (hs : Conserved s) (hnone : s.holds h = none)
    (hpop : (s.queues q).tryPopEmpty = some (b, bq)) (hp : p.seeks = false) :
    Conserved ((s.setQueue q bq).go h ⟨some b, some q⟩ p) := by
  obtain ⟨hempty, hfull, _⟩ := BatchQueue.tryPopEmpty_eq_some hpop
  obtain ⟨hok, hhome⟩ := (hs.queues q).tryPopEmpty hpop
  refine hs.got hnone (by simp [hasAt, hp]) rfl hok hhome (k := .empty q) (by simp) ?_ ?_
  · simp [State.batches, hempty]
  · intro k' hk'
    rw [State.batches_go hk', State.batches_setQueue, hfull]
    split_ifs with h₁ h₂
    · simp [State.batches, hempty]
    · rw [h₂, State.batches]
    · rfl

theorem gotFull (hs : Conserved s) (hnone : s.holds h = none)
    (hpop : (s.queues q).tryPopFull (fun b => (s.container b).size) = some (b, bq))
    (hp : p.seeks = false) : Conserved ((s.setQueue q bq).go h ⟨some b, some q⟩ p) := by
  obtain ⟨hfull, hempty, _⟩ := BatchQueue.tryPopFull_eq_some hpop
  obtain ⟨hok, hhome⟩ := (hs.queues q).tryPopFull hpop
  refine hs.got hnone (by simp [hasAt, hp]) rfl hok hhome (k := .full q) (by simp) ?_ ?_
  · simp [State.batches, hfull]
  · intro k' hk'
    rw [State.batches_go hk', State.batches_setQueue, hempty]
    split_ifs with h₁ h₂ h₃
    · simp [h₁] at h₂
    · rw [h₁, State.batches]
    · simp [State.batches, hfull]
    · rfl

theorem putEmpty (hs : Conserved s) (hhas : s.holds h = some b)
    (hqueue : (s.handle h).queue = some q) (hitems : (s.container b).items = [])
    (hnone : hasAt hd p = none) :
    Conserved ((s.setQueue q ((s.queues q).pushEmpty b)).go h hd p) := by
  obtain rfl := Option.some.inj ((hs.home_handle h b hhas).symm.trans hqueue)
  refine hs.put hhas hnone ((hs.queues _).pushEmpty rfl hitems) (k := .empty b.home) (by simp) ?_
  intro k' hk'
  rw [State.batches_go hk', State.batches_setQueue]
  split_ifs with h₁ h₂
  · simp [State.batches, BatchQueue.pushEmpty]
  · rw [h₂, State.batches, BatchQueue.pushEmpty]
  · rfl

theorem putFull (hs : Conserved s) (hhas : s.holds h = some b)
    (hqueue : (s.handle h).queue = some q) (hitems : (s.container b).items ≠ [])
    (hnone : hasAt hd p = none) :
    Conserved ((s.setQueue q ((s.queues q).pushFull b (s.container b).size)).go h hd p) := by
  obtain rfl := Option.some.inj ((hs.home_handle h b hhas).symm.trans hqueue)
  refine hs.put hhas hnone ((hs.queues _).pushFull rfl hitems) (k := .full b.home) (by simp) ?_
  intro k' hk'
  rw [State.batches_go hk', State.batches_setQueue]
  split_ifs with h₁ h₂ h₃
  · simp [h₁] at h₂
  · rw [h₁, State.batches, BatchQueue.pushFull]
  · simp [State.batches, BatchQueue.pushFull]
  · rfl

omit [DecidableEq H] in
theorem stored_setContainer (s : State partitions size capacity E H) (b : Batch partitions size)
    (c : Stack E capacity) :
    (s.setContainer b c).stored + ((s.container b).items : Multiset E) = s.stored + c.items := by
  have hsplit := Finset.sum_update_of_mem (Finset.mem_univ b)
    (fun x => ((s.container x).items : Multiset E)) (c.items : Multiset E)
  have hwhole := Finset.sum_eq_sum_sdiff_singleton_add (Finset.mem_univ b)
    (fun x => ((s.container x).items : Multiset E))
  have hupdate : (fun x => ((Function.update s.container b c x).items : Multiset E)) =
      Function.update (fun x => ((s.container x).items : Multiset E)) b (c.items : Multiset E) := by
    funext x
    by_cases hx : x = b
    · subst hx
      simp
    · simp [hx]
  rw [State.stored, State.stored, State.setContainer, hupdate, hsplit, hwhole]
  abel

/-- The container of the batch in a handle has changed, and what has been pushed and popped. -/
theorem rewritten (hs : Conserved s) (hb : s.holds h = some b) (c : Stack E capacity)
    {pushed popped : Multiset E}
    (hbalance : popped + (s.setContainer b c).stored = pushed) :
    Conserved { s.setContainer b c with pushed := pushed, popped := popped } := by
  constructor
  case placed => exact hs.placed
  case queues =>
    intro q
    obtain ⟨hfull, hempty⟩ := hs.not_listed hb q
    exact (hs.queues q).setContainer hfull hempty c
  case home_handle => exact hs.home_handle
  case balance => exact hbalance

theorem pushedTo (hs : Conserved s) (hb : s.holds h = some b) {c : Stack E capacity} {e : E}
    (hpush : (s.container b).tryPush e = some c) :
    Conserved { s.setContainer b c with pushed := e ::ₘ s.pushed } := by
  refine hs.rewritten hb c ?_
  have hstored := stored_setContainer s b c
  rw [Stack.items_of_tryPush hpush, ← Multiset.cons_coe, ← Multiset.singleton_add] at hstored
  have hcancel : (s.setContainer b c).stored = {e} + s.stored := by
    refine add_right_cancel (b := ((s.container b).items : Multiset E)) ?_
    rw [hstored]
    abel
  change s.popped + _ = e ::ₘ s.pushed
  rw [hcancel, ← hs.balance, ← Multiset.singleton_add]
  abel

theorem poppedFrom (hs : Conserved s) (hb : s.holds h = some b) {c : Stack E capacity} {e : E}
    (hpop : (s.container b).tryPop = some (e, c)) :
    Conserved { s.setContainer b c with popped := e ::ₘ s.popped } := by
  refine hs.rewritten hb c ?_
  have hstored := stored_setContainer s b c
  rw [Stack.items_of_tryPop hpop, ← Multiset.cons_coe, ← Multiset.singleton_add] at hstored
  have hcancel : {e} + (s.setContainer b c).stored = s.stored := by
    refine add_right_cancel (b := (c.items : Multiset E)) ?_
    rw [← hstored]
    abel
  change e ::ₘ s.popped + _ = s.pushed
  rw [← hs.balance, ← hcancel, ← Multiset.singleton_add]
  abel

end Conserved

/-- Whatever comes next through a handle keeps it. -/
theorem Step.keeps_conserved (hcapacity : 0 < capacity) (hs : Conserved s) (hstep : Step h s s') :
    Conserved s' := by
  -- outside the searches a handle has the batch it names
  have hhas : (s.pc h).seeks = false → s.holds h = (s.handle h).batch := State.holds_of_pc
  have hsame : ∀ {p : Pc partitions E}, (s.pc h).seeks = false → p.seeks = false →
      Conserved (s.go h (s.handle h) p) := by
    intro p hpc hp
    refine hs.quiet ?_ fun _ _ => rfl
    rw [hasAt, hp, hhas hpc]
    rfl
  -- in a search it has none
  have hseek : ∀ {hd : BatchHandle partitions size} {p : Pc partitions E},
      (s.pc h).seeks = true → hasAt hd p = none → Conserved (s.go h hd p) := by
    intro hd p hpc hp
    refine hs.quiet (hp.trans (State.holds_of_seeks hpc).symm) fun b hb => ?_
    cases (State.holds_of_seeks hpc).symm.trans hb
  cases hstep with
  | startPush e hpc =>
    split
    · rename_i hnone
      exact hs.quiet ((hhas (by rw [hpc]; rfl)).trans hnone).symm fun _ _ => rfl
    · exact hsame (by rw [hpc]; rfl) rfl
  | filled hpc hb hpush =>
    have hb' := (hhas (by rw [hpc]; rfl)).trans hb
    exact (hs.pushedTo hb' hpush).quiet (hb.trans hb'.symm) fun _ _ => rfl
  | putFull hpc hb hq hpush =>
    exact hs.putFull ((hhas (by rw [hpc]; rfl)).trans hb) hq
      (Stack.nonempty_of_tryPush hcapacity hpush) rfl
  | gotEmpty hpc _ hpop =>
    exact hs.gotEmpty (State.holds_of_seeks (by rw [hpc]; rfl)) hpop (by split <;> rfl)
  | @missEmpty e src p hpc _ _ => exact hseek (by rw [hpc]; rfl) (by cases src <;> rfl)
  | noEmpty hpc => exact hseek (by rw [hpc]; rfl) rfl
  | stored hpc hb hpush =>
    have hb' := (hhas (by rw [hpc]; rfl)).trans hb
    exact (hs.pushedTo hb' hpush).quiet (hb.trans hb'.symm) fun _ _ => rfl
  | notStored hpc hb _ => exact hsame (by rw [hpc]; rfl) rfl
  | startPop hpc =>
    split
    · rename_i hnone
      exact hs.quiet ((hhas (by rw [hpc]; rfl)).trans hnone).symm fun _ _ => rfl
    · exact hsame (by rw [hpc]; rfl) rfl
  | taken hpc hb hpop =>
    have hb' := (hhas (by rw [hpc]; rfl)).trans hb
    exact (hs.poppedFrom hb' hpop).quiet (hb.trans hb'.symm) fun _ _ => rfl
  | putEmpty hpc hb hq hpop =>
    exact hs.putEmpty ((hhas (by rw [hpc]; rfl)).trans hb) hq (Stack.empty_of_tryPop hpop) rfl
  | @noElements src p hpc _ _ => exact hseek (by rw [hpc]; rfl) (by cases src <;> rfl)
  | someElements hpc _ _ => exact hseek (by rw [hpc]; rfl) rfl
  | @missFull src p hpc => exact hseek (by rw [hpc]; rfl) (by cases src <;> rfl)
  | gotFull hpc hpop =>
    exact hs.gotFull (State.holds_of_seeks (by rw [hpc]; rfl)) hpop (by split <;> rfl)
  | noFull hpc => exact hseek (by rw [hpc]; rfl) rfl
  | lastTaken hpc hb hpop =>
    have hb' := (hhas (by rw [hpc]; rfl)).trans hb
    exact (hs.poppedFrom hb' hpop).quiet (hb.trans hb'.symm) fun _ _ => rfl
  | notTaken hpc hb _ => exact hsame (by rw [hpc]; rfl) rfl
  | destroyEmpty hpc hb hq hc =>
    exact hs.putEmpty ((hhas (by rw [hpc]; rfl)).trans hb) hq (Stack.empty_iff.mp hc) rfl
  | destroyFull hpc hb hq hc =>
    refine hs.putFull ((hhas (by rw [hpc]; rfl)).trans hb) hq (fun hitems => ?_) rfl
    rw [Stack.empty_iff.mpr hitems] at hc
    cases hc

omit [DecidableEq H] in
theorem Init.starts_conserved (hs : Init s) : Conserved s := by
  have hholds : ∀ h, s.holds h = none := by
    intro h
    rw [State.holds, hs.pcs, hs.handles]
    rfl
  constructor
  case placed =>
    intro b
    refine ⟨.empty b.home, ?_, ?_⟩
    · rw [State.batches, hs.queues]
      refine Multiset.count_eq_one_of_mem (Multiset.coe_nodup.mpr ?_) ?_
      · refine List.Nodup.map (fun i j hij => (Prod.mk.inj hij).2) ?_
        exact List.nodup_reverse.mpr (List.nodup_finRange size)
      · simp
    · intro k hk
      cases k with
      | empty q =>
        rw [State.batches, hs.queues]
        simp only [Multiset.mem_coe, List.mem_map, List.mem_reverse]
        rintro ⟨i, _, rfl⟩
        exact hk rfl
      | full q => simp [State.batches, hs.queues]
      | handle h => simp [State.batches, hholds]
  case queues =>
    intro q
    rw [hs.queues]
    constructor <;> simp [hs.containers]
  case home_handle =>
    intro h b hb
    cases (hholds h).symm.trans hb
  case balance =>
    rw [hs.nothing.1, hs.nothing.2, State.stored]
    simp [hs.containers]

end Lemmas

theorem run_conserved {s : State partitions size capacity E H} (hcapacity : 0 < capacity)
    (hs : partitionedQueue.Reachable s) : Conserved s :=
  hs.invariant (fun _ => Init.starts_conserved) fun _ _ _ ih ⟨_, hstep⟩ =>
    hstep.keeps_conserved hcapacity ih

/-- In every interleaving of pushes, pops and destructions every batch is in one place and every
element is where it was pushed to until it is popped. -/
theorem conserved {s : State partitions size capacity E H} (hcapacity : 0 < capacity)
    (hs : partitionedQueue.Reachable s) : Conserved s :=
  run_conserved hcapacity hs

/-! ## Calls -/

/-- The element that the call is pushing. -/
def Pc.pushes : Pc partitions E → Option E
  | .fill e | .seekEmpty e _ | .store e => some e
  | _ => none

/-- The call is a `try_pop`. -/
def Pc.pops : Pc partitions E → Bool
  | .take | .seekFull _ | .lockFull _ _ | .last => true
  | _ => false

section Calls

variable {s s' : State partitions size capacity E H} {h h' : H}

theorem Step.pc_of_ne (hstep : Step h' s s') (hne : h ≠ h') : s'.pc h = s.pc h := by
  cases hstep <;> exact Function.update_of_ne hne _ _

theorem Step.handle_of_ne (hstep : Step h' s s') (hne : h ≠ h') : s'.handle h = s.handle h := by
  cases hstep <;> exact Function.update_of_ne hne _ _

/-- Nothing is pushed or popped but at the end of a call. -/
theorem Step.running (hstep : Step h s s') (hpc : s'.pc h ≠ .idle) :
    s'.pushed = s.pushed ∧ s'.popped = s.popped := by
  cases hstep with
  | filled | stored | taken | lastTaken => exact absurd (Function.update_self ..) hpc
  | _ => exact ⟨rfl, rfl⟩

omit [DecidableEq H] in
theorem cons_ne_self (e : E) (m : Multiset E) : e ::ₘ m ≠ m := by
  intro heq
  simpa using congrArg Multiset.card heq

/-- A push pops nothing, and ends without a success only for want of an empty batch or in a batch
that is full. -/
theorem Step.of_pushes {e : E} (hstep : Step h s s') (hpc : (s.pc h).pushes = some e) :
    s'.popped = s.popped ∧ (s'.pushed = s.pushed → s'.pc h = .idle →
      (s.pc h).seeks = true ∨
      ∃ b, s.pc h = .store e ∧ (s.handle h).batch = some b ∧ (s.container b).tryPush e = none) := by
  cases hstep with
  | startPush _ hp | startPop hp | taken hp | putEmpty hp | noElements hp | someElements hp
  | missFull hp | gotFull hp | noFull hp | lastTaken hp | notTaken hp | destroyEmpty hp
  | destroyFull hp =>
    rw [hp] at hpc
    cases hpc
  | filled | stored => exact ⟨rfl, fun hsame => absurd hsame (cons_ne_self _ _)⟩
  | putFull => exact ⟨rfl, fun _ hidle => absurd hidle (by simp [State.go])⟩
  | gotEmpty hp | missEmpty hp | noEmpty hp => exact ⟨rfl, fun _ _ => .inl (by rw [hp]; rfl)⟩
  | notStored hp hb hpush =>
    rw [hp] at hpc
    obtain rfl := Option.some.inj hpc
    exact ⟨rfl, fun _ _ => .inr ⟨_, hp, hb, hpush⟩⟩

theorem Step.of_pops (hstep : Step h s s') (hpc : (s.pc h).pops = true) :
    s'.pushed = s.pushed := by
  cases hstep with
  | filled hp | stored hp =>
    rw [hp] at hpc
    cases hpc
  | _ => rfl

/-- Between two calls only the destructor changes anything. -/
theorem Step.of_idle (hstep : Step h s s') (hpc : s.pc h = .idle) :
    s'.pushed = s.pushed ∧ s'.popped = s.popped := by
  cases hstep with
  | filled hp | stored hp | taken hp | lastTaken hp => cases hp.symm.trans hpc
  | _ => exact ⟨rfl, rfl⟩

omit [DecidableEq H] in
theorem Conserved.holds_once (hs : Conserved s) {b : Batch partitions size}
    (hb : s.holds h = some b) (hb' : s.holds h' = some b) : h = h' := by
  obtain ⟨k, _, hother⟩ := hs.placed b
  have hk : ∀ h, s.holds h = some b → k = .handle h := by
    intro h hb
    by_contra hne
    exact hother _ (Ne.symm hne) (by simp [State.batches, hb])
  exact Place.handle.inj ((hk h hb).symm.trans (hk h' hb'))

/-- The batch that `try_push` has just been given is empty. -/
def FreshBatch (s : State partitions size capacity E H) : Prop :=
  ∀ h e b, s.pc h = .store e → (s.handle h).batch = some b → (s.container b).items = []

theorem Step.freshBatch (hs : Conserved s) (hf : FreshBatch s) (hstep : Step h' s s') :
    FreshBatch s' := by
  intro h e b hp hb
  by_cases hh : h = h'
  · subst hh
    cases hstep with
    | gotEmpty hp' _ hpop =>
      obtain rfl : _ = b := by simpa [State.go] using hb
      have hmem := (BatchQueue.tryPopEmpty_eq_some hpop).1
      exact (hs.queues _).empty_empty _ (hmem ▸ List.mem_cons_self)
    | startPush | startPop | gotFull =>
      simp only [State.go, Function.update_self] at hp
      split at hp <;> cases hp
    | @missEmpty _ src | @missFull src | @noElements src =>
      cases src <;> simp [State.goOn, State.go, PartitionedQueue.missEmpty,
        PartitionedQueue.missFull] at hp
    | _ => simp [State.go] at hp
  · -- the batch of this handle is not the one that the other writes to
    have hp₀ : s.pc h = .store e := (hstep.pc_of_ne hh).symm.trans hp
    have hb₀ : (s.handle h).batch = some b := (congrArg _ (hstep.handle_of_ne hh)).symm.trans hb
    have hother : ∀ {x : Batch partitions size} (c : Stack E capacity), s.holds h' = some x →
        (Function.update s.container x c b).items = [] := by
      intro x c hx
      have hne : b ≠ x := by
        rintro rfl
        exact hh (hs.holds_once ((State.holds_of_pc (by rw [hp₀]; rfl)).trans hb₀) hx)
      rw [Function.update_of_ne hne]
      exact hf h e b hp₀ hb₀
    cases hstep with
    | filled hpc hx _ | stored hpc hx _ | taken hpc hx _ | lastTaken hpc hx _ =>
      exact hother _ ((State.holds_of_pc (by rw [hpc]; rfl)).trans hx)
    | _ => exact hf h e b hp₀ hb₀

/-- A call that has found an empty batch pushes its element. -/
theorem freshBatch_of_reachable {s : State partitions size capacity E H} (hcapacity : 0 < capacity)
    (hs : partitionedQueue.Reachable s) : FreshBatch s := by
  refine hs.invariant ?_ fun s s' hs ih ⟨_, hstep⟩ =>
    hstep.freshBatch (run_conserved hcapacity hs) ih
  intro s hinit h e b hp
  rw [hinit.pcs] at hp
  cases hp

end Calls

/-! ## Computed steps -/

/-- What is chosen: the call, the queue that is asked, and whether `try_lock` fails. -/
inductive Act (partitions : Nat) (E : Type) where
  | push (e : E)
  | pop
  | destroy
  | ask (p : Fin partitions)
  | lock (fails : Bool)
  | go

instance (p : Fin partitions) : (src : Search) → Decidable (src.Tries p)
  | .first | .random => isTrue trivial
  | .scan i => inferInstanceAs (Decidable (p.val = i))

/-- `try_push`. -/
def actPush (h : H) (s : State partitions size capacity E H) (a : Act partitions E) :
    Option (State partitions size capacity E H) :=
  match s.pc h, a with
  | .idle, .push e =>
    some (s.go h (s.handle h)
      (if (s.handle h).batch = none then .seekEmpty e .first else .fill e))
  | .fill e, .go =>
    match (s.handle h).batch, (s.handle h).queue with
    | some b, some q =>
      match (s.container b).tryPush e with
      | some c => some ({ s.setContainer b c with pushed := e ::ₘ s.pushed }.go h (s.handle h)
          .idle)
      | none => some ((s.setQueue q ((s.queues q).pushFull b (s.container b).size)).go h
          (s.handle h) (.seekEmpty e .random))
    | _, _ => none
  | .seekEmpty e src, .ask p =>
    if src.Tries p then
      match (s.queues p).tryPopEmpty with
      | some (b, bq) => some ((s.setQueue p bq).go h ⟨some b, some p⟩
          (if src = .first then .fill e else .store e))
      | none => some (s.goOn h (missEmpty e p (s.handle h) src))
    else none
  | .store e, .go =>
    match (s.handle h).batch with
    | some b =>
      match (s.container b).tryPush e with
      | some c => some ({ s.setContainer b c with pushed := e ::ₘ s.pushed }.go h (s.handle h)
          .idle)
      | none => some (s.go h (s.handle h) .idle)
    | none => none
  | _, _ => none

/-- `try_pop`. -/
def actPop (h : H) (s : State partitions size capacity E H) (a : Act partitions E) :
    Option (State partitions size capacity E H) :=
  match s.pc h, a with
  | .idle, .pop =>
    some (s.go h (s.handle h) (if (s.handle h).batch = none then .seekFull .first else .take))
  | .take, .go =>
    match (s.handle h).batch, (s.handle h).queue with
    | some b, some q =>
      match (s.container b).tryPop with
      | some (e, c) => some ({ s.setContainer b c with popped := e ::ₘ s.popped }.go h
          (s.handle h) .idle)
      | none => some ((s.setQueue q ((s.queues q).pushEmpty b)).go h (s.handle h)
          (.seekFull .random))
    | _, _ => none
  | .seekFull src, .ask p =>
    if src.Tries p then
      if (s.queues p).elements = 0 then some (s.goOn h (missFull (s.handle h) src))
      else some (s.go h (s.handle h) (.lockFull src p))
    else none
  | .lockFull src p, .lock fails =>
    if fails then some (s.goOn h (missFull (s.handle h) src))
    else
      match (s.queues p).tryPopFull fun b => (s.container b).size with
      | some (b, bq) => some ((s.setQueue p bq).go h ⟨some b, some p⟩
          (if src = .first then .take else .last))
      | none => some (s.goOn h (missFull (s.handle h) src))
  | .last, .go =>
    match (s.handle h).batch with
    | some b =>
      match (s.container b).tryPop with
      | some (e, c) => some ({ s.setContainer b c with popped := e ::ₘ s.popped }.go h
          (s.handle h) .idle)
      | none => some (s.go h (s.handle h) .idle)
    | none => none
  | _, _ => none

/-- `~BatchHandle`. -/
def actDestroy (h : H) (s : State partitions size capacity E H) (a : Act partitions E) :
    Option (State partitions size capacity E H) :=
  match s.pc h, a with
  | .idle, .destroy =>
    match (s.handle h).batch, (s.handle h).queue with
    | some b, some q =>
      if (s.container b).empty then
        some ((s.setQueue q ((s.queues q).pushEmpty b)).go h ⟨none, none⟩ .idle)
      else
        some ((s.setQueue q ((s.queues q).pushFull b (s.container b).size)).go h ⟨none, none⟩
          .idle)
    | _, _ => none
  | _, _ => none

def act (h : H) (s : State partitions size capacity E H) (a : Act partitions E) :
    Option (State partitions size capacity E H) :=
  (actPush h s a).or ((actPop h s a).or (actDestroy h s a))

section Acts

variable {s s' : State partitions size capacity E H} {h : H} {a : Act partitions E}

theorem actPush_sound (heq : actPush h s a = some s') : Step h s s' := by
  unfold actPush at heq
  split at heq
  case h_1 e hp =>
    obtain rfl := Option.some.inj heq
    exact .startPush e hp
  case h_2 e hp =>
    split at heq
    case h_1 b q hb hq =>
      split at heq
      case h_1 c hc =>
        obtain rfl := Option.some.inj heq
        exact .filled hp hb hc
      case h_2 hc =>
        obtain rfl := Option.some.inj heq
        exact .putFull hp hb hq hc
    case h_2 => cases heq
  case h_3 e src p hp =>
    split at heq
    case isTrue htries =>
      split at heq
      case h_1 b bq hq =>
        obtain rfl := Option.some.inj heq
        exact .gotEmpty hp htries hq
      case h_2 hq =>
        obtain rfl := Option.some.inj heq
        exact .missEmpty hp htries hq
    case isFalse => cases heq
  case h_4 e hp =>
    split at heq
    case h_1 b hb =>
      split at heq
      case h_1 c hc =>
        obtain rfl := Option.some.inj heq
        exact .stored hp hb hc
      case h_2 hc =>
        obtain rfl := Option.some.inj heq
        exact .notStored hp hb hc
    case h_2 => cases heq
  case h_5 => cases heq

theorem actPop_sound (heq : actPop h s a = some s') : Step h s s' := by
  unfold actPop at heq
  split at heq
  case h_1 hp =>
    obtain rfl := Option.some.inj heq
    exact .startPop hp
  case h_2 hp =>
    split at heq
    case h_1 b q hb hq =>
      split at heq
      case h_1 e c hc =>
        obtain rfl := Option.some.inj heq
        exact .taken hp hb hc
      case h_2 hc =>
        obtain rfl := Option.some.inj heq
        exact .putEmpty hp hb hq hc
    case h_2 => cases heq
  case h_3 src p hp =>
    split at heq
    case isTrue htries =>
      split at heq
      case isTrue hzero =>
        obtain rfl := Option.some.inj heq
        exact .noElements hp htries hzero
      case isFalse hzero =>
        obtain rfl := Option.some.inj heq
        exact .someElements hp htries hzero
    case isFalse => cases heq
  case h_4 src p fails hp =>
    split at heq
    case isTrue =>
      obtain rfl := Option.some.inj heq
      exact .missFull hp
    case isFalse =>
      split at heq
      case h_1 b bq hq =>
        obtain rfl := Option.some.inj heq
        exact .gotFull hp hq
      case h_2 hq =>
        obtain rfl := Option.some.inj heq
        exact .missFull hp
  case h_5 hp =>
    split at heq
    case h_1 b hb =>
      split at heq
      case h_1 e c hc =>
        obtain rfl := Option.some.inj heq
        exact .lastTaken hp hb hc
      case h_2 hc =>
        obtain rfl := Option.some.inj heq
        exact .notTaken hp hb hc
    case h_2 => cases heq
  case h_6 => cases heq

theorem actDestroy_sound (heq : actDestroy h s a = some s') : Step h s s' := by
  unfold actDestroy at heq
  split at heq
  case h_1 hp =>
    split at heq
    case h_1 b q hb hq =>
      split at heq
      case isTrue hempty =>
        obtain rfl := Option.some.inj heq
        exact .destroyEmpty hp hb hq hempty
      case isFalse hempty =>
        obtain rfl := Option.some.inj heq
        exact .destroyFull hp hb hq (by simpa using hempty)
    case h_2 => cases heq
  case h_2 => cases heq

theorem act_sound (heq : act h s a = some s') : Step h s s' := by
  unfold act at heq
  rcases Option.or_eq_some_iff.mp heq with heq | ⟨-, heq⟩
  · exact actPush_sound heq
  · rcases Option.or_eq_some_iff.mp heq with heq | ⟨-, heq⟩
    · exact actPop_sound heq
    · exact actDestroy_sound heq

end Acts

theorem empty_fits : 0 ≤ 1 := Nat.zero_le 1

local instance instNeZeroOne : NeZero 1 := ⟨Nat.one_ne_zero⟩

/-- Two queues with one batch each. -/
def twoQueues : State 2 1 1 Nat Bool where
  queues q := ⟨0, [], [(q, 0)]⟩
  container _ := ⟨[], empty_fits⟩
  handle _ := ⟨none, none⟩
  pc _ := .idle
  pushed := 0
  popped := 0

/-- The batch fills up with the element 7; then it goes back, and the other queue's batch takes the
element 8. -/
theorem conserved_second_batch : ∃ s : State 2 1 1 Nat Bool, s.pushed = {8, 7} ∧
    s.holds true = some (1, 0) ∧ (s.queues 0).full = [(0, 0)] ∧ Conserved s := by
  have h0 : partitionedQueue.Reachable twoQueues := by
    refine .init ⟨?_, fun _ => rfl, fun _ => rfl, fun _ => rfl, rfl, rfl⟩
    intro q
    rfl
  have h1 := h0.step ⟨true, .startPush 7 rfl⟩
  have h2 := h1.step ⟨true, .gotEmpty (p := 0) rfl trivial rfl⟩
  have h3 := h2.step ⟨true, .filled rfl rfl rfl⟩
  have h4 := h3.step ⟨true, .startPush 8 rfl⟩
  have h5 := h4.step ⟨true, .putFull rfl rfl rfl rfl⟩
  have h6 := h5.step ⟨true, .missEmpty (p := 0) rfl trivial rfl⟩
  have h7 := h6.step ⟨true, .missEmpty (p := 0) rfl rfl rfl⟩
  have h8 := h7.step ⟨true, .gotEmpty (p := 1) rfl rfl rfl⟩
  have h9 := h8.step ⟨true, .stored rfl rfl rfl⟩
  exact ⟨_, rfl, rfl, rfl, conserved Nat.one_pos h9⟩

end ScaleStore.PartitionedQueue
