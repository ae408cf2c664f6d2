/-
# The shared tree is a map

Any number of workers run any calls on one tree, and the buffer manager moves pages
away and back while they do.  What comes of it is what a map would show on which every
call acts at one moment, and in between the tree is never out of shape: no instruction
meets a page that is not latched as it should be, or that is not the one it is meant for.
-/

import ScaleStore.BTree.Alone

namespace ScaleStore.BTree

variable {T K V : Type} [DecidableEq T] [LinearOrder K] [Inhabited K] {c : Capacity}

/-- Calls and returns are those of a map whose calls act at once. -/
theorem calls_linearizable
    {ls : List (Event T (Call K V) (Reply K V))}
    {s : CallStates T (Pages T K V) (Call K V) (Instr K V) Instr.Answer (Reply K V)}
    (ht : (workers T c).system.Trace ls s) :
    ∃ a, ((mapObject (K := K) (V := V)).system T).Trace ls a :=
  (logic T c Set.univ).linearizable ok_attempt ht

/-- Two workers, one after the other. -/
theorem two_workers_linearizable : ∃ s,
    (workers Bool tinyNodes).system.Trace (exchange true [.insert 10 1, .insert 20 2, .remove 10]
      [.done, .done, .removed true] ++ exchange false [.lookup 20, .lookup_opt 10]
      [.value 2, .raised]) s ∧
    ∃ a, ((mapObject (K := Nat) (V := Nat)).system Bool).Trace (exchange true [.insert 10 1,
      .insert 20 2, .remove 10] [.done, .done, .removed true] ++ exchange false [.lookup 20,
      .lookup_opt 10] [.value 2, .raised]) a := by
  obtain ⟨m, hheap, hfree, ht⟩ := session_moves (t := true) (newTree_trace (c := tinyNodes))
    (fun _ => ⟨rfl, rfl⟩) rfl 5 [.insert 10 1, .insert 20 2, .remove 10] rfl
  obtain ⟨m', -, -, ht'⟩ := session_moves (t := false) ht hfree rfl 5 [.lookup 20, .lookup_opt 10]
    (by rw [hheap]; rfl)
  exact ⟨_, ht', calls_linearizable ht'⟩

/-! ## Between the calls -/

namespace Instr

/-- The pages whose contents change. -/
def written : Instr K V → List PID
  | .insert pid _ _ | .remove pid _ | .update pid _ _ => [pid]
  | .split parent cur => [parent, cur]
  | .merge parent cur right _ => [parent, cur, right]
  | _ => []

/-- The pages read under a latch. -/
def inspected : Instr K V → List PID
  | .read pid | .find pid _ => [pid]
  | _ => []

/-- The pages whose latches are waited for. -/
def awaited : Instr K V → List PID
  | .fixOptimistic pid | .fixExclusive pid | .fixShared pid => [pid]
  | _ => []

end Instr

/-- A worker is about to remove a key, and has not yet begun. -/
theorem removal_trace : ∃ ls, ∃ s : WorkerStates Bool Nat Nat,
    (workers Bool tinyNodes).system.Trace ls s ∧ s.Next true (.fixOptimistic entryPage) ∧
      s.memory.heap.page 3 = .inner ⟨none, none, [10, 20], [1, 2, 4]⟩ := by
  obtain ⟨m, hheap, -, ht⟩ := session_moves (t := true) (newTree_trace (c := tinyNodes))
    (fun _ => ⟨rfl, rfl⟩) rfl 9 [.insert 10 1, .insert 20 2, .insert 30 3, .insert 40 4] rfl
  have hcall : (workers Bool tinyNodes).Step ⟨m, newTree.call⟩ (some (.call true (.remove 10))) _ :=
    .call (t := true) (Call.remove 10) 2 rfl
  refine ⟨_, _, ht.step hcall, ⟨.remove 10, _, rfl⟩, ?_⟩
  show m.heap.page 3 = _
  rw [hheap]
  rfl

/-- The rules the workers keep about latches. -/
structure Disciplined (s : WorkerStates T K V) : Prop where
  excluded : ∀ pid t, t ∈ s.memory.sharers pid → s.memory.holder pid = none
  idle : ∀ t, s.call t = .idle → ∀ pid, s.memory.holder pid ≠ some t ∧ t ∉ s.memory.sharers pid
  written : ∀ t i, s.Next t i → ∀ pid ∈ i.written, s.memory.holder pid = some t
  inspected : ∀ t i, s.Next t i → ∀ pid ∈ i.inspected,
    s.memory.holder pid = some t ∨ t ∈ s.memory.sharers pid
  awaited : ∀ t i, s.Next t i → ∀ pid ∈ i.awaited,
    s.memory.holder pid ≠ some t ∧ ∀ q, t ∉ s.memory.sharers q

section Reached

variable {ls : List (Event T (Call K V) (Reply K V))} {s : WorkerStates T K V}

/-- Latches exclude each other, are held in calls only, and cover what is read and written; and
no worker waits for itself. -/
theorem latches_disciplined (ht : (workers T c).system.Trace ls s) : Disciplined s := by
  obtain ⟨g, hinv, hidle, hsafe⟩ := reached_invariant ht
  refine ⟨hinv.latches, fun t h pid => ?_, fun t i h pid hmem => ?_, fun t i h pid hmem => ?_,
    fun t i h pid hmem => ?_⟩
  · obtain ⟨hholder, hsharers, -⟩ := knows_nothing.mp (hidle t h)
    exact ⟨hholder pid, hsharers pid⟩
  · have hi := hsafe t i h
    cases i <;> simp only [Instr.written, List.not_mem_nil, List.mem_cons, or_false] at hmem
    case insert | remove | update => exact hmem ▸ hi.1
    case split => rcases hmem with rfl | rfl; exacts [hi.1, hi.2.1]
    case merge => rcases hmem with rfl | rfl | rfl; exacts [hi.1, hi.2.1, hi.2.2.1]
  · have hi := hsafe t i h
    cases i <;> simp only [Instr.inspected, List.not_mem_nil, List.mem_cons, or_false] at hmem
    case read => exact hmem ▸ hi
    case find => exact hmem ▸ .inr hi.1
  · have hi := hsafe t i h
    cases i <;> simp only [Instr.awaited, List.not_mem_nil, List.mem_cons, or_false] at hmem
    case fixOptimistic | fixShared => exact ⟨hi.1 pid, hi.2⟩
    case fixExclusive => exact hmem ▸ ⟨hi.1, hi.2.1⟩

theorem removal_disciplined : ∃ s : WorkerStates Bool Nat Nat,
    s.Next true (.fixOptimistic entryPage) ∧ Disciplined s := by
  obtain ⟨ls, s, ht, hnext, -⟩ := removal_trace
  exact ⟨s, hnext, latches_disciplined ht⟩

/-! ## The shape of the tree -/

/-- The search for `k` from the entry page ends at the page `pid`, which is the leaf `l`. -/
def FoundAt (h : Heap K V) (k : K) (pid : PID) (l : Leaf K V) : Prop :=
  ∃ root height, h.page entryPage = .entry root height ∧
    descendHeight h k height root = .ok pid ∧ h.page pid = .leaf l

omit [DecidableEq T] in
theorem Consistent.foundAt {m : Pages T K V} {g : Ghost T K V} (hinv : Consistent c m g) {pid : PID}
    {k : K} {l : Leaf K V} (h : EndsAt m g pid k l) : FoundAt m.heap k pid l := by
  obtain ⟨r, hr, hk, hl⟩ := h
  obtain ⟨root, height, inv⟩ := hinv.tree
  obtain ⟨pid', r', l', hrun, hr', hl', hk'⟩ := inv.leaf_of_key k
  obtain rfl := inv.unique pid' pid r' r k hr' hr
    ((inv.level_of_leaf hr' hl').trans (inv.level_of_leaf hr hl).symm) hk' hk
  exact ⟨root, height, inv.entry_page, hrun, hl⟩

/-- What an instruction needs of the tree it meets. -/
def Fits (c : Capacity) (h : Heap K V) : Instr K V → Prop
  | .find pid k | .remove pid k | .update pid k _ => ∃ l, FoundAt h k pid l
  | .insert pid k _ => ∃ l, FoundAt h k pid l ∧ l.count < c.leaf
  | .split parent cur => ∃ h', splitPage c entryPage h parent cur = .ok h'
  | .merge parent cur right pos => ∃ n l r, h.page parent = .inner n ∧ h.page cur = .leaf l ∧
      h.page right = .leaf r ∧ n.children[pos]? = some cur ∧ n.children[pos + 1]? = some right ∧
      2 ≤ n.count ∧ l.count + r.count < c.leaf
  | _ => True

/-- The tree is in shape whenever no node is being changed, and whoever changes one finds it as it
should be, at the place the key belongs to. -/
theorem tree_kept_in_shape (ht : (workers T c).system.Trace ls s) :
    StructuredTree c entryPage s.memory.heap ∧ ∀ t i, s.Next t i → Fits c s.memory.heap i := by
  obtain ⟨g, hinv, -, hsafe⟩ := reached_invariant ht
  refine ⟨?_, fun t i h => ?_⟩
  · obtain ⟨root, height, inv⟩ := hinv.tree
    exact inv.structuredTree
  · have hi := hsafe t i h
    cases i with
    | find | remove | update => exact hi.2.imp fun l hl => hinv.foundAt hl
    | insert => exact hi.2.imp fun l hl => ⟨hinv.foundAt hl.1, hl.2⟩
    | split => exact hi.2.2
    | merge => exact hi.2.2.2
    | _ => trivial

theorem removal_kept_in_shape : ∃ s : WorkerStates Bool Nat Nat,
    s.memory.heap.page 3 = .inner ⟨none, none, [10, 20], [1, 2, 4]⟩ ∧
      StructuredTree tinyNodes entryPage s.memory.heap ∧
      ∀ t i, s.Next t i → Fits tinyNodes s.memory.heap i := by
  obtain ⟨ls, s, ht, -, hpage⟩ := removal_trace
  exact ⟨s, hpage, tree_kept_in_shape ht⟩

end Reached

end ScaleStore.BTree
