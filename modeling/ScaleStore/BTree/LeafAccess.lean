/-
# Where the keys are

The point operations are those of an ordered map because of where they go: whoever reads
a result from a leaf, or changes one, does so at the leaf the search for its key ends at.
A call that latches its leaf is there from the last look at the page above until it gives
the latch back.  A `lookup_opt` has no latch: it has read its leaf some time before, and
it is the last look at the version that makes the read good.
-/

import ScaleStore.BTree.Clash

namespace ScaleStore.BTree

section Access

variable {K V : Type}

/-- The latched leaf that is read for a key, or changed. -/
def Instr.access : Instr K V → Option (PID × K)
  | .find pid k | .insert pid k _ | .remove pid k | .update pid k _ => some (pid, k)
  | _ => none

/-- The page that is divided, or takes in its sibling. -/
def Instr.reorganised : Instr K V → Option PID
  | .split _ cur | .merge _ cur _ _ => some cur
  | _ => none

variable [LinearOrder K] [Inhabited K]

/-- The page is the leaf that the search for `k` ends at, and `k` lies between its fences. -/
def AtLeaf (h : Heap K V) (k : K) (pid : PID) (l : Leaf K V) : Prop :=
  FoundAt h k pid l ∧ InRange l.lower l.upper k

end Access

variable {T K V : Type} [DecidableEq T] [LinearOrder K] [Inhabited K] {c : Capacity}

omit [DecidableEq T] in
theorem Consistent.atLeaf {m : Pages T K V} {g : Ghost T K V} (hinv : Consistent c m g) {pid : PID}
    {k : K} {l : Leaf K V} (h : EndsAt m g pid k l) : AtLeaf m.heap k pid l := by
  obtain ⟨r, hr, hk, hl⟩ := id h
  obtain ⟨root, height, inv⟩ := hinv.tree
  have hok := inv.leafOK hr hl
  refine ⟨hinv.foundAt h, ?_⟩
  rw [hok.lower_eq, hok.upper_eq]
  exact hk

omit [DecidableEq T] in
theorem Safe.access {m : Pages T K V} {g : Ghost T K V} {t : T} {i : Instr K V} {keys : Set K}
    {pid : PID} {k : K} (h : Safe c t i m g) (hkeys : Concerns keys i m g)
    (hi : i.access = some (pid, k)) : k ∈ keys ∧ ∃ l, EndsAt m g pid k l := by
  cases i with
  | find | remove | update =>
    cases hi
    exact ⟨hkeys, h.2⟩
  | insert =>
    cases hi
    exact ⟨hkeys, h.2.imp fun _ hl => hl.1⟩
  | _ => cases hi

omit [DecidableEq T] [Inhabited K] in
theorem Concerns.reorganised {m : Pages T K V} {g : Ghost T K V} {i : Instr K V} {keys : Set K}
    {pid : PID} {l : Leaf K V} (hkeys : Concerns keys i m g) (hi : i.reorganised = some pid)
    (hl : m.heap.page pid = .leaf l) : ∃ k ∈ keys, EndsAt m g pid k l := by
  cases i with
  | split | merge =>
    cases hi
    exact hkeys l hl
  | _ => cases hi

variable {ls : List (Event T (Call K V) (Reply K V))} {s : WorkerStates T K V}

/-- Point operations read and change leaves that the search for their key ends at, and are therefore
those of an ordered map on which every one of them acts at one moment. -/
theorem point_operations_atomic (ht : (workers T c).system.Trace ls s) :
    (∀ t op i next, s.call t = .running op (.instr i next) →
      (∀ pid k, i.access = some (pid, k) →
        op.key = some k ∧ ∃ l, AtLeaf s.memory.heap k pid l) ∧
      ∀ pid l, i.reorganised = some pid → s.memory.heap.page pid = .leaf l →
        ∃ k, op.key = some k ∧ AtLeaf s.memory.heap k pid l) ∧
    (∀ t k og next a, s.call t = .running (.lookup_opt k) (.instr (.retry og) next) →
      next false = .ret (some a) → a ≠ .failed → s.memory.version og.pid = og.vAcquired →
        ∃ l, AtLeaf s.memory.heap k og.pid l ∧ a = .found ((Page.leaf l).payload k)) ∧
    ∃ a, ((mapObject (K := K) (V := V)).system T).Trace ls a := by
  obtain ⟨g, hinv, -, -, hnext⟩ := (logic T c Set.univ).invariant watched_attempt ht
  refine ⟨fun t op i next h => ?_, fun t k og next a h hret hne hversion => ?_,
    calls_linearizable ht⟩
  · obtain ⟨⟨hsafe, -⟩, hkeys, -⟩ := hnext t op i next h
    refine ⟨fun pid k hi => ?_, fun pid l hi hl => ?_⟩
    · obtain ⟨hk, l, hl⟩ := hsafe.access hkeys hi
      exact ⟨hk, l, hinv.atLeaf hl⟩
    · obtain ⟨k, hk, hends⟩ := hkeys.reorganised hi hl
      exact ⟨k, hk, hinv.atLeaf hends⟩
  · obtain ⟨-, -, hconfirms⟩ := hnext t _ _ next h
    obtain ⟨l, hl, ha⟩ := hconfirms a hret hne hversion
    exact ⟨l, hinv.atLeaf hl, ha⟩

/-- A worker is about to put its key into the only leaf. -/
theorem insert_arrives : ∃ s : WorkerStates Bool Nat Nat,
    (workers Bool tinyNodes).system.Trace [.call true (.insert 10 1)] s ∧
      s.Next true (.insert 1 10 1) := by
  let m : Pages Bool Nat Nat := newTree.memory
  have hruns : ∃ next, Executes tinyNodes true (attempt tinyNodes entryPage (.insert 10 1) 0) m
      (.instr (.insert 1 10 1) next) (m.latch 1 (some true)) := by
    apply Exists.intro
    refine executes_instr (.fixOptimistic entryPage) ⟨entryPage, 4⟩ ⟨⟨rfl, rfl, rfl⟩, trivial⟩ ?_
    refine executes_instr (.retry ⟨entryPage, 4⟩) false ⟨⟨rfl, rfl⟩, trivial⟩ ?_
    refine executes_instr (.retry ⟨entryPage, 4⟩) false ⟨⟨rfl, rfl⟩, trivial⟩ ?_
    refine executes_instr (.peek ⟨entryPage, 4⟩) (.entry 1 0) ⟨⟨fun _ _ => rfl, rfl⟩, trivial⟩ ?_
    refine executes_instr (.peek ⟨entryPage, 4⟩) (.entry 1 0) ⟨⟨fun _ _ => rfl, rfl⟩, trivial⟩ ?_
    refine executes_instr (.fixExclusive 1) 6 ⟨⟨rfl, rfl, rfl, rfl⟩, trivial⟩ ?_
    refine executes_instr (.read 1) (.leaf Leaf.empty) ⟨⟨fun _ => rfl, rfl⟩, trivial⟩ ?_
    refine executes_instr (.retry ⟨entryPage, 4⟩) false ⟨⟨rfl, rfl⟩, trivial⟩ ?_
    refine executes_instr (.read 1) (.leaf Leaf.empty) ⟨⟨fun _ => rfl, rfl⟩, trivial⟩ ?_
    exact .refl
  obtain ⟨next, hruns⟩ := hruns
  exact ⟨_, newTree_trace.moves (call_executes _ 0 rfl hruns), .insert 10 1, next, by simp⟩

/-- So it is there where the key belongs. -/
theorem insert_at_its_leaf : ∃ s : WorkerStates Bool Nat Nat,
    (workers Bool tinyNodes).system.Trace [.call true (.insert 10 1)] s ∧
      s.Next true (.insert 1 10 1) ∧ (∃ l, AtLeaf s.memory.heap 10 1 l) ∧
      ∃ a, ((mapObject (K := Nat) (V := Nat)).system Bool).Trace [.call true (.insert 10 1)] a := by
  obtain ⟨s, ht, op, next, h⟩ := insert_arrives
  obtain ⟨hleaf, -, hatomic⟩ := point_operations_atomic ht
  obtain ⟨-, hl⟩ := (hleaf true op (.insert 1 10 1) next h).1 1 10 rfl
  exact ⟨s, ht, ⟨op, next, h⟩, hl, hatomic⟩

end ScaleStore.BTree
