/-
# The page table

A bucket of the table is a buffer frame with a latch of its own; frames that
share the bucket hang behind it in a chain.  Lookups walk the chain without
latching it: they remember the version of the bucket latch and compare it after
every pointer they read.  Insertions and removals latch the bucket.  Frames that
are removed go to a free list and come back in other chains, while a lookup may
still be looking at them.

Every constructor of `Step` is one atomic operation of a latch or one read or
write of a field.
-/

import ScaleStore.Lib.PointerChain
import ScaleStore.Lib.System
import Mathlib.Data.Finset.Basic

namespace ScaleStore.PageTable

/-- `PageTable::operator[]`: the inline frame of a PID's bucket. -/
structure Layout (K F : Type) where
  bucket : K → F
  isHtBucket : F → Bool
  isHtBucket_bucket : ∀ k, isHtBucket (bucket k) = true

/-- A call of `findFrame`, or of `findFrameOrInsert` where `insert` is set, with its contention
method. -/
structure Call (K : Type) where
  pid : K
  insert : Bool
  blocking : Bool

/-- `LATCH_STATE` of a guard that has got something. -/
inductive LatchState where
  | exclusive
  | shared
  | optimistic
deriving DecidableEq, Repr

/-- Who puts a frame into the table. -/
inductive Origin (K : Type) where
  | find (c : Call K)
  | insertFrame (pid : K)

def Origin.pid {K : Type} : Origin K → K
  | .find c => c.pid
  | .insertFrame k => k

/-- Where a thread is, with its local variables.  `v` is `b_version`; a slot is the node whose
`next` field `current_slot` points to, `none` for the local pointer to the bucket. -/
inductive Pc (K F : Type) where
  | idle
  /-- `restart:`. -/
  | restart (c : Call K)
  /-- `while (*current_slot)`. -/
  | test (c : Call K) (v : Nat) (slot : Option F)
  /-- `tmp = *current_slot`. -/
  | copy (c : Call K) (v : Nat) (slot : Option F)
  | check (c : Call K) (v : Nat) (tmp : Option F)
  /-- `tmp->pid == pid`. -/
  | compare (c : Call K) (v : Nat) (tmp : F)
  /-- `current_slot = &(tmp->next)` is done; the version is still to be compared. -/
  | advance (c : Call K) (v : Nat) (tmp : F)
  /-- `g.frame = tmp` is done; the version is still to be compared. -/
  | found (c : Call K) (v : Nat) (tmp : F)
  /-- The functor. -/
  | access (c : Call K) (v : Nat) (tmp : F)
  /-- `checkOrRestart` behind the functor, which has latched or answered `RETRY`. -/
  | recheck (c : Call K) (v : Nat) (tmp : F) (g : Option LatchState)
  | undo (c : Call K) (tmp : F) (g : LatchState)
  /-- The loop is over. -/
  | absent (c : Call K) (v : Nat) (slot : Option F)
  | notFound (pid : K)
  /-- `findFrameOrInsert` has popped a page. -/
  | upgrade (c : Call K) (v : Nat) (slot : Option F)
  /-- The bucket is latched: is the inline frame `FREE`? -/
  | decide (c : Call K) (slot : Option F)
  /-- `insertFrame`. -/
  | latchBucket (pid : K)
  | decideNew (pid : K)
  | seekEnd (pid : K) (slot : F)
  | seekDuplicate (pid : K) (tmp : F)
  /-- `frameFreeList.try_pop(*slot)`. -/
  | take (og : Origin K) (slot : F)
  /-- It failed. -/
  | giveUp (og : Origin K)
  | latchFrame (og : Origin K) (f : F)
  /-- The fields are written; the flags say whether `state` and `pid` are. -/
  | fill (og : Origin K) (f : F) (state pid : Bool)
  /-- The call has returned the guard. -/
  | guard (pid : K) (f : F) (g : LatchState)
  /-- `insertFrame` has put the frame into the table and holds its latch. -/
  | inserted (pid : K) (f : F)
  /-- A frame latched without a lookup, as page providers do. -/
  | held (f : F)
  /-- `removeFrame`, on the bucket `b`. -/
  | remove (f : F)
  | latchHome (f b : F)
  | seek (f b slot : F)
  | matchPid (f b slot tmp : F)
  | unlink (f b slot tmp : F) (next : Option F)
  | clearPid (f b : F)
  | clearNext (f b : F)
  | clearState (f b : F)
  | unlatchBucket (f b : F)
  | unlatchFrame (f : F)
  | push (f : F)

/-- The frames, the free list and the threads. -/
structure State (K F T : Type) where
  /-- `none` is `EMPTY_PID`. -/
  pid : F → Option K
  next : F → Option F
  /-- `state == BF_STATE::FREE`. -/
  free : F → Bool
  /-- `ht_bucket_latch`. -/
  version : F → Nat
  /-- The exclusive holder of the frame's latch, and its shared holders. -/
  holder : F → Option T
  readers : F → Finset T
  frameFreeList : List F
  pc : T → Pc K F

/-- `OptimisticLatch::isLatched`. -/
def isLatched (version : Nat) : Bool := version &&& 0b10 == 0b10

namespace Pc

variable {K F : Type}

/-- The bucket whose latch the thread holds. -/
def bucketHeld (L : Layout K F) : Pc K F → Option F
  | .decide c _ => some (L.bucket c.pid)
  | .decideNew k | .seekEnd k _ | .seekDuplicate k _ => some (L.bucket k)
  | .take og _ | .giveUp og | .latchFrame og _ | .fill og _ _ _ => some (L.bucket og.pid)
  | .seek _ b _ | .matchPid _ b _ _ | .unlink _ b _ _ _ => some b
  | .clearPid _ b | .clearNext _ b | .clearState _ b | .unlatchBucket _ b => some b
  | _ => none

/-- The PID a call is about. -/
def calls : Pc K F → Option K
  | .restart c | .test c _ _ | .copy c _ _ | .check c _ _ | .compare c _ _ | .advance c _ _ =>
    some c.pid
  | .found c _ _ | .access c _ _ | .recheck c _ _ _ | .undo c _ _ | .absent c _ _ => some c.pid
  | .upgrade c _ _ | .decide c _ => some c.pid
  | .latchBucket k | .decideNew k | .seekEnd k _ | .seekDuplicate k _ => some k
  | .take og _ | .giveUp og | .latchFrame og _ | .fill og _ _ _ => some og.pid
  | _ => none

/-- The PID that `insertFrame` is inserting. -/
def inserts : Pc K F → Option K
  | .latchBucket k | .decideNew k | .seekEnd k _ | .seekDuplicate k _ => some k
  | .take (.insertFrame k) _ | .giveUp (.insertFrame k) => some k
  | .latchFrame (.insertFrame k) _ | .fill (.insertFrame k) _ _ _ => some k
  | _ => none

end Pc

namespace State

variable {K F T : Type} [DecidableEq F] [DecidableEq T]

def go (s : State K F T) (t : T) (p : Pc K F) : State K F T :=
  { s with pc := Function.update s.pc t p }

/-- Latching and unlatching a bucket both add `0b10` to its version. -/
def bump (s : State K F T) (b : F) : State K F T :=
  { s with version := Function.update s.version b (s.version b + 0b10) }

def setPid (s : State K F T) (f : F) (k : Option K) : State K F T :=
  { s with pid := Function.update s.pid f k }

def setNext (s : State K F T) (f : F) (x : Option F) : State K F T :=
  { s with next := Function.update s.next f x }

def setFree (s : State K F T) (f : F) (x : Bool) : State K F T :=
  { s with free := Function.update s.free f x }

def latchExclusive (s : State K F T) (f : F) (t : T) : State K F T :=
  { s with holder := Function.update s.holder f (some t) }

def unlatchExclusive (s : State K F T) (f : F) : State K F T :=
  { s with holder := Function.update s.holder f none }

def latchShared (s : State K F T) (f : F) (t : T) : State K F T :=
  { s with readers := Function.update s.readers f (insert t (s.readers f)) }

def unlatchShared (s : State K F T) (f : F) (t : T) : State K F T :=
  { s with readers := Function.update s.readers f ((s.readers f).erase t) }

/-- Nobody holds the frame's latch in any mode. -/
def Unlatched (s : State K F T) (f : F) : Prop := s.holder f = none ∧ s.readers f = ∅

/-- `*current_slot`. -/
def deref (L : Layout K F) (s : State K F T) (k : K) : Option F → Option F
  | none => some (L.bucket k)
  | some x => s.next x

/-- What a functor's latch does to the frame, and its undoing. -/
def acquire (s : State K F T) (f : F) (t : T) : LatchState → State K F T
  | .exclusive => s.latchExclusive f t
  | .shared => s.latchShared f t
  | .optimistic => s

def release (s : State K F T) (f : F) (t : T) : LatchState → State K F T
  | .exclusive => s.unlatchExclusive f
  | .shared => s.unlatchShared f t
  | .optimistic => s

/-- When a functor gets its latch. -/
def Grants (s : State K F T) (f : F) : LatchState → Prop
  | .exclusive => s.Unlatched f
  | .shared | .optimistic => s.holder f = none

/-- `insertFrame` is called with a PID that no frame and no other call knows. -/
def Fresh (s : State K F T) (k : K) : Prop :=
  (∀ f, s.pid f ≠ some k) ∧ ∀ t, (s.pc t).calls ≠ some k

end State

/-! ## Steps -/

section Steps

variable {K F T : Type} [DecidableEq F] [DecidableEq T] (L : Layout K F)

/-- What thread `t` does next. -/
inductive Step (t : T) (s : State K F T) : State K F T → Prop where
  /- The walk.  A PID that `insertFrame` is still inserting is not looked up. -/
  | start (c : Call K) : s.pc t = .idle → (∀ t', (s.pc t').inserts ≠ some c.pid) →
    Step t s (s.go t (.restart c))
  | readVersion {c} : s.pc t = .restart c → isLatched (s.version (L.bucket c.pid)) = false →
    Step t s (s.go t (.test c (s.version (L.bucket c.pid)) none))
  | testMore {c v slot} : s.pc t = .test c v slot → s.deref L c.pid slot ≠ none →
    Step t s (s.go t (.copy c v slot))
  | testEnd {c v slot} : s.pc t = .test c v slot → s.deref L c.pid slot = none →
    Step t s (s.go t (.absent c v slot))
  | copy {c v slot} : s.pc t = .copy c v slot →
    Step t s (s.go t (.check c v (s.deref L c.pid slot)))
  | checkOk {c v tmp} : s.pc t = .check c v (some tmp) → s.version (L.bucket c.pid) = v →
    Step t s (s.go t (.compare c v tmp))
  | checkFail {c v tmp} : s.pc t = .check c v tmp → s.version (L.bucket c.pid) ≠ v →
    Step t s (s.go t (.restart c))
  | compareEq {c v tmp} : s.pc t = .compare c v tmp → s.pid tmp = some c.pid →
    Step t s (s.go t (.found c v tmp))
  | compareNe {c v tmp} : s.pc t = .compare c v tmp → s.pid tmp ≠ some c.pid →
    Step t s (s.go t (.advance c v tmp))
  | advanceOk {c v tmp} : s.pc t = .advance c v tmp → s.version (L.bucket c.pid) = v →
    Step t s (s.go t (.test c v (some tmp)))
  | advanceFail {c v tmp} : s.pc t = .advance c v tmp → s.version (L.bucket c.pid) ≠ v →
    Step t s (s.go t (.restart c))
  | foundOk {c v tmp} : s.pc t = .found c v tmp → s.version (L.bucket c.pid) = v →
    Step t s (s.go t (.access c v tmp))
  | foundFail {c v tmp} : s.pc t = .found c v tmp → s.version (L.bucket c.pid) ≠ v →
    Step t s (s.go t (.restart c))
  /-- The functor may answer `RETRY` whatever it sees. -/
  | accessRetry {c v tmp} : s.pc t = .access c v tmp → Step t s (s.go t (.recheck c v tmp none))
  | access {c v tmp} (g : LatchState) : s.pc t = .access c v tmp → s.Grants tmp g →
    Step t s ((s.acquire tmp t g).go t (.recheck c v tmp (some g)))
  /-- Without a latch a blocking call starts again, a non-blocking one returns. -/
  | recheckRetry {c v tmp} : s.pc t = .recheck c v tmp none →
    Step t s (s.go t (if c.blocking then .restart c else .idle))
  | recheckOk {c v tmp g} : s.pc t = .recheck c v tmp (some g) →
    s.version (L.bucket c.pid) = v → Step t s (s.go t (.guard c.pid tmp g))
  | recheckFail {c v tmp g} : s.pc t = .recheck c v tmp (some g) →
    s.version (L.bucket c.pid) ≠ v → Step t s (s.go t (.undo c tmp g))
  | undo {c tmp g} : s.pc t = .undo c tmp g →
    Step t s ((s.release tmp t g).go t (if c.blocking then .restart c else .idle))
  | absentFail {c v slot} : s.pc t = .absent c v slot → s.version (L.bucket c.pid) ≠ v →
    Step t s (s.go t (.restart c))
  | absentOk {c v slot} : s.pc t = .absent c v slot → s.version (L.bucket c.pid) = v →
    c.insert = true → Step t s (s.go t (.upgrade c v slot))
  | notFound {c v slot} : s.pc t = .absent c v slot → s.version (L.bucket c.pid) = v →
    c.insert = false → Step t s (s.go t (.notFound c.pid))
  | notFoundDone {k} : s.pc t = .notFound k → Step t s (s.go t .idle)
  /- The insertion of `findFrameOrInsert`. -/
  | upgradeFail {c v slot} : s.pc t = .upgrade c v slot → s.version (L.bucket c.pid) ≠ v →
    Step t s (s.go t (.restart c))
  | upgradeOk {c v slot} : s.pc t = .upgrade c v slot → s.version (L.bucket c.pid) = v →
    Step t s ((s.bump (L.bucket c.pid)).go t (.decide c slot))
  | decideInline {c slot} : s.pc t = .decide c slot → s.free (L.bucket c.pid) = true →
    Step t s (s.go t (.latchFrame (.find c) (L.bucket c.pid)))
  | decideChain {c slot} : s.pc t = .decide c (some slot) → s.free (L.bucket c.pid) = false →
    Step t s (s.go t (.take (.find c) slot))
  | takeFail {og slot} : s.pc t = .take og slot → Step t s (s.go t (.giveUp og))
  | take {og slot f} : s.pc t = .take og slot → f ∈ s.frameFreeList →
    Step t s (({ s with frameFreeList := s.frameFreeList.erase f }.setNext slot (some f)).go t
      (.latchFrame og f))
  | giveUp {og} : s.pc t = .giveUp og →
    Step t s ((s.bump (L.bucket og.pid)).go t
      (match og with | .find c => .restart c | .insertFrame k => .latchBucket k))
  | latchFrame {og f} : s.pc t = .latchFrame og f → s.Unlatched f →
    Step t s ((s.latchExclusive f t).go t (.fill og f false false))
  | fillState {og f pid} : s.pc t = .fill og f false pid →
    Step t s ((s.setFree f false).go t (.fill og f true pid))
  | fillPid {og f st} : s.pc t = .fill og f st false →
    Step t s ((s.setPid f (some og.pid)).go t (.fill og f st true))
  | filled {og f} : s.pc t = .fill og f true true →
    Step t s ((s.bump (L.bucket og.pid)).go t
      (match og with
        | .find c => .guard c.pid f .exclusive
        | .insertFrame k => .inserted k f))
  /- `insertFrame`. -/
  | startInsert (k : K) : s.pc t = .idle → s.Fresh k → Step t s (s.go t (.latchBucket k))
  | latchBucket {k} : s.pc t = .latchBucket k → isLatched (s.version (L.bucket k)) = false →
    Step t s ((s.bump (L.bucket k)).go t (.decideNew k))
  | newInline {k} : s.pc t = .decideNew k → s.free (L.bucket k) = true →
    Step t s (s.go t (.latchFrame (.insertFrame k) (L.bucket k)))
  | newChain {k} : s.pc t = .decideNew k → s.free (L.bucket k) = false →
    Step t s (s.go t (.seekEnd k (L.bucket k)))
  | seekMore {k slot tmp} : s.pc t = .seekEnd k slot → s.next slot = some tmp →
    Step t s (s.go t (.seekDuplicate k tmp))
  | seekDone {k slot} : s.pc t = .seekEnd k slot → s.next slot = none →
    Step t s (s.go t (.take (.insertFrame k) slot))
  | seekNext {k tmp} : s.pc t = .seekDuplicate k tmp → s.pid tmp ≠ some k →
    Step t s (s.go t (.seekEnd k tmp))
  /- Guards. -/
  | releaseGuard {k f g} : s.pc t = .guard k f g → Step t s ((s.release f t g).go t .idle)
  | releaseInserted {k f} : s.pc t = .inserted k f →
    Step t s ((s.unlatchExclusive f).go t .idle)
  | grab (f : F) : s.pc t = .idle → s.Unlatched f →
    Step t s ((s.latchExclusive f t).go t (.held f))
  | drop {f} : s.pc t = .held f → Step t s ((s.unlatchExclusive f).go t .idle)
  /- `removeFrame` of a latched frame. -/
  | startRemove {k f} : s.pc t = .guard k f .exclusive ∨ s.pc t = .inserted k f →
    Step t s (s.go t (.remove f))
  | removeHeld {f} : s.pc t = .held f → s.pid f ≠ none → Step t s (s.go t (.remove f))
  | removeInline {f} : s.pc t = .remove f → L.isHtBucket f = true →
    isLatched (s.version f) = false → Step t s ((s.bump f).go t (.clearPid f f))
  | removeChained {f k} : s.pc t = .remove f → L.isHtBucket f = false → s.pid f = some k →
    Step t s (s.go t (.latchHome f (L.bucket k)))
  | latchHome {f b} : s.pc t = .latchHome f b → isLatched (s.version b) = false →
    Step t s ((s.bump b).go t (.seek f b b))
  | seek {f b slot tmp} : s.pc t = .seek f b slot → s.next slot = some tmp →
    Step t s (s.go t (.matchPid f b slot tmp))
  | matchYes {f b slot tmp} : s.pc t = .matchPid f b slot tmp → s.pid tmp = s.pid f →
    Step t s (s.go t (.unlink f b slot tmp (s.next tmp)))
  | matchNo {f b slot tmp} : s.pc t = .matchPid f b slot tmp → s.pid tmp ≠ s.pid f →
    Step t s (s.go t (.seek f b tmp))
  | unlink {f b slot tmp next} : s.pc t = .unlink f b slot tmp next →
    Step t s ((s.setNext slot next).go t (.clearPid f b))
  | clearPid {f b} : s.pc t = .clearPid f b →
    Step t s ((s.setPid f none).go t
      (if L.isHtBucket f then .clearState f b else .clearNext f b))
  | clearNext {f b} : s.pc t = .clearNext f b →
    Step t s ((s.setNext f none).go t (.clearState f b))
  | clearState {f b} : s.pc t = .clearState f b →
    Step t s ((s.setFree f true).go t (.unlatchBucket f b))
  | unlatchBucket {f b} : s.pc t = .unlatchBucket f b →
    Step t s ((s.bump b).go t (.unlatchFrame f))
  | unlatchFrame {f} : s.pc t = .unlatchFrame f →
    Step t s ((s.unlatchExclusive f).go t (if L.isHtBucket f then .idle else .push f))
  /-- `frameFreeList.try_push`, whose result is not looked at. -/
  | push {f} (pushed : Bool) : s.pc t = .push f →
    Step t s ({ s with
      frameFreeList := if pushed then f :: s.frameFreeList else s.frameFreeList }.go t .idle)

/-- After the constructor: all frames are empty, the chained ones in the free list. -/
structure Init (s : State K F T) : Prop where
  frames : ∀ f, s.pid f = none ∧ s.next f = none ∧ s.free f = true
  buckets : ∀ f, isLatched (s.version f) = false
  latches : ∀ f, s.Unlatched f
  frameFreeList : s.frameFreeList.Nodup ∧ ∀ f ∈ s.frameFreeList, L.isHtBucket f = false
  pc : ∀ t, s.pc t = .idle

/-- Any number of threads, in any order. -/
def pageTable : System (State K F T) where
  Init := Init L
  Step s s' := ∃ t, Step L t s s'

end Steps

end ScaleStore.PageTable
