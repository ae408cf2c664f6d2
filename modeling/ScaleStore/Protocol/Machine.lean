/-
# The possession protocol

One page, its owner, and the frames the nodes have for it.  Workers run
`Buffermanager::fix` with any of the access functors and use the guards it
returns; the message handlers answer their requests; the page providers evict.

A worker of the model is one guard of the source, on one page.  Its program
counter says where in `fix` it is; a request or a response on its way is part of
the program counter of the worker that waits for it, and a page is written into
the worker's frame in the step that answers the request, that is, before the
worker sees the response.

A handler takes the latch of the frame, changes it and gives the latch back
within one step; the version of the latch then moves on by two increments.  A
handler that does not get the latch re-arms its mailbox and leaves no trace
but `mhWaiting`.  Where an `ensure` fails there is no step.
-/

import ScaleStore.Protocol.Handlers
import Mathlib.Logic.Function.Basic

namespace ScaleStore.Protocol

variable {W C : Type}

/-! ## States -/

/-- Where a worker is in `fix`, or which guard it has. -/
inductive Pc (C : Type) where
  | idle
  /-- At the label `restart`. -/
  | fix (t : Access)
  /-- The functor has read the latch version `v`. -/
  | peek (t : Access) (v : Nat)
  /-- SSD: reading the page. -/
  | load (t : Access)
  /-- REMOTE: PRX or PRS is on its way to the owner. -/
  | request (t : Access)
  /-- REMOTE: the response has been written. -/
  | response (t : Access) (r : Response)
  /-- PMR with page is on its way to `c`; the nodes of `rest` are to be invalidated after it. -/
  | move (g : GuardState) (t : Access) (pVersion : Nat) (c : NodeID) (rest : Possessors)
  /-- PMRs without page are on their way to the nodes of `pending`. -/
  | invalidate (g : GuardState) (t : Access) (pVersion : Nat) (pending : Possessors)
  /-- PCR is on its way to `c`. -/
  | copy (g : GuardState) (t : Access) (pVersion : Nat) (shared : Possessors) (c : NodeID)
  | copyFailed (g : GuardState) (t : Access) (pVersion : Nat) (shared : Possessors)
  /-- All conflicts are resolved. -/
  | complete (g : GuardState) (t : Access) (pVersion : Nat)
  /-- REMOTE_POSSESSION_CHANGE: PUR is on its way to the owner. -/
  | update (t : Access) (pVersionOld : Nat)
  | updated (t : Access) (pVersionOld : Nat) (r : UpdateResponse)
  /-- The exclusive latch has been given back at version `v`, the shared one is to be taken;
  when that fails, `fix` restarts if `again`. -/
  | downgrade (v : Nat) (again : Bool)
  /-- `newRemotePage`: RAR has been answered. -/
  | allocate
  | guardX
  | guardS (v : Nat)
  /-- An optimistic guard and the content last seen through it. -/
  | guardO (v : Nat) (seen : Option C)

/-- A page provider's exchange with the owner about one of its frames. -/
inductive Provider where
  | idle
  /-- The frame is in flight with this version. -/
  | offered (pVersion : Nat)
  | acked
  | refused
deriving DecidableEq, Repr

structure PageState (W C : Type) where
  frame : NodeID → Option (Frame W C)
  /-- The versions of the latches; they outlive the frames. -/
  version : NodeID → Nat
  pc : W → Pc C
  provider : NodeID → Provider
  /-- The PID has been handed out. -/
  known : Bool
  /-- The page on the owner's SSD. -/
  disk : C
  /-- What the latest exclusive guard has left in the page. -/
  last : C
  /-- The node from which a READ is on its way into the page of the owner's frame. -/
  read : Option NodeID
  /-- Such a READ has been taken for complete before it had landed. -/
  astray : Bool

/-- How the machine runs. -/
structure Config where
  /-- The page providers run. -/
  evict : Bool
  /-- `FLAGS_evict_to_ssd`. -/
  ssd : Bool
  /-- `reclaimPage` is called. -/
  reclaim : Bool
deriving DecidableEq, Repr

namespace PageState

/-- The frame of `n` changes, and its latch version moves on by `k`. -/
def setFrame (s : PageState W C) (n : NodeID) (f : Option (Frame W C)) (k : Nat) :
    PageState W C :=
  { s with
    frame := Function.update s.frame n f
    version := Function.update s.version n (s.version n + k) }

def setPc [DecidableEq W] (s : PageState W C) (w : W) (p : Pc C) : PageState W C :=
  { s with pc := Function.update s.pc w p }

def setProvider (s : PageState W C) (n : NodeID) (p : Provider) : PageState W C :=
  { s with provider := Function.update s.provider n p }

end PageState

/-! ## Choosing the next message -/

/-- How a worker on `self` carries out a plan: a random member of the set is asked for the page,
all members are told to invalidate.  It never addresses itself. -/
inductive Enters (self : NodeID) (g : GuardState) (t : Access) (e : Nat) : Plan → Pc C → Prop where
  | move {shared : Possessors} {c : NodeID} : shared.test c = true → c ≠ self →
    Enters self g t e (.move shared) (.move g t e c (shared.reset c))
  | invalidate {shared : Possessors} : shared.any = true → shared.test self = false →
    Enters self g t e (.invalidate shared) (.invalidate g t e shared)
  | none {shared : Possessors} : shared.any = false →
    Enters self g t e (.invalidate shared) (.complete g t e)
  | copy {shared : Possessors} {c : NodeID} : shared.test c = true → c ≠ self →
    Enters self g t e (.copy shared) (.copy g t e shared c)
  | complete : Enters self g t e .complete (.complete g t e)

/-- In LOCAL_POSSESSION_CHANGE the set of nodes still to be asked is the frame's own. -/
def Frame.forget (f : Frame W C) (g : GuardState) (c : NodeID) : Frame W C :=
  if g = .localPossessionChange then
    match f.possession with
    | .nobody => f
    | .exclusive => { f with possessors := .ofNode 0 }
    | .shared => { f with possessors := f.possessors.reset c }
  else f

/-- What becomes of the owner's frame, latched for this step. -/
def Eviction.frame : Eviction W C → Option (Frame W C)
  | .unlatch f => some f
  | .remove => none
  | .retrieve f => some { f with holder := some .retriever }

/-- The READ that is on its way afterwards, if there was none before. -/
def Eviction.read (n : NodeID) : Eviction W C → Option NodeID
  | .unlatch _ => none
  | .remove => none
  | .retrieve _ => some n

/-- How far the latch version moves on: a frame that stays latched counts once. -/
def Eviction.bump : Eviction W C → Nat
  | .unlatch _ => 4
  | .remove => 4
  | .retrieve _ => 2

section Steps

variable [DecidableEq W] (cfg : Config) (o : NodeID) (node : W → NodeID)

/-! ## Workers -/

/-- Steps a worker takes by itself, on the frame of its own node. -/
inductive WorkerStep (s : PageState W C) : PageState W C → Prop where
  | start {w t} : s.known = true → s.pc w = .idle → WorkerStep s (s.setPc w (.fix t))
  /-- `findFrameOrInsert` puts a latched frame into the table, around a page that holds `c`. -/
  | insert {w t} (c : C) : s.pc w = .fix t → s.frame (node w) = none →
    WorkerStep s ((s.setFrame (node w) (some (.fresh (.worker w)
      (if node w = o then .ioSsd else .ioRdma) c)) 2).setPc w
      (if node w = o then .load t else .request t))
  | peek {w t f} : s.pc w = .fix t → s.frame (node w) = some f → f.holder = none →
    f.mhWaiting = false → WorkerStep s (s.setPc w (.peek t (s.version (node w))))
  | retry {w t v} : s.pc w = .peek t v → WorkerStep s (s.setPc w (.fix t))
  /-- A functor latches the frame, and the bucket turns out to have changed. -/
  | undo {n f} : s.frame n = some f → f.Latchable → WorkerStep s (s.setFrame n (some f) 4)
  | hitExclusive {w v f} : s.pc w = .peek .exclusive v → s.frame (node w) = some f →
    s.version (node w) = v → f.Latchable →
    Access.exclusive.functor (node w) o f = .initialized →
    WorkerStep s ((s.setFrame (node w)
      (some { f with holder := some (.worker w), dirty := true }) 2).setPc w .guardX)
  | hitShared {w v f} : s.pc w = .peek .shared v → s.frame (node w) = some f →
    s.version (node w) = v → f.holder = none →
    Access.shared.functor (node w) o f = .initialized →
    WorkerStep s ((s.setFrame (node w)
      (some { f with readers := insert w f.readers }) 0).setPc w (.guardS v))
  | hitOptimistic {w v f} : s.pc w = .peek .optimistic v → s.frame (node w) = some f →
    s.version (node w) = v → f.holder = none →
    Access.optimistic.functor (node w) o f = .initialized →
    WorkerStep s (s.setPc w (.guardO v none))
  | changeLocal {w t v f plan f' p} (c : C) : s.pc w = .peek t v → s.frame (node w) = some f →
    s.version (node w) = v → f.Latchable →
    t.functor (node w) o f = .localPossessionChange →
    f.localChange (node w) t c = .ok (plan, f') →
    Enters (node w) .localPossessionChange t f'.pVersion plan p →
    WorkerStep s ((s.setFrame (node w)
      (some { f' with holder := some (.worker w) }) 2).setPc w p)
  | changeRemote {w t v f old f'} : s.pc w = .peek t v → s.frame (node w) = some f →
    s.version (node w) = v → f.Latchable →
    t.functor (node w) o f = .remotePossessionChange →
    f.remoteChange = .ok (old, f') →
    WorkerStep s ((s.setFrame (node w)
      (some { f' with holder := some (.worker w) }) 2).setPc w (.update t old))
  | load {w t f} : s.pc w = .load t → s.frame (node w) = some f →
    WorkerStep s ((s.setFrame (node w) (some { f with page := some s.disk }) 0).setPc w
      (.complete .ssd t f.pVersion))
  | receive {w t r f plan p} : s.pc w = .response t r → s.frame (node w) = some f →
    r.plan = .ok plan → Enters (node w) .remote t r.pVersion plan p →
    WorkerStep s ((s.setFrame (node w)
      (some { f with pVersion := r.pVersion }) 0).setPc w p)
  | completeExclusive {w g e f f'} : s.pc w = .complete g .exclusive e →
    s.frame (node w) = some f → f.complete (node w) .exclusive = .ok f' →
    WorkerStep s ((s.setFrame (node w) (some { f' with dirty := true }) 0).setPc w .guardX)
  | completeShared {w g e f f'} : s.pc w = .complete g .shared e →
    s.frame (node w) = some f → f.complete (node w) .shared = .ok f' →
    WorkerStep s ((s.setFrame (node w) (some { f' with holder := none }) 2).setPc w
      (.downgrade (s.version (node w) + 2) true))
  | completeOptimistic {w g e f f'} : s.pc w = .complete g .optimistic e →
    s.frame (node w) = some f → f.complete (node w) .optimistic = .ok f' →
    WorkerStep s ((s.setFrame (node w) (some { f' with holder := none }) 2).setPc w
      (.guardO (s.version (node w) + 2) none))
  /-- An upgrade that finds its page changed gives the frame back and does not mark it dirty. -/
  | completeDiscarded {w g e f f'} : s.pc w = .complete g .exclusive e →
    s.frame (node w) = some f → f.complete (node w) .exclusive = .ok f' →
    WorkerStep s ((s.setFrame (node w) (some { f' with holder := none }) 2).setPc w .idle)
  | downgraded {w v again f} : s.pc w = .downgrade v again → s.frame (node w) = some f →
    s.version (node w) = v → f.holder = none →
    WorkerStep s ((s.setFrame (node w)
      (some { f with readers := insert w f.readers }) 0).setPc w (.guardS v))
  | downgradeFailed {w v again} : s.pc w = .downgrade v again →
    WorkerStep s (s.setPc w (if again then .fix .shared else .idle))
  | updateFailed {w t old f} : s.pc w = .updated t old .failed → s.frame (node w) = some f →
    WorkerStep s ((s.setFrame (node w)
      (some { f with pVersion := old, holder := none }) 2).setPc w (.fix t))
  | updateDone {w t old e f} : s.pc w = .updated t old (.succeed e) →
    s.frame (node w) = some f → f.pVersion = e →
    WorkerStep s (s.setPc w (.complete .remotePossessionChange .exclusive e))
  | updateConflict {w t old e shared f p} :
    s.pc w = .updated t old (.succeedWithSharedConflict e shared) →
    s.frame (node w) = some f → f.pVersion = e →
    Enters (node w) .remotePossessionChange .exclusive e (.invalidate (shared.reset (node w))) p →
    WorkerStep s (s.setPc w p)
  | copyAgain {w t e shared f p} : s.pc w = .copyFailed .remote t e shared →
    s.frame (node w) = some f → f.mhWaiting = false →
    Enters (node w) .remote t e (.copy shared) p → WorkerStep s (s.setPc w p)
  | copyAbandoned {w t e shared f} : s.pc w = .copyFailed .remote t e shared →
    s.frame (node w) = some f → f.mhWaiting = true →
    WorkerStep s ((s.setFrame (node w) (some { f with holder := none }) 2).setPc w (.fix t))
  | copyAbandonedLocal {w t e shared f} :
    s.pc w = .copyFailed .localPossessionChange t e shared → s.frame (node w) = some f →
    f.state = .evicted →
    WorkerStep s ((s.setFrame (node w)
      (some { f with page := none, holder := none }) 2).setPc w (.fix t))
  | write {w f} (c : C) : s.pc w = .guardX → s.frame (node w) = some f →
    WorkerStep s { s.setFrame (node w) (some { f with page := some c }) 0 with last := c }
  /-- What is read through a guard that is not valid any more can be anything. -/
  | read {w v seen} (c : C) : s.pc w = .guardO v seen →
    (s.version (node w) = v → ∃ f, s.frame (node w) = some f ∧ f.page = some c) →
    WorkerStep s (s.setPc w (.guardO v (some c)))
  | releaseExclusive {w f} : s.pc w = .guardX → s.frame (node w) = some f →
    WorkerStep s ((s.setFrame (node w) (some { f with holder := none }) 2).setPc w .idle)
  | releaseShared {w v f} : s.pc w = .guardS v → s.frame (node w) = some f →
    WorkerStep s ((s.setFrame (node w)
      (some { f with readers := f.readers.erase w }) 0).setPc w .idle)
  | releaseOptimistic {w v seen} : s.pc w = .guardO v seen → WorkerStep s (s.setPc w .idle)
  | exclusiveToShared {w f} : s.pc w = .guardX → s.frame (node w) = some f →
    WorkerStep s ((s.setFrame (node w) (some { f with holder := none }) 2).setPc w
      (.downgrade (s.version (node w) + 2) false))
  | exclusiveToOptimistic {w f} : s.pc w = .guardX → s.frame (node w) = some f →
    WorkerStep s ((s.setFrame (node w) (some { f with holder := none }) 2).setPc w
      (.guardO (s.version (node w) + 2) none))
  | sharedToOptimistic {w v f} : s.pc w = .guardS v → s.frame (node w) = some f →
    WorkerStep s ((s.setFrame (node w)
      (some { f with readers := f.readers.erase w }) 0).setPc w (.guardO v none))
  | optimisticToShared {w v seen f} : s.pc w = .guardO v seen → s.frame (node w) = some f →
    f.holder = none → s.version (node w) = v →
    WorkerStep s ((s.setFrame (node w)
      (some { f with readers := insert w f.readers }) 0).setPc w (.guardS v))
  /-- `newPage`: a page allocated by a worker of its owner. -/
  | newPage {w} (c : C) : s.known = false → s.pc w = .idle → node w = o → s.frame o = none →
    WorkerStep s { (s.setFrame o (some (newFrame o w c)) 2).setPc w .guardX with
      known := true, last := c }
  /-- `newRemotePage`, after the owner's answer. -/
  | allocate {w} (c : C) : s.pc w = .allocate → s.frame (node w) = none →
    WorkerStep s { (s.setFrame (node w) (some (newFrame (node w) w c)) 2).setPc w .guardX with
      known := true, last := c }
  /-- `ExclusiveBFGuard::reclaim`: on the owner as on any other node, the frame is removed. -/
  | reclaimPage {w f} : cfg.reclaim = true → s.pc w = .guardX → s.frame (node w) = some f →
    WorkerStep s ((s.setFrame (node w) none 2).setPc w .idle)

/-! ## Message handlers -/

/-- Steps of the message handler of the node that a request is addressed to. -/
inductive HandlerStep (s : PageState W C) : PageState W C → Prop where
  /-- PRX or PRS for a page that is on the SSD; the message is handled again afterwards. -/
  | requestLoad {w t} : s.pc w = .request t → s.frame o = none →
    HandlerStep s (s.setFrame o (some (ssdFrame o s.disk)) 2)
  | loaded {f} : s.frame o = some f → f.holder = some .handler →
    HandlerStep s (s.setFrame o (some { f with holder := none }) 2)
  | request {w t f r page f' own} : s.pc w = .request t → s.frame o = some f → f.Latchable →
    f.handlePossessionRequest t.desired o (node w) = .ok ((r, page), f') →
    s.frame (node w) = some own →
    HandlerStep s (((s.setFrame o (some f') 4).setFrame (node w)
      (some { own with page := page.or own.page }) 0).setPc w (.response t r))
  | move {w g t e c rest f x own p} : s.pc w = .move g t e c rest → s.frame c = some f →
    f.Latchable → f.handleMove = .ok x → s.frame (node w) = some own →
    Enters (node w) g t e (.invalidate rest) p →
    HandlerStep s (((s.setFrame c none 4).setFrame (node w)
      (some { own.forget g c with page := some x }) 0).setPc w p)
  | invalidate {w g t e pending c f x own p} : s.pc w = .invalidate g t e pending →
    pending.test c = true → s.frame c = some f → f.Latchable → f.handleMove = .ok x →
    s.frame (node w) = some own → Enters (node w) g t e (.invalidate (pending.reset c)) p →
    HandlerStep s (((s.setFrame c none 4).setFrame (node w) (some (own.forget g c)) 0).setPc w p)
  /-- A PMR without page that does not get the latch. -/
  | invalidateRetry {w g t e pending c f} : s.pc w = .invalidate g t e pending →
    pending.test c = true → s.frame c = some f →
    HandlerStep s (s.setFrame c (some { f with mhWaiting := true }) 0)
  | copy {w g t e shared c f x own} : s.pc w = .copy g t e shared c → s.frame c = some f →
    f.holder = none → f.handleCopy e = .ok (some x) → s.frame (node w) = some own →
    HandlerStep s ((s.setFrame (node w) (some { own with page := some x }) 0).setPc w
      (.complete g t e))
  /-- The frame is gone, or is to go, or could not be latched often enough. -/
  | copyFailed {w g t e shared c} : s.pc w = .copy g t e shared c →
    HandlerStep s (s.setPc w (.copyFailed g t e shared))
  | update {w t old f r f'} : s.pc w = .update t old → s.frame o = some f → f.Latchable →
    f.handleUpdate o (node w) old = .ok (r, f') →
    HandlerStep s ((s.setFrame o (some f') 4).setPc w (.updated t old r))
  /-- The version has moved on; this is answered with or without the latch. -/
  | updateFailed {w t old f k} : s.pc w = .update t old → s.frame o = some f →
    old < f.pVersion → k = 0 ∨ (k = 4 ∧ f.Latchable) →
    HandlerStep s ((s.setFrame o (some { f with mhWaiting := false }) k).setPc w
      (.updated t old .failed))
  | updateRetry {w t old f} : s.pc w = .update t old → s.frame o = some f → f.pVersion = old →
    HandlerStep s (s.setFrame o (some { f with mhWaiting := true }) 0)
  /-- RAR: a page allocated by a worker of another node. -/
  | allocation {w} : s.known = false → s.pc w = .idle → node w ≠ o → s.frame o = none →
    HandlerStep s ((s.setFrame o (some (allocatedFrame (node w))) 4).setPc w .allocate)

/-! ## Page providers -/

/-- Steps of the page providers. -/
inductive ProviderStep (s : PageState W C) : PageState W C → Prop where
  /-- Phase 3: a frame of another node's page is latched and offered to the owner. -/
  | select {n f} : cfg.evict = true → n ≠ o → s.frame n = some f → f.Latchable →
    f.state = .hot → s.provider n = .idle →
    ProviderStep s ((s.setFrame n (some { f with holder := some .provider }) 2).setProvider n
      (.offered f.pVersion))
  /-- Phase 1, refused: the frame is latched, or its version has moved on, or a copy request is
  under way. -/
  | refuse {n v} : s.provider n = .offered v → ProviderStep s (s.setProvider n .refused)
  /-- Phase 1, accepted. -/
  | accept {n v f ev} (c : C) : s.provider n = .offered v → s.frame o = some f → f.Latchable →
    f.mhWaiting = false → f.pVersion = v → f.answerEviction cfg.ssd o n c = .ok ev →
    ProviderStep s { (s.setFrame o ev.frame ev.bump).setProvider n .acked with read := ev.read n }
  /-- The READ reaches the requester's page, whose frame is latched until the response is there. -/
  | landed {n f g x} : s.read = some n → s.frame o = some f → f.holder = some .retriever →
    s.frame n = some g → g.page = some x →
    ProviderStep s { s.setFrame o (some { f with page := some x }) 0 with read := none }
  /-- Phase 6 takes the READ for complete although it is still on its way. -/
  | overlooked {n} : s.read = some n → ProviderStep s { s with read := none, astray := true }
  /-- Phase 6, once no READ is missing. -/
  | retrieved {f} : s.frame o = some f → f.holder = some .retriever → s.read = none →
    ProviderStep s (s.setFrame o (some { f with holder := none }) 2)
  /-- Phase 5, on a frame that the response names. -/
  | applyAcked {n f} : s.provider n = .acked → s.read ≠ some n → s.frame n = some f →
    ProviderStep s ((s.setFrame n none 2).setProvider n .idle)
  /-- Phase 5, on a frame that the response does not name. -/
  | applyRefused {n f} : s.provider n = .refused → s.frame n = some f →
    ProviderStep s ((s.setFrame n (some { f with holder := none }) 2).setProvider n .idle)
  /-- Phase 5, on a frame that was refused but is named by what an earlier response has left
  behind the end of this one. -/
  | applyStale {n f} : s.provider n = .refused → s.frame n = some f →
    ProviderStep s ((s.setFrame n none 2).setProvider n .idle)
  /-- Phase 3, on a page of this node. -/
  | evictOwner {f ev} (dice : Bool) : cfg.evict = true → s.frame o = some f → f.Latchable →
    f.state ≠ .evicted → f.evictOwnerPage cfg.ssd dice o = .ok ev →
    ProviderStep s (s.setFrame o ev.frame ev.bump)
  /-- A dirty page has been written to the SSD, under a shared latch of the provider. -/
  | writeBack {f x} : cfg.evict = true → cfg.ssd = true → s.frame o = some f → f.holder = none →
    f.state = .hot → f.dirty = true → f.page = some x →
    ProviderStep s { s.setFrame o (some { f with dirty := false }) 0 with disk := x }

/-- One step of the machine. -/
inductive Step (s s' : PageState W C) : Prop where
  | worker : WorkerStep cfg o node s s' → Step s s'
  | handler : HandlerStep o node s s' → Step s s'
  | provider : ProviderStep cfg o s s' → Step s s'

/-- A READ that was taken for complete too early lands on the node `n`, in a page buffer that has
another use by now. -/
inductive Overwrites (n : NodeID) (s : PageState W C) : PageState W C → Prop where
  | mk {f} (c : C) : s.frame n = some f → f.page.isSome = true →
    Overwrites n s (s.setFrame n (some { f with page := some c }) 0)

/-- All that can happen to a page. -/
inductive PageStep (s s' : PageState W C) : Prop where
  | step : Step cfg o node s s' → PageStep s s'
  | overwritten {n} : Overwrites n s s' → PageStep s s'

/-- Before anything has happened: no node has a frame. -/
structure Init (s : PageState W C) : Prop where
  frame : ∀ n, s.frame n = none
  pc : ∀ w, s.pc w = .idle
  provider : ∀ n, s.provider n = .idle
  last : s.last = s.disk
  read : s.read = none
  astray : s.astray = false

end Steps

end ScaleStore.Protocol
