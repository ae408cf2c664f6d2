/-
# Message handlers and the state changes of `fix`

The cases of the message handler (PRX, PRS, PMR, PCR, PUR, RAR), the answers of
the page provider and the pieces of the cold path of `Buffermanager::fix` that
change a frame, each as a function on the one frame it latches.  Every `ensure`
of the source is kept; a failing one is the error of the result.
-/

import ScaleStore.Protocol.Frame

namespace ScaleStore.Protocol

variable {W C : Type}

/-! ## Guards -/

/-- The access functors `Exclusive`, `Shared` and `Optimistic`. -/
inductive Access where
  | exclusive
  | shared
  | optimistic
deriving DecidableEq, Repr

/-- The values of `STATE` that decide which way `fix` takes. -/
inductive GuardState where
  | initialized
  | ssd
  | remote
  | localPossessionChange
  | remotePossessionChange
deriving DecidableEq, Repr

/-- The possession an access asks the owner for. -/
def Access.desired : Access → Possession
  | .exclusive => .exclusive
  | .shared => .shared
  | .optimistic => .shared

/-- What the functor finds in the frame, on the node `self` for a page of `owner`. -/
def Access.functor (t : Access) (self owner : NodeID) (f : Frame W C) : GuardState :=
  let change := if owner = self then .localPossessionChange else .remotePossessionChange
  match t with
  | .exclusive =>
    if f.possession ≠ .exclusive ∨ f.isPossessor self = false then change else .initialized
  | .shared => if f.isPossessor self = false then change else .initialized
  | .optimistic => if f.isPossessor self = false then change else .initialized

/-- The update of the frame at the end of every cold path. -/
def Frame.complete (f : Frame W C) (self : NodeID) (t : Access) : Except Fault (Frame W C) := do
  let f ← { f with possession := t.desired }.setPossessor self
  ensure (f.isPossessor self) .ensure
  return { f with state := .hot }

/-! ## Possession requests -/

/-- `RESULT`, the results of a possession request. -/
inductive Result where
  | withPage
  | withPageSharedConflict
  | noPageExclusiveConflict
  | noPageSharedConflict
  | noPageEvicted
deriving DecidableEq, Repr

/-- `PossessionResponse`. -/
structure Response where
  result : Result
  conflictingNodeId : Possessors
  pVersion : Nat
deriving DecidableEq, Repr

/-- An answer and the page written before it, if any. -/
abbrev Reply (C : Type) := Response × Option C

/-- The end of `handlePossessionRequest`: the page is written to the requester. -/
def Frame.answerWithPage (f : Frame W C) (bmId : NodeID) (r : Result) (conflict : Possessors) :
    Except Fault (Reply C × Frame W C) := do
  let f ← f.setPossessor bmId
  ensure (f.isPossessor bmId) .ensure
  ensure f.page.isSome .ensure
  return ((⟨r, conflict, f.pVersion⟩, f.page),
    if f.state = .evicted then { f with page := none } else f)

/-- `handlePossessionRequest<SHARED>` on the frame it has latched. -/
def Frame.handleShared (f : Frame W C) (self bmId : NodeID) :
    Except Fault (Reply C × Frame W C) := do
  if f.possession = .exclusive then
    let f := { f with pVersion := f.pVersion + 1 }
    let conflict ← f.getExclusive
    if conflict = self then
      ensure (f.state = .hot) .ensure
      let f ← f.putExclusive 0
      let f ← { f with possession := .shared }.setPossessor self
      ensure (f.state = .hot) .ensure
      f.answerWithPage bmId .withPage 0
    else
      ensure (f.state = .evicted) .ensure
      ensure (!f.isPossessor self) .ensure
      let f ← f.putExclusive 0
      let f ← { f with possession := .shared }.setPossessor bmId
      return ((⟨.noPageExclusiveConflict, .ofNode conflict, f.pVersion⟩, none), f)
  else if f.state = .evicted then
    ensure (!f.isPossessor self) .ensure
    let shared ← f.getShared
    let f ← f.setPossessor bmId
    return ((⟨.noPageEvicted, shared, f.pVersion⟩, none), f)
  else
    f.answerWithPage bmId .withPage 0

/-- `handlePossessionRequest<EXCLUSIVE>` on the frame it has latched. -/
def Frame.handleExclusive (f : Frame W C) (self bmId : NodeID) :
    Except Fault (Reply C × Frame W C) := do
  let f := { f with pVersion := f.pVersion + 1, dirty := true }
  if f.possession = .shared then
    let f ← f.putShared (f.possessors.reset self)
    if f.possessors.any then
      if f.state = .evicted then
        let conflict := f.possessors
        let f ← { f with possession := .exclusive }.setPossessor bmId
        return ((⟨.noPageSharedConflict, conflict, f.pVersion⟩, none), f)
      else
        ensure (f.state = .hot) .ensure
        { f with possession := .exclusive, state := .evicted }.answerWithPage bmId
          .withPageSharedConflict f.possessors
    else
      ensure (f.state = .hot) .ensure
      { f with possession := .exclusive, state := .evicted }.answerWithPage bmId .withPage 0
  else
    let conflict ← f.getExclusive
    if conflict ≠ self then
      ensure (f.state = .evicted) .ensure
      ensure (!f.isPossessor self) .ensure
      let f ← f.setPossessor bmId
      return ((⟨.noPageExclusiveConflict, .ofNode conflict, f.pVersion⟩, none), f)
    else
      ensure (f.state = .hot) .ensure
      { f with state := .evicted }.answerWithPage bmId .withPage 0

/-- `handlePossessionRequest` on the frame it has latched, for the modes PRX and PRS. -/
def Frame.handlePossessionRequest (f : Frame W C) (desired : Possession) (self bmId : NodeID) :
    Except Fault (Reply C × Frame W C) := do
  ensure (f.state = .hot || f.state = .evicted) .ensure
  -- the functor `Protocol` leaves LOCAL_POSSESSION_CHANGE
  ensure (f.possession ≠ desired || !f.isPossessor bmId) .ensure
  if desired = .shared then f.handleShared self bmId else f.handleExclusive self bmId

/-- The frame the handler puts into the table when the page is on the SSD. -/
def ssdFrame (self : NodeID) (c : C) : Frame W C where
  state := .hot
  possession := .shared
  possessors := Possessors.set 0#64 self
  pVersion := 0
  mhWaiting := false
  dirty := false
  page := some c
  holder := some .handler
  readers := ∅

/-! ## Move, copy and update requests -/

/-- PMR on the latched frame: the page that is moved.  The frame is removed afterwards. -/
def Frame.handleMove (f : Frame W C) : Except Fault C :=
  match f.page with
  | some c => .ok c
  | none => .error .ensure

/-- PCR on the frame latched in shared mode: `none` is `CopyFailedWithRestart`. -/
def Frame.handleCopy (f : Frame W C) (pVersion : Nat) : Except Fault (Option C) := do
  if f.mhWaiting ∧ f.state ≠ .hot then
    ensure (f.state = .ioRdma) .ensure
    return none
  ensure (f.possession = .shared) .ensure
  ensure (f.pVersion = pVersion) .ensure
  ensure f.page.isSome .ensure
  return f.page

/-- `PossessionUpdateResponse`. -/
inductive UpdateResponse where
  | failed
  | succeed (pVersion : Nat)
  | succeedWithSharedConflict (pVersion : Nat) (conflictingNodeId : Possessors)
deriving DecidableEq, Repr

/-- PUR on the latched frame, when the versions agree. -/
def Frame.handleUpdate (f : Frame W C) (self bmId : NodeID) (pVersion : Nat) :
    Except Fault (UpdateResponse × Frame W C) := do
  ensure (f.pVersion = pVersion) .ensure
  let shared ← f.getShared
  ensure (shared.test bmId) .ensure
  let f := { f with pVersion := f.pVersion + 1 }
  let f ← f.putShared (f.possessors.reset self)
  let response := if f.possessors.any then
    .succeedWithSharedConflict f.pVersion f.possessors else .succeed f.pVersion
  ensure (f.state = .evicted || f.page.isSome) .ensure
  let f := if f.state = .evicted then f else { f with page := none, state := .evicted }
  let f ← { f with possession := .exclusive }.setPossessor bmId
  let f := { f with dirty := true }
  ensure (f.isPossessor bmId) .ensure
  return (response, { f with mhWaiting := false })

/-- RAR: the owner's frame for a page allocated by the node `bmId`. -/
def allocatedFrame (bmId : NodeID) : Frame W C where
  state := .evicted
  possession := .exclusive
  possessors := .ofNode bmId
  pVersion := 0
  mhWaiting := false
  dirty := true
  page := none
  holder := none
  readers := ∅

/-- The frame of `newPage` and `newRemotePage`, latched by its worker. -/
def newFrame (self : NodeID) (w : W) (c : C) : Frame W C where
  state := .hot
  possession := .exclusive
  possessors := .ofNode self
  pVersion := 0
  mhWaiting := false
  dirty := true
  page := some c
  holder := some (.worker w)
  readers := ∅

/-! ## The page provider -/

/-- What the page provider does with a frame of the owner. -/
inductive Eviction (W C : Type) where
  | unlatch (f : Frame W C)
  | remove
  /-- A READ of the requester's page is posted; the frame stays latched. -/
  | retrieve (f : Frame W C)

/-- Phase 1: whether the page has to be read, and the new possessors. -/
def Frame.dropPossessor (f : Frame W C) (ssd : Bool) (self bmId : NodeID) :
    Except Fault (Bool × Frame W C) :=
  if ssd then
    if f.dirty then
      match f.possession with
      | .exclusive => do return (true, ← f.putExclusive self)
      | .shared => do return (true, ← f.putShared ((f.possessors.reset bmId).set self))
      | .nobody => .error .ensure
    else
      .ok (false, f)
  else
    match f.possession with
    | .shared => do
      ensure (f.possessors.test bmId) .ensure
      let f ← f.putShared (f.possessors.reset bmId)
      if f.possessors.any then
        return (false, f)
      else
        return (true, ← f.putShared (f.possessors.set self))
    | .exclusive => do
      ensure (f.possessors.toNode = bmId) .ensure
      return (true, ← f.putExclusive self)
    | .nobody => .ok (false, f)

/-- Phase 1: the answer to an entry whose version agrees.  A page that the owner has no longer is
read into one of the private page buffer, which holds `c`. -/
def Frame.answerEviction (f : Frame W C) (ssd : Bool) (self bmId : NodeID) (c : C) :
    Except Fault (Eviction W C) := do
  let (needRead, f) ← f.dropPossessor ssd self bmId
  if needRead then
    ensure (f.state ≠ .evicted || f.page.isNone) .ensure
    return .retrieve { f with
      page := if f.state = .evicted then some c else f.page
      state := .hot
      dirty := true }
  else
    ensure (f.possession = .shared) .ensure
    let f ← f.putShared (f.possessors.reset bmId)
    if f.possessors.any then
      return .unlatch f
    else
      ensure (f.state = .evicted) .ensure
      ensure f.page.isNone .ensure
      return .remove

/-- `evict_owner_page` on the latched frame; `dice` is the second chance of a page that only
its owner possesses.  A dirty page is written back first (`ssd`). -/
def Frame.evictOwnerPage (f : Frame W C) (ssd dice : Bool) (self : NodeID) :
    Except Fault (Eviction W C) := do
  if ssd ∧ f.dirty then
    return .unlatch f
  if ssd ∧ f.state = .hot ∧ f.possession = .exclusive ∧ f.isPossessor self then
    return .remove
  if f.state = .hot ∧ f.possession = .shared ∧ f.isPossessor self ∧ f.possessors.count = 1 then
    if ssd ∧ dice then return .remove else return .unlatch f
  if f.state = .hot ∧ f.possession = .shared then
    let f ← f.putShared (f.possessors.reset self)
    ensure f.possessors.any .ensure
    return .unlatch { f with page := none, state := .evicted }
  return .unlatch f

/-! ## The cold path of `fix` -/

/-- How a worker that has latched its frame goes on to get hold of the page. -/
inductive Plan where
  /-- `movePageRnd` or a single exclusive conflict: the page moves from a node of the set. -/
  | move (shared : Possessors)
  /-- `invalidateSharedConflicts`. -/
  | invalidate (shared : Possessors)
  /-- `copyPageRnd`. -/
  | copy (shared : Possessors)
  /-- The page is there. -/
  | complete
deriving DecidableEq, Repr

/-- LOCAL_POSSESSION_CHANGE up to its first message; `c` is what a page from the free list
holds. -/
def Frame.localChange (f : Frame W C) (self : NodeID) (t : Access) (c : C) :
    Except Fault (Plan × Frame W C) := do
  ensure (f.possession ≠ .nobody) .ensure
  let f := if f.state = .evicted then { f with page := some c } else f
  if f.possession = .exclusive then
    let f := { f with pVersion := f.pVersion + 1 }
    let conflict ← f.getExclusive
    return (.move (Possessors.set 0#64 conflict), f)
  else if t = .exclusive then
    let f := { f with pVersion := f.pVersion + 1 }
    let f ← f.putShared (f.possessors.reset self)
    if f.state = .evicted ∧ f.possessors.any then
      return (.move f.possessors, f)
    else
      return (.invalidate f.possessors, f)
  else
    ensure (f.state = .evicted) .ensure
    let shared ← f.getShared
    ensure shared.any .ensure
    return (.copy shared, f)

/-- REMOTE_POSSESSION_CHANGE up to its message: the version the request carries. -/
def Frame.remoteChange (f : Frame W C) : Except Fault (Nat × Frame W C) := do
  ensure (f.possession = .shared) .ensure
  ensure (f.state = .hot) .ensure
  return (f.pVersion, { f with pVersion := f.pVersion + 1 })

/-- REMOTE: how the worker goes on after the owner's response. -/
def Response.plan (r : Response) : Except Fault Plan :=
  match r.result with
  | .withPage => .ok .complete
  | .noPageExclusiveConflict => .ok (.move (Possessors.set 0#64 r.conflictingNodeId.toNode))
  | .noPageSharedConflict => do
    ensure r.conflictingNodeId.any .ensure
    return .move r.conflictingNodeId
  | .withPageSharedConflict => do
    ensure r.conflictingNodeId.any .ensure
    return .invalidate r.conflictingNodeId
  | .noPageEvicted => do
    ensure r.conflictingNodeId.any .ensure
    return .copy r.conflictingNodeId

end ScaleStore.Protocol
