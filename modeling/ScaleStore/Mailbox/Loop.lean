/-
# The message handler's loop over its mailboxes

One message handler thread serves a partition of client mailboxes.  Every round
visits each mailbox once, starting one further than the round before; a set
mailbox is cleared, its request is handled, and the request is then answered,
put back into the mailbox, or parked until a page has been read from the SSD.

Which of these happens is decided by the cases of the switch in
`MessageHandler::startThread`.  They are stated on what the lookup of the frame
returned and rest on the frame functions of the possession protocol.
-/

import ScaleStore.Protocol.Handlers
import Mathlib.Order.WithBot
import Mathlib.Logic.Function.Basic

namespace ScaleStore.Mailbox

open ScaleStore.Protocol (NodeID Frame Fault Possession Response)

abbrev PID := Nat

/-! ## Rotation -/

/-- The two indices of the inner loop and the offset of the current round. -/
structure Rotation where
  startPosition : Nat
  m_i : Nat
  mailboxIdx : Nat
deriving DecidableEq, Repr

namespace Rotation

def start : Rotation := ⟨0, 0, 0⟩

/-- The mailbox a pass of the loop looks at: `mailboxIdx` wraps around. -/
def index (numberMailboxes : Nat) (r : Rotation) : Nat :=
  if numberMailboxes ≤ r.mailboxIdx then 0 else r.mailboxIdx

/-- `m_i++, mailboxIdx++`. -/
def advance (numberMailboxes : Nat) (r : Rotation) : Rotation :=
  { r with m_i := r.m_i + 1, mailboxIdx := r.index numberMailboxes + 1 }

/-- `mailboxIdx = ++startPosition`. -/
def nextRound (r : Rotation) : Rotation := ⟨r.startPosition + 1, 0, r.startPosition + 1⟩

end Rotation

/-! ## Requests and what becomes of them -/

/-- `MESSAGE_TYPE`, the requests of a client. -/
inductive MessageType where
  | finish
  | dr
  | prx
  | prs
  | pmr
  | pcr
  | pur
  | rar
deriving DecidableEq, Repr

/-- The fields of a request that decide what becomes of it. -/
structure Request where
  type : MessageType
  pid : PID
  pVersion : Nat
deriving DecidableEq, Repr

/-- What `findFrame` or `findFrameOrInsert` returned, with the frame of the guard. -/
inductive Lookup (W C : Type) where
  /-- `NOT_FOUND` or `UNINITIALIZED`: there is no frame. -/
  | notFound
  /-- `RETRY`: the latch was not granted. -/
  | retry (f : Frame W C)
  /-- `SSD`: a latched frame was inserted, its page is to be read. -/
  | ssd (f : Frame W C)
  | latched (f : Frame W C)

/-- What a branch of the switch may do with the request. -/
inductive Effect where
  /-- A response is written; for PRX and PRS it is the possession response. -/
  | respond (r : Option Response)
  /-- `mailboxes[mailboxIdx] = 1`. -/
  | rearm
  /-- The frame goes into the asynchronous read buffer, along with the mailbox. -/
  | recheck
  /-- `Finish` is not answered. -/
  | finish
deriving DecidableEq, Repr

section Cases

variable {W C : Type}

/-- PRX and PRS. -/
def possessionCase (desired : Possession) (self bmId : NodeID) :
    Lookup W C → Except Fault (List Effect)
  | .notFound => .error .ensure
  | .retry _ => .ok [.rearm]
  | .ssd _ => .ok [.recheck]
  | .latched f =>
      if f.state = .invalidationExpected then .ok [.rearm]
      else match f.handlePossessionRequest desired self bmId with
        | .ok ((r, _), _) => .ok [.respond (some r)]
        | .error e => .error e

def moveCase : Lookup W C → Except Fault (List Effect)
  | .retry _ => .ok [.rearm]
  | .latched f =>
      match f.handleMove with
      | .ok _ => .ok [.respond none]
      | .error e => .error e
  | _ => .error .ensure

/-- PCR, with the retries of the connection before and after it. -/
def copyCase (maxRetries pVersion retries : Nat) : Lookup W C → Except Fault (List Effect × Nat)
  | .notFound => .ok ([.respond none], 0)
  | .retry f =>
      if f.pVersion = pVersion ∧ retries < maxRetries then .ok ([.rearm], retries + 1)
      else .ok ([.respond none], 0)
  | .latched f =>
      match f.handleCopy pVersion with
      | .ok _ => .ok ([.respond none], 0)
      | .error e => .error e
  | .ssd _ => .error .ensure

def updateCase (self bmId : NodeID) (pVersion : Nat) : Lookup W C → Except Fault (List Effect)
  | .retry f =>
      if f.pVersion = pVersion then .ok [.rearm]
      else if pVersion < f.pVersion then .ok [.respond none]
      else .error .ensure
  | .latched f =>
      if pVersion < f.pVersion then .ok [.respond none]
      else match f.handleUpdate self bmId pVersion with
        | .ok _ => .ok [.respond none]
        | .error e => .error e
  | _ => .error .ensure

/-- The retries stay as they are. -/
def keepRetries (retries : Nat) (r : Except Fault (List Effect)) :
    Except Fault (List Effect × Nat) := r.map fun effects => (effects, retries)

/-- The switch over the type of the request: what is done, in order. -/
def dispatch (maxRetries : Nat) (self bmId : NodeID) (req : Request) (retries : Nat)
    (found : Lookup W C) : Except Fault (List Effect × Nat) :=
  match req.type with
  | .finish => .ok ([.finish], retries)
  | .dr => .ok ([.respond none], retries)
  | .prx => keepRetries retries (possessionCase .exclusive self bmId found)
  | .prs => keepRetries retries (possessionCase .shared self bmId found)
  | .pmr => keepRetries retries (moveCase found)
  | .pcr => copyCase maxRetries req.pVersion retries found
  | .pur => keepRetries retries (updateCase self bmId req.pVersion found)
  | .rar => .ok ([.respond none], retries)

/-! ## One thing per request -/

/-- The request is answered, put back or parked: one of these, and once. -/
def Once (effects : List Effect) : Prop := ∃ e, effects = [e] ∧ e ≠ .finish

section Once

variable {maxRetries pVersion retries retries' : Nat} {desired : Possession} {self bmId : NodeID}
  {found : Lookup W C} {effects : List Effect}

theorem once_of_eq {e : Effect} (h : (.ok [e] : Except Fault (List Effect)) = .ok effects)
    (he : e ≠ .finish) : Once effects :=
  ⟨e, (Except.ok.inj h).symm, he⟩

theorem possessionCase_once (h : possessionCase desired self bmId found = .ok effects) :
    Once effects := by
  cases found with
  | notFound => cases h
  | retry f | ssd f => exact once_of_eq h nofun
  | latched f =>
    simp only [possessionCase] at h
    split at h
    · exact once_of_eq h nofun
    · split at h
      · exact once_of_eq h nofun
      · cases h

theorem moveCase_once (h : moveCase found = .ok effects) : Once effects := by
  cases found with
  | notFound | ssd f => cases h
  | retry f => exact once_of_eq h nofun
  | latched f =>
    simp only [moveCase] at h
    split at h
    · exact once_of_eq h nofun
    · cases h

theorem copyCase_once (h : copyCase maxRetries pVersion retries found = .ok (effects, retries')) :
    Once effects := by
  have hfirst : (copyCase maxRetries pVersion retries found).map Prod.fst = .ok effects := by
    rw [h]
    rfl
  cases found with
  | notFound => exact once_of_eq hfirst nofun
  | ssd f => cases h
  | retry f =>
    simp only [copyCase] at hfirst
    split at hfirst <;> exact once_of_eq hfirst nofun
  | latched f =>
    simp only [copyCase] at hfirst
    split at hfirst
    · exact once_of_eq hfirst nofun
    · cases hfirst

theorem updateCase_once (h : updateCase self bmId pVersion found = .ok effects) :
    Once effects := by
  cases found with
  | notFound | ssd f => cases h
  | retry f =>
    simp only [updateCase] at h
    split at h
    · exact once_of_eq h nofun
    · split at h
      · exact once_of_eq h nofun
      · cases h
  | latched f =>
    simp only [updateCase] at h
    split at h
    · exact once_of_eq h nofun
    · split at h
      · exact once_of_eq h nofun
      · cases h

theorem keepRetries_eq {r : Except Fault (List Effect)}
    (h : keepRetries retries r = .ok (effects, retries')) : r = .ok effects := by
  cases r with
  | error e => cases h
  | ok es => rw [(Prod.mk.inj (Except.ok.inj h)).1]

/-- No branch does two things with a request or nothing, and `Finish` only is just let through. -/
theorem dispatch_once {req : Request}
    (h : dispatch maxRetries self bmId req retries found = .ok (effects, retries')) :
    (req.type = .finish ∧ effects = [.finish]) ∨ (req.type ≠ .finish ∧ Once effects) := by
  rw [dispatch] at h
  cases htype : req.type with
  | finish =>
    rw [htype] at h
    exact .inl ⟨rfl, (Prod.mk.inj (Except.ok.inj h)).1.symm⟩
  | dr | rar =>
    rw [htype] at h
    exact .inr ⟨nofun, _, (Prod.mk.inj (Except.ok.inj h)).1.symm, nofun⟩
  | prx | prs =>
    rw [htype] at h
    exact .inr ⟨nofun, possessionCase_once (keepRetries_eq h)⟩
  | pmr =>
    rw [htype] at h
    exact .inr ⟨nofun, moveCase_once (keepRetries_eq h)⟩
  | pcr =>
    rw [htype] at h
    exact .inr ⟨nofun, copyCase_once h⟩
  | pur =>
    rw [htype] at h
    exact .inr ⟨nofun, updateCase_once (keepRetries_eq h)⟩

end Once

end Cases

/-! ## The thread -/

/-- `EMPTY_PID`, the largest value of its type. -/
def emptyPid : WithTop PID := ⊤

/-- `InflightCopyRequest`. -/
structure InflightCopyRequest where
  inflight : Bool
  pid : WithTop PID
  pVersion : Nat
deriving DecidableEq

namespace InflightCopyRequest

def unregistered : InflightCopyRequest := ⟨false, emptyPid, 0⟩

def registered (pid : PID) (pVersion : Nat) : InflightCopyRequest :=
  ⟨true, WithTop.some pid, pVersion⟩

end InflightCopyRequest

/-- The state of one handler thread, its partition and the connections of its clients. -/
structure Thread where
  rotation : Rotation
  mailboxes : Nat → Bool
  inflightCRs : Nat → InflightCopyRequest
  /-- `ctx.request`, which the client writes before it sets the mailbox. -/
  request : Nat → Request
  /-- `ctx.retries`. -/
  retries : Nat → Nat
  /-- The client whose request is being handled. -/
  handling : Option Nat
  /-- The client slots of the reads under way in the asynchronous read buffer. -/
  asyncReads : List Nat

namespace Thread

variable (numberMailboxes : Nat) (t : Thread)

def start (request : Nat → Request) : Thread where
  rotation := .start
  mailboxes := fun _ => false
  inflightCRs := fun _ => .unregistered
  request := request
  retries := fun _ => 0
  handling := none
  asyncReads := []

/-- The mailbox the current pass of the loop is at. -/
def current : Nat := t.rotation.index numberMailboxes

/-- A client's request arrives. -/
def writeRequest (c : Nat) (req : Request) : Thread :=
  { t with request := Function.update t.request c req }

/-- The flag behind it arrives. -/
def setMailbox (c : Nat) : Thread := { t with mailboxes := Function.update t.mailboxes c true }

/-- Both together. -/
def post (c : Nat) (req : Request) : Thread := (t.writeRequest c req).setMailbox c

/-- The pass finds its mailbox empty. -/
def skip : Thread := { t with rotation := t.rotation.advance numberMailboxes }

/-- The pass clears its mailbox and resets the copy request registered at `m_i`. -/
def take : Thread :=
  { t with
    mailboxes := Function.update t.mailboxes (t.current numberMailboxes) false
    inflightCRs :=
      if (t.inflightCRs t.rotation.m_i).inflight then
        Function.update t.inflightCRs t.rotation.m_i .unregistered
      else t.inflightCRs
    handling := some (t.current numberMailboxes) }

/-- The copy request that a response makes the handler register. -/
def copyOf (req : Request) : Effect → Option (PID × Nat)
  | .respond (some r) => if r.result = .noPageEvicted then some (req.pid, r.pVersion) else none
  | _ => none

/-- What an effect on the request of client `c` leaves behind. -/
def perform (c : Nat) (t : Thread) (e : Effect) : Thread :=
  { t with
    mailboxes := if e = .rearm then Function.update t.mailboxes c true else t.mailboxes
    inflightCRs :=
      match copyOf (t.request c) e with
      | some (pid, pVersion) => Function.update t.inflightCRs c (.registered pid pVersion)
      | none => t.inflightCRs
    asyncReads := if e = .recheck then c :: t.asyncReads else t.asyncReads }

/-- The end of the pass that handles the request of client `c`. -/
def conclude (c : Nat) (effects : List Effect) (retries : Nat) : Thread :=
  { effects.foldl (perform c) t with
    rotation := t.rotation.advance numberMailboxes
    retries := Function.update t.retries c retries
    handling := none }

/-- The callback of a finished read sets the mailbox that was passed along. -/
def readDone (c : Nat) : Thread :=
  { t with
    mailboxes := Function.update t.mailboxes c true
    asyncReads := t.asyncReads.erase c }

def nextRound : Thread := { t with rotation := t.rotation.nextRound }

/-- The inner loop is over. -/
def AtEnd : Prop := t.handling = none ∧ numberMailboxes ≤ t.rotation.m_i

/-- The inner loop is about to look at a mailbox. -/
def AtMailbox : Prop := t.handling = none ∧ t.rotation.m_i < numberMailboxes

instance : Decidable (t.AtEnd numberMailboxes) :=
  inferInstanceAs (Decidable (t.handling = none ∧ numberMailboxes ≤ t.rotation.m_i))

instance : Decidable (t.AtMailbox numberMailboxes) :=
  inferInstanceAs (Decidable (t.handling = none ∧ t.rotation.m_i < numberMailboxes))

end Thread

end ScaleStore.Mailbox
