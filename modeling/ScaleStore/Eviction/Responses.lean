/-
# Sending eviction responses

One connection of a page provider thread.  A request from the other end is
answered in three moves: phase 1 latches the frames and posts one RDMA read for
each page, the last one signaled; phase 6 waits for the completion of that read;
then the response is written and the frames are unlatched.

The completions of reads and of writes come out of one queue.  The two functions
that write a message poll it when the write was signaled, and hand a completed
read over to phase 6 by the flag `readCompleted`.  They look at the polled struct
whether or not the poll found anything.
-/

import ScaleStore.Eviction.Handshake
import ScaleStore.Lib.System

namespace ScaleStore.Responses

variable {F : Type}

def maxOutstandingWrites : Nat := 32

/-- The `wr_id` of reads; that of writes is 0. -/
def WR_READ_ID : UInt64 := 99

/-- What has been posted to the send queue.  A read says which request it is for and which
frame's page it fills. -/
inductive Work (F : Type) where
  | write (signaled : Bool)
  | read (request : Nat) (frame : F) (signaled : Bool)
deriving DecidableEq, Repr

namespace Work

def wr_id : Work F → UInt64
  | .write _ => 0
  | .read _ _ _ => WR_READ_ID

def signaled : Work F → Bool
  | .write signaled => signaled
  | .read _ _ signaled => signaled

def isRead : Work F → Bool
  | .write _ => false
  | .read _ _ _ => true

end Work

inductive Message
  | request
  | response
deriving DecidableEq, Repr

/-- Where the thread is in its main loop. -/
inductive Pc
  | phase1
  | phase4
  | phase5
  | phase6
  /-- In `rdmaReadBuffer.pollCompletion`, before poll `i`. -/
  | pollRead (i : Nat)
  /-- The flags are reset, `writeResponse` is next. -/
  | respond
  /-- In the `while (comp == 0)` of `writeRequest` or `writeResponse`. -/
  | pollWrite (m : Message)
  /-- `writeResponse` has returned. -/
  | unlatch
deriving DecidableEq, Repr

/-- A `ConnectionContext` with its queue pair, and what the other end has sent and expects. -/
structure State (F : Type) where
  pc : Pc
  responseExpected : Bool
  readScheduled : Bool
  responseOutstanding : Bool
  readCompleted : Bool
  pollCompleted : Bool
  wqe : Nat
  /-- The first `elements` entries of `rdmaReadBuffer`. -/
  readBuffer : List F
  latchedFrames : List F
  /-- The requests taken so far. -/
  requests : Nat
  /-- Posted and not yet completed, the oldest first. -/
  sendQueue : List (Work F)
  /-- Completed and not yet polled. -/
  sendCq : List UInt64
  mailbox : Bool
  respMailbox : Bool
  /-- The other end has our request and has not answered it. -/
  asked : Bool
  /-- `responseExpected` of the other end. -/
  peerExpects : Bool
  /-- Our response is in the other end's mailbox. -/
  peerResponse : Bool
deriving DecidableEq, Repr

/-- `rdma::pollCompletion` for one completion: how many there were, the `wr_id` in the struct
afterwards, and the queue.  An empty queue leaves the struct with `left`. -/
def pollCompletion (cq : List UInt64) (left : UInt64) : Nat × UInt64 × List UInt64 :=
  match cq with
  | [] => (0, left, [])
  | wr_id :: rest => (1, wr_id, rest)

/-- `postRead`: only the last read of the list is signaled. -/
def postRead (request : Nat) : List F → List (Work F)
  | [] => []
  | [f] => [.read request f true]
  | f :: fs => .read request f false :: postRead request fs

namespace State

/-- What the caller does after the message is written. -/
def written (s : State F) : Message → State F
  | .request => { s with responseExpected := true, pc := .phase5 }
  | .response => { s with pc := .unlatch }

/-- `writeRequest` and `writeResponse` up to their polls. -/
def writeMsg (s : State F) (m : Message) : State F :=
  let signaled := s.wqe == maxOutstandingWrites
  let s := { s with sendQueue := s.sendQueue ++ [Work.write signaled] }
  if signaled && !s.pollCompleted then { s with pc := .pollWrite m }
  else { s with wqe := s.wqe + 1 }.written m

/-- One turn of their `while (comp == 0)`, and the rest of them when it was the last. -/
def pollWrite (s : State F) (m : Message) (left : UInt64) : State F :=
  let (comp, wr_id, cq) := pollCompletion s.sendCq left
  let s := { s with sendCq := cq }
  if wr_id = WR_READ_ID then { s with readCompleted := true }
  else if comp = 0 then s
  else { s with wqe := 0 + 1, pollCompleted := false }.written m

/-- Phase 6 once no read is missing. -/
def answer (s : State F) : State F :=
  if s.responseOutstanding then
    { s with responseOutstanding := false, readScheduled := false, readCompleted := false,
             pc := .respond }
  else { s with pc := .phase1 }

/-- Phase 6 up to the polls. -/
def phase6 (s : State F) : State F :=
  if s.readScheduled then
    if s.readCompleted then { s with readBuffer := [] }.answer
    else { s with pc := .pollRead 0 }
  else s.answer

/-- One turn of the loop in `rdmaReadBuffer.pollCompletion`. -/
def pollRead (s : State F) (i : Nat) (left : UInt64) : State F :=
  let (comp, wr_id, cq) := pollCompletion s.sendCq left
  let s := { s with sendCq := cq }
  if 0 < comp ∧ wr_id = WR_READ_ID then { s with readBuffer := [], wqe := 0 }.answer
  else
    let s := if 0 < comp then { s with pollCompleted := true } else s
    if i + 1 < 2 then { s with pc := .pollRead (i + 1) } else { s with pc := .phase1 }

/-- Phase 1 for a request of which `frames` have to be read. -/
def takeRequest (s : State F) (frames : List F) : State F :=
  let s := { s with
    mailbox := false, responseOutstanding := true, requests := s.requests + 1,
    latchedFrames := s.latchedFrames ++ frames, readBuffer := s.readBuffer ++ frames,
    pc := .phase4 }
  if s.readBuffer = [] then s
  else { s with sendQueue := s.sendQueue ++ postRead s.requests s.readBuffer,
                readScheduled := true }

end State

/-! ## Runs -/

/-- What the thread does next, what the network card does, and what the other end does. -/
inductive Event (F : Type) where
  | skipRequest
  | takeRequest (frames : List F)
  | skipSend
  | sendRequest
  | phase5
  | phase6
  | respond
  /-- A poll; on an empty queue it leaves `left` in the struct. -/
  | poll (left : UInt64)
  | unlatch
  /-- The oldest work of the send queue completes. -/
  | complete
  | peerRequests
  | peerAnswers
  | peerTakes

/-- One event, if it can happen. -/
def next (s : State F) : Event F → Option (State F)
  | .skipRequest => if s.pc = .phase1 then some { s with pc := .phase4 } else none
  | .takeRequest frames =>
      if s.pc = .phase1 ∧ s.mailbox = true ∧ frames.length ≤ Eviction.batchSize then
        some (s.takeRequest frames)
      else none
  | .skipSend => if s.pc = .phase4 then some { s with pc := .phase5 } else none
  | .sendRequest =>
      if s.pc = .phase4 ∧ s.responseExpected = false then
        some ({ s with asked := true }.writeMsg .request)
      else none
  | .phase5 =>
      if s.pc = .phase5 then
        if s.respMailbox then
          -- `ensure(responseExpected)`
          if s.responseExpected then
            some { s with respMailbox := false, responseExpected := false, pc := .phase6 }
          else none
        else some { s with pc := .phase6 }
      else none
  | .phase6 => if s.pc = .phase6 then some s.phase6 else none
  | .respond =>
      if s.pc = .respond then some ({ s with peerResponse := true }.writeMsg .response) else none
  | .poll left =>
      match s.pc with
      | .pollRead i => some (s.pollRead i left)
      | .pollWrite m => some (s.pollWrite m left)
      | _ => none
  | .unlatch =>
      if s.pc = .unlatch then some { s with latchedFrames := [], pc := .phase1 } else none
  | .complete =>
      match s.sendQueue with
      | [] => none
      | w :: rest =>
          some { s with
            sendQueue := rest
            sendCq := if w.signaled then s.sendCq ++ [w.wr_id] else s.sendCq }
  | .peerRequests =>
      -- phase 4 of the other end sends nothing while a response is expected
      if s.peerExpects = false then some { s with mailbox := true, peerExpects := true } else none
  | .peerAnswers =>
      if s.asked then some { s with asked := false, respMailbox := true } else none
  | .peerTakes =>
      if s.peerResponse then some { s with peerResponse := false, peerExpects := false } else none

def start : State F where
  pc := .phase1
  responseExpected := false
  readScheduled := false
  responseOutstanding := false
  readCompleted := false
  pollCompleted := false
  wqe := 0
  readBuffer := []
  latchedFrames := []
  requests := 0
  sendQueue := []
  sendCq := []
  mailbox := false
  respMailbox := false
  asked := false
  peerExpects := false
  peerResponse := false

/-- All runs of a connection in which every event is `ok`. -/
def connection (F : Type) (ok : State F → Event F → Prop) : System (State F) where
  Init s := s = start
  Step s s' := ∃ e, ok s e ∧ next s e = some s'

def Pc.polling : Pc → Bool
  | .pollWrite _ => true
  | _ => false

/-- What a poll of an empty queue leaves in the struct. -/
def Event.leaves : Event F → Option UInt64
  | .poll left => some left
  | _ => none

/-- The poll of a message's write finds nothing, no response is outstanding, and the struct is
left looking like a completed read. -/
def Misread (s : State F) (e : Event F) : Prop :=
  s.pc.polling = true ∧ s.sendCq = [] ∧ e.leaves = some WR_READ_ID ∧ s.responseOutstanding = false

instance (s : State F) (e : Event F) : Decidable (Misread s e) :=
  inferInstanceAs (Decidable (_ ∧ _ ∧ _ ∧ _))

/-- Phase 6 has started to answer. -/
def Pc.answering : Pc → Bool
  | .respond | .pollWrite .response | .unlatch => true
  | _ => false

/-- What the flags are for. -/
structure Sound (s : State F) : Prop where
  /-- No read for the request that is answered is under way, the signaled one included. -/
  answered : s.pc.answering = true → ∀ f signaled, Work.read s.requests f signaled ∉ s.sendQueue
  /-- A new request starts without a completed read. -/
  fresh : s.pc = .phase1 → s.mailbox = true → s.readCompleted = false

/-! ## Completions to come -/

namespace State

variable {s : State F}

/-- The completions that polls are still to find, in their order. -/
def completions (s : State F) : List UInt64 :=
  s.sendCq ++ (s.sendQueue.filter Work.signaled).map Work.wr_id

/-- No read is left behind the last signaled one. -/
def ReadsClosed (s : State F) : Prop :=
  ∀ w, (s.sendQueue.filter Work.isRead).getLast? = some w → w.signaled = true

end State

theorem signaled_postRead (request : Nat) {frames : List F} (h : frames ≠ []) :
    ((postRead request frames).filter Work.signaled).map Work.wr_id = [WR_READ_ID] := by
  induction frames with
  | nil => exact absurd rfl h
  | cons f fs ih =>
    cases fs with
    | nil => rfl
    | cons g fs => simpa [postRead, Work.signaled] using ih (List.cons_ne_nil g fs)

theorem getLast_postRead (request : Nat) {frames : List F} (h : frames ≠ []) :
    ∃ f, ((postRead request frames).filter Work.isRead).getLast? = some (.read request f true) := by
  induction frames with
  | nil => exact absurd rfl h
  | cons f fs ih =>
    cases fs with
    | nil => exact ⟨f, rfl⟩
    | cons g fs =>
      obtain ⟨last, hlast⟩ := ih (List.cons_ne_nil g fs)
      have hcons : postRead request (f :: g :: fs) =
        .read request f false :: postRead request (g :: fs) := rfl
      exact ⟨last, by rw [hcons, List.filter_cons_of_pos rfl, List.getLast?_cons, hlast]; rfl⟩

/-- When no completion of a read is to come, no read is under way. -/
theorem State.ReadsClosed.none {s : State F} (h : s.ReadsClosed)
    (hnone : WR_READ_ID ∉ s.completions) : ∀ w ∈ s.sendQueue, w.isRead = false := by
  intro w hw
  by_contra hread
  have hne : s.sendQueue.filter Work.isRead ≠ [] :=
    List.ne_nil_of_mem (List.mem_filter.mpr ⟨hw, by simpa using hread⟩)
  obtain ⟨last, hlast⟩ := Option.isSome_iff_exists.mp (List.getLast?_isSome.mpr hne)
  obtain ⟨hmem, hisRead⟩ := List.mem_filter.mp (List.mem_of_getLast? hlast)
  have hsignaled := h last hlast
  apply hnone
  refine List.mem_append_right _ (List.mem_map.mpr ⟨last, ?_, ?_⟩)
  · exact List.mem_filter.mpr ⟨hmem, hsignaled⟩
  · cases last with
    | write signaled => cases hisRead
    | read request frame signaled => rfl

/-! ## The invariant -/

/-- What the flags say about the completions to come; `pending` tells whether that of a read is
one of them. -/
structure Flags (s : State F) (pending : Bool) : Prop where
  completions : s.completions =
    (if pending then [WR_READ_ID] else []) ++ (if s.pc.polling then [0] else [])
  scheduled : pending = true → s.readScheduled = true
  handedOver : s.readScheduled = true → pending = true ∨ s.readCompleted = true
  waited : s.pc.polling = false → pending = true → s.readCompleted = false
  outstanding : s.readScheduled = true ∨ s.readCompleted = true → s.responseOutstanding = true
  waits : ∀ i, s.pc = .pollRead i → pending = true
  answering : s.pc.answering = true → s.responseOutstanding = false
  polled : s.pollCompleted = false
  buffer : s.readBuffer ≠ [] → s.readScheduled = true
  reads : s.ReadsClosed

def Pc.owed : Pc → Nat
  | .respond => 1
  | _ => 0

/-- In how many places the other end's request is: its mailbox, outstanding, about to be
answered, answered. -/
def State.places (s : State F) : Nat :=
  s.mailbox.toNat + s.responseOutstanding.toNat + s.pc.owed + s.peerResponse.toNat

/-- The other end waits for one request at a time. -/
def OneRequest (s : State F) : Prop := s.places = s.peerExpects.toNat

/-- A request in the mailbox is the only one. -/
theorem OneRequest.not_outstanding {s : State F} (h : OneRequest s) (hmail : s.mailbox = true) :
    s.responseOutstanding = false := by
  by_contra hout
  have := Bool.toNat_le s.peerExpects
  simp only [OneRequest, State.places, hmail, Bool.not_eq_false] at h hout
  simp only [hout, Bool.toNat_true] at h
  omega

def Inv (s : State F) : Prop := OneRequest s ∧ ∃ pending, Flags s pending

theorem Inv.sound {s : State F} (h : Inv s) : Sound s := by
  obtain ⟨hone, pending, flags⟩ := h
  refine ⟨fun hpc f signaled hmem => ?_, fun hpc hmail => ?_⟩
  · have hout := flags.answering hpc
    have hpending : pending = false := by
      by_contra hp
      have := flags.outstanding (.inl (flags.scheduled (by simpa using hp)))
      simp [hout] at this
    have hnone : WR_READ_ID ∉ s.completions := by
      rw [flags.completions, hpending]
      cases s.pc.polling <;> decide
    exact absurd (flags.reads.none hnone _ hmem) (by simp [Work.isRead])
  · by_contra hread
    have hout := flags.outstanding (.inr (by simpa using hread))
    simp [hone.not_outstanding hmail] at hout

/-! ## Steps -/

section Steps

variable {s s' : State F} {pending : Bool}

theorem State.completions_write (b : Bool) {t : State F} (hcq : t.sendCq = s.sendCq)
    (hq : t.sendQueue = s.sendQueue ++ [.write b]) :
    t.completions = s.completions ++ (if b then [0] else []) := by
  rw [State.completions, hcq, hq, List.filter_append, List.map_append, ← List.append_assoc]
  cases b <;> rfl

theorem State.ReadsClosed.write (h : s.ReadsClosed) (b : Bool) {t : State F}
    (hq : t.sendQueue = s.sendQueue ++ [.write b]) : t.ReadsClosed := by
  intro w hw
  refine h w ?_
  simpa [hq, List.filter_append, Work.isRead] using hw

theorem Flags.writeMsg (h : Flags s pending) (m : Message) (hpc : s.pc.polling = false)
    (hm : m = .response → s.responseOutstanding = false) : Flags (s.writeMsg m) pending := by
  have hcompletions := h.completions
  have hwaited := h.waited hpc
  simp only [hpc] at hcompletions
  cases hsignaled : s.wqe == maxOutstandingWrites with
  | true =>
    have hs : s.writeMsg m =
        { s with sendQueue := s.sendQueue ++ [.write true], pc := .pollWrite m } := by
      simp [State.writeMsg, hsignaled, h.polled]
    have hwrite : (s.writeMsg m).completions = s.completions ++ [0] := by
      rw [hs]
      exact State.completions_write true rfl rfl
    rw [hs] at hwrite ⊢
    exact {
      completions := by
        rw [hwrite, hcompletions]
        simp [Pc.polling]
      scheduled := h.scheduled
      handedOver := h.handedOver
      waited := fun hp => by simp [Pc.polling] at hp
      outstanding := h.outstanding
      waits := nofun
      answering := fun hp => by cases m with
        | request => simp [Pc.answering] at hp
        | response => exact hm rfl
      polled := h.polled
      buffer := h.buffer
      reads := h.reads.write true rfl }
  | false =>
    have hs : s.writeMsg m =
        { s with sendQueue := s.sendQueue ++ [Work.write false], wqe := s.wqe + 1 }.written m := by
      simp [State.writeMsg, hsignaled]
    have hwrite : (s.writeMsg m).completions = s.completions := by
      rw [hs, ← List.append_nil s.completions]
      cases m <;> exact State.completions_write false rfl rfl
    rw [hs] at hwrite ⊢
    cases m <;> exact {
      completions := by
        rw [hwrite, hcompletions]
        simp [State.written, Pc.polling]
      scheduled := h.scheduled
      handedOver := h.handedOver
      waited := fun _ => hwaited
      outstanding := h.outstanding
      waits := nofun
      answering := fun hp => by simp_all [State.written, Pc.answering]
      polled := h.polled
      buffer := h.buffer
      reads := h.reads.write false rfl }

/-- The completion of a read that a message's poll finds goes to `readCompleted`; that of the
message's write ends the polls. -/
theorem Flags.pollWrite (h : Flags s pending) {m : Message} (left : UInt64)
    (hpc : s.pc = .pollWrite m) (hok : ¬ Misread s (.poll left)) :
    ∃ pending', Flags (s.pollWrite m left) pending' := by
  have hcompletions := h.completions
  simp only [hpc, Pc.polling, if_true] at hcompletions
  cases hcq : s.sendCq with
  | nil =>
    by_cases hleft : left = WR_READ_ID
    · have hs : s.pollWrite m left = { s with readCompleted := true } := by
        simp [State.pollWrite, pollCompletion, hcq, hleft]
      have hout : s.responseOutstanding = true := by
        by_contra hout
        exact hok ⟨by simp [hpc, Pc.polling], hcq, by simp [Event.leaves, hleft],
          by simpa using hout⟩
      rw [hs]
      exact ⟨pending, {
        h with
        handedOver := fun _ => .inr rfl
        waited := fun hp => by simp [hpc, Pc.polling] at hp
        outstanding := fun _ => hout }⟩
    · have hs : s.pollWrite m left = s := by
        cases s
        simp_all [State.pollWrite, pollCompletion]
      exact ⟨pending, by rwa [hs]⟩
  | cons wr_id cq =>
    cases pending with
    | true =>
      -- the read was posted before the write
      have hcomp : wr_id = WR_READ_ID ∧
          cq ++ (s.sendQueue.filter Work.signaled).map Work.wr_id = [0] := by
        simpa [State.completions, hcq] using hcompletions
      have hs : s.pollWrite m left = { s with sendCq := cq, readCompleted := true } := by
        simp [State.pollWrite, pollCompletion, hcq, hcomp.1]
      rw [hs]
      exact ⟨false, {
        h with
        completions := by simpa [State.completions, hpc, Pc.polling] using hcomp.2
        scheduled := nofun
        handedOver := fun _ => .inr rfl
        waited := nofun
        outstanding := fun _ => h.outstanding (.inl (h.scheduled rfl))
        waits := fun i hi => by simp [hpc] at hi }⟩
    | false =>
      have hcomp : wr_id = 0 ∧ cq = [] ∧ s.sendQueue.filter Work.signaled = [] := by
        simpa [State.completions, hcq] using hcompletions
      have hs : s.pollWrite m left =
          { s with sendCq := cq, wqe := 0 + 1, pollCompleted := false }.written m := by
        simp [State.pollWrite, pollCompletion, hcq, hcomp.1, WR_READ_ID]
      have hans : m = .response → s.responseOutstanding = false := by
        rintro rfl
        exact h.answering (by simp [hpc, Pc.answering])
      rw [hs]
      refine ⟨false, ?_⟩
      cases m <;> exact {
        completions := by
          simp [State.completions, State.written, Pc.polling, hcomp.2]
        scheduled := nofun
        handedOver := h.handedOver
        waited := nofun
        outstanding := h.outstanding
        waits := nofun
        answering := fun hp => by simp_all [State.written, Pc.answering]
        polled := rfl
        buffer := h.buffer
        reads := h.reads }

/-- Phase 6 goes on when no completion is to come. -/
theorem flags_answer (hcompletions : s.completions = [])
    (hout : s.readScheduled = true ∨ s.readCompleted = true → s.responseOutstanding = true)
    (hpolled : s.pollCompleted = false) (hbuffer : s.readBuffer = []) (hreads : s.ReadsClosed) :
    Flags s.answer false := by
  cases hresp : s.responseOutstanding with
  | true =>
    have hs : s.answer = { s with
        responseOutstanding := false, readScheduled := false, readCompleted := false,
        pc := .respond } := by simp [State.answer, hresp]
    rw [hs]
    exact {
      completions := hcompletions
      scheduled := nofun
      handedOver := nofun
      waited := nofun
      outstanding := fun h => by simp at h
      waits := nofun
      answering := fun _ => rfl
      polled := hpolled
      buffer := fun h => absurd hbuffer h
      reads := hreads }
  | false =>
    have hs : s.answer = { s with pc := .phase1 } := by simp [State.answer, hresp]
    rw [hresp] at hout
    rw [hs]
    exact {
      completions := hcompletions
      scheduled := nofun
      handedOver := fun h => absurd (hout (.inl h)) Bool.false_ne_true
      waited := nofun
      outstanding := fun h => absurd (hout h) Bool.false_ne_true
      waits := nofun
      answering := fun h => by simp [Pc.answering] at h
      polled := hpolled
      buffer := fun h => absurd hbuffer h
      reads := hreads }

theorem Flags.phase6 (h : Flags s pending) (hpc : s.pc = .phase6) :
    ∃ pending', Flags s.phase6 pending' := by
  have hcompletions := h.completions
  have hwaited := h.waited (by simp [hpc, Pc.polling])
  simp only [hpc, Pc.polling, Bool.false_eq_true, if_false, List.append_nil] at hcompletions
  cases hscheduled : s.readScheduled with
  | false =>
    have hpending : pending = false := by
      by_contra hp
      simp [h.scheduled (by simpa using hp)] at hscheduled
    subst hpending
    have hs : s.phase6 = s.answer := by simp [State.phase6, hscheduled]
    rw [hs]
    refine ⟨false, flags_answer hcompletions h.outstanding h.polled ?_ h.reads⟩
    by_contra hbuffer
    simp [h.buffer hbuffer] at hscheduled
  | true =>
    cases hread : s.readCompleted with
    | true =>
      have hpending : pending = false := by
        by_contra hp
        simp [hwaited (by simpa using hp)] at hread
      subst hpending
      have hs : s.phase6 = { s with readBuffer := [] }.answer := by
        simp [State.phase6, hscheduled, hread]
      rw [hs]
      exact ⟨false, flags_answer hcompletions h.outstanding h.polled rfl h.reads⟩
    | false =>
      have hpending : pending = true := by simpa [hread] using h.handedOver hscheduled
      have hs : s.phase6 = { s with pc := .pollRead 0 } := by
        simp [State.phase6, hscheduled, hread]
      rw [hs]
      exact ⟨pending, {
        h with
        completions := by
          show s.completions = _
          simpa [Pc.polling] using hcompletions
        waited := fun _ => hwaited
        waits := fun _ _ => hpending
        answering := fun h => by simp [Pc.answering] at h }⟩

theorem Flags.pollRead (h : Flags s pending) {i : Nat} (left : UInt64)
    (hpc : s.pc = .pollRead i) : ∃ pending', Flags (s.pollRead i left) pending' := by
  have hcompletions := h.completions
  have hpending := h.waits i hpc
  subst hpending
  have hread := h.waited (by simp [hpc, Pc.polling]) rfl
  simp only [hpc, Pc.polling, Bool.false_eq_true, if_false, if_true, List.append_nil]
    at hcompletions
  cases hcq : s.sendCq with
  | nil =>
    have hgo : ∃ pc, s.pollRead i left = { s with pc := pc } ∧
        (pc = .phase1 ∨ pc = .pollRead (i + 1)) := by
      cases s
      by_cases hi : i + 1 < 2
      · exact ⟨.pollRead (i + 1), by simp_all [State.pollRead, pollCompletion], .inr rfl⟩
      · exact ⟨.phase1, by simp_all [State.pollRead, pollCompletion], .inl rfl⟩
    obtain ⟨pc, hs, hpc'⟩ := hgo
    rw [hs]
    exact ⟨true, {
      h with
      completions := by
        show s.completions = _
        rcases hpc' with rfl | rfl <;> simpa [Pc.polling] using hcompletions
      waited := fun _ _ => hread
      waits := fun _ _ => rfl
      answering := fun hp => by rcases hpc' with rfl | rfl <;> simp [Pc.answering] at hp }⟩
  | cons wr_id cq =>
    have hcomp : wr_id = WR_READ_ID ∧ cq = [] ∧ s.sendQueue.filter Work.signaled = [] := by
      simpa [State.completions, hcq] using hcompletions
    have hs : s.pollRead i left =
        { s with sendCq := cq, readBuffer := [], wqe := 0 }.answer := by
      simp [State.pollRead, pollCompletion, hcq, hcomp.1]
    rw [hs]
    refine ⟨false, flags_answer ?_ h.outstanding h.polled rfl h.reads⟩
    simp [State.completions, hcomp.2]

/-- A new request finds neither a scheduled nor a completed read. -/
theorem Flags.takeRequest (h : Flags s pending) (hpc : s.pc = .phase1)
    (hout : s.responseOutstanding = false) (frames : List F) :
    ∃ pending', Flags (s.takeRequest frames) pending' := by
  have hscheduled : s.readScheduled = false := by
    by_contra hs
    simp [h.outstanding (.inl (by simpa using hs))] at hout
  have hread : s.readCompleted = false := by
    by_contra hr
    simp [h.outstanding (.inr (by simpa using hr))] at hout
  have hpending : pending = false := by
    by_contra hp
    simp [h.scheduled (by simpa using hp)] at hscheduled
  have hbuffer : s.readBuffer = [] := by
    by_contra hb
    simp [h.buffer hb] at hscheduled
  subst hpending
  have hcompletions : s.completions = [] := by simpa [hpc, Pc.polling] using h.completions
  by_cases hframes : frames = []
  · subst hframes
    refine ⟨false, ?_⟩
    simp only [State.takeRequest, hbuffer, List.append_nil, if_true]
    exact {
      completions := hcompletions
      scheduled := nofun
      handedOver := h.handedOver
      waited := nofun
      outstanding := fun _ => rfl
      waits := nofun
      answering := fun hp => by simp [Pc.answering] at hp
      polled := h.polled
      buffer := fun hb => absurd rfl hb
      reads := h.reads }
  · refine ⟨true, ?_⟩
    simp only [State.takeRequest, hbuffer, List.nil_append, hframes, if_false]
    exact {
      completions := by
        have hposted := signaled_postRead (s.requests + 1) hframes
        simp only [State.completions, List.append_eq_nil_iff] at hcompletions
        simp [State.completions, hcompletions, hposted, Pc.polling]
      scheduled := fun _ => rfl
      handedOver := fun _ => .inl rfl
      waited := fun _ _ => hread
      outstanding := fun _ => rfl
      waits := nofun
      answering := fun hp => by simp [Pc.answering] at hp
      polled := h.polled
      buffer := fun _ => rfl
      reads := by
        intro w hw
        obtain ⟨f, hlast⟩ := getLast_postRead (s.requests + 1) hframes
        rw [List.filter_append, List.getLast?_append, hlast] at hw
        obtain rfl : Work.read (s.requests + 1) f true = w := by simpa using hw
        rfl }

/-- The network card works in order. -/
theorem Flags.complete (h : Flags s pending) {w : Work F} {rest : List (Work F)}
    (hq : s.sendQueue = w :: rest) :
    Flags { s with
      sendQueue := rest
      sendCq := if w.signaled then s.sendCq ++ [w.wr_id] else s.sendCq } pending := by
  exact {
    h with
    completions := by
      rw [← h.completions]
      cases hw : w.signaled <;> simp [State.completions, hq, hw]
    reads := by
      intro last hlast
      refine h.reads last ?_
      rw [hq]
      cases hread : w.isRead with
      | false => simpa [hread] using hlast
      | true => rw [List.filter_cons_of_pos hread, List.getLast?_cons, hlast]; rfl }

/-! ### The request under way -/

theorem State.places_writeMsg (m : Message) :
    (s.writeMsg m).places + s.pc.owed = s.places ∧
      (s.writeMsg m).peerExpects = s.peerExpects := by
  cases m <;> simp only [State.writeMsg, State.written] <;> split <;>
    exact ⟨by simp only [State.places, Pc.owed]; omega, rfl⟩

theorem State.places_answer (hpc : s.pc.owed = 0) :
    s.answer.places = s.places ∧ s.answer.peerExpects = s.peerExpects := by
  cases hout : s.responseOutstanding <;>
    simp only [State.answer, State.places, hout, hpc] <;> exact ⟨rfl, rfl⟩

theorem State.places_pollWrite {m : Message} (left : UInt64) (hpc : s.pc = .pollWrite m) :
    (s.pollWrite m left).places = s.places ∧
      (s.pollWrite m left).peerExpects = s.peerExpects := by
  have howed : s.pc.owed = 0 := by simp [hpc, Pc.owed]
  simp only [State.pollWrite]
  split
  · exact ⟨rfl, rfl⟩
  · split
    · exact ⟨rfl, rfl⟩
    · cases m <;> exact ⟨by simp only [State.written, State.places, howed]; rfl, rfl⟩

theorem State.places_pollRead {i : Nat} (left : UInt64) (hpc : s.pc = .pollRead i) :
    (s.pollRead i left).places = s.places ∧
      (s.pollRead i left).peerExpects = s.peerExpects := by
  have howed : s.pc.owed = 0 := by simp [hpc, Pc.owed]
  simp only [State.pollRead]
  split
  · exact State.places_answer howed
  · split <;> split <;> exact ⟨by simp only [State.places, howed]; rfl, rfl⟩

theorem State.places_phase6 (hpc : s.pc = .phase6) :
    s.phase6.places = s.places ∧ s.phase6.peerExpects = s.peerExpects := by
  have howed : s.pc.owed = 0 := by simp [hpc, Pc.owed]
  simp only [State.phase6]
  split
  · split
    · exact State.places_answer howed
    · exact ⟨by simp only [State.places, howed]; rfl, rfl⟩
  · exact State.places_answer howed

theorem State.places_takeRequest (frames : List F) (hpc : s.pc = .phase1)
    (hmail : s.mailbox = true) (hout : s.responseOutstanding = false) :
    (s.takeRequest frames).places = s.places ∧
      (s.takeRequest frames).peerExpects = s.peerExpects := by
  simp only [State.takeRequest]
  split <;> exact ⟨by simp [State.places, hpc, hmail, hout, Pc.owed], rfl⟩

/-! ### One event -/

theorem Flags.move (h : Flags s pending) (hpc : s.pc.polling = false) {pc : Pc}
    (hpolling : pc.polling = false) (hanswering : pc.answering = false)
    (hwaits : ∀ i, pc ≠ .pollRead i) : Flags { s with pc := pc } pending where
  completions := by
    show s.completions = _
    rw [h.completions, hpc, hpolling]
  scheduled := h.scheduled
  handedOver := h.handedOver
  waited _ := h.waited hpc
  outstanding := h.outstanding
  waits i hi := absurd hi (hwaits i)
  answering ha := by simp [hanswering] at ha
  polled := h.polled
  buffer := h.buffer
  reads := h.reads

theorem Flags.next (h : Flags s pending) (hone : OneRequest s) {e : Event F}
    (hok : ¬ Misread s e) (hnext : next s e = some s') : ∃ pending', Flags s' pending' := by
  cases e with
  | skipRequest | skipSend =>
    obtain ⟨hpc, hs⟩ : _ ∧ _ := by simpa [Responses.next] using hnext
    subst hs
    exact ⟨pending, h.move (by simp [hpc, Pc.polling]) rfl rfl nofun⟩
  | takeRequest frames =>
    obtain ⟨⟨hpc, hmail, -⟩, hs⟩ : (_ ∧ _ ∧ _) ∧ _ := by simpa [Responses.next] using hnext
    subst hs
    exact h.takeRequest hpc (hone.not_outstanding hmail) frames
  | sendRequest =>
    obtain ⟨⟨hpc, -⟩, hs⟩ : (_ ∧ _) ∧ _ := by simpa [Responses.next] using hnext
    subst hs
    have hasked : Flags { s with asked := true } pending := { h with }
    exact ⟨pending, hasked.writeMsg .request (by simp [hpc, Pc.polling]) nofun⟩
  | phase5 =>
    simp only [Responses.next] at hnext
    split at hnext
    case isFalse => cases hnext
    case isTrue hpc =>
      have hmove : Flags { s with pc := .phase6 } pending :=
        h.move (by simp [hpc, Pc.polling]) rfl rfl nofun
      split at hnext
      case isFalse =>
        obtain rfl := Option.some.inj hnext
        exact ⟨pending, hmove⟩
      case isTrue =>
        split at hnext
        case isFalse => cases hnext
        case isTrue =>
          obtain rfl := Option.some.inj hnext
          exact ⟨pending, { hmove with }⟩
  | phase6 =>
    obtain ⟨hpc, hs⟩ : _ ∧ _ := by simpa [Responses.next] using hnext
    subst hs
    exact h.phase6 hpc
  | respond =>
    obtain ⟨hpc, hs⟩ : _ ∧ _ := by simpa [Responses.next] using hnext
    subst hs
    have hout := h.answering (by simp [hpc, Pc.answering])
    have hpeer : Flags { s with peerResponse := true } pending := { h with }
    exact ⟨pending, hpeer.writeMsg .response (by simp [hpc, Pc.polling]) fun _ => hout⟩
  | poll left =>
    cases hpc : s.pc with
    | pollRead i =>
      obtain rfl : s.pollRead i left = s' := by simpa [Responses.next, hpc] using hnext
      exact h.pollRead left hpc
    | pollWrite m =>
      obtain rfl : s.pollWrite m left = s' := by simpa [Responses.next, hpc] using hnext
      exact h.pollWrite left hpc hok
    | _ => simp [Responses.next, hpc] at hnext
  | unlatch =>
    obtain ⟨hpc, hs⟩ : _ ∧ _ := by simpa [Responses.next] using hnext
    subst hs
    have hmove : Flags { s with pc := .phase1 } pending :=
      h.move (by simp [hpc, Pc.polling]) rfl rfl nofun
    exact ⟨pending, { hmove with }⟩
  | complete =>
    cases hq : s.sendQueue with
    | nil => simp [Responses.next, hq] at hnext
    | cons w rest =>
      simp only [Responses.next, hq] at hnext
      obtain rfl := Option.some.inj hnext
      exact ⟨pending, h.complete hq⟩
  | peerRequests | peerAnswers | peerTakes =>
    obtain ⟨-, hs⟩ : _ ∧ _ := by simpa [Responses.next] using hnext
    subst hs
    exact ⟨pending, { h with }⟩

theorem OneRequest.next (h : OneRequest s) {e : Event F} (hnext : next s e = some s') :
    OneRequest s' := by
  have hkeep : ∀ {t : State F}, t.places = s.places ∧ t.peerExpects = s.peerExpects →
      OneRequest t := fun ht => ht.1.trans (h.trans (congrArg Bool.toNat ht.2.symm))
  cases e with
  | skipRequest | skipSend =>
    obtain ⟨hpc, hs⟩ : _ ∧ _ := by simpa [Responses.next] using hnext
    subst hs
    exact hkeep ⟨by simp only [State.places, hpc]; rfl, rfl⟩
  | takeRequest frames =>
    obtain ⟨⟨hpc, hmail, -⟩, hs⟩ : (_ ∧ _ ∧ _) ∧ _ := by simpa [Responses.next] using hnext
    subst hs
    exact hkeep (State.places_takeRequest frames hpc hmail (h.not_outstanding hmail))
  | sendRequest =>
    obtain ⟨⟨hpc, -⟩, hs⟩ : (_ ∧ _) ∧ _ := by simpa [Responses.next] using hnext
    subst hs
    have hwrite := State.places_writeMsg (s := { s with asked := true }) .request
    simp only [hpc, Pc.owed, Nat.add_zero] at hwrite
    exact hkeep ⟨hwrite.1.trans (by simp only [State.places, hpc, Pc.owed]), hwrite.2⟩
  | phase5 =>
    simp only [Responses.next] at hnext
    split at hnext
    case isFalse => cases hnext
    case isTrue hpc =>
      split at hnext
      case isFalse =>
        obtain rfl := Option.some.inj hnext
        exact hkeep ⟨by simp only [State.places, hpc]; rfl, rfl⟩
      case isTrue =>
        split at hnext
        case isFalse => cases hnext
        case isTrue =>
          obtain rfl := Option.some.inj hnext
          exact hkeep ⟨by simp only [State.places, hpc]; rfl, rfl⟩
  | phase6 =>
    obtain ⟨hpc, hs⟩ : _ ∧ _ := by simpa [Responses.next] using hnext
    subst hs
    exact hkeep (State.places_phase6 hpc)
  | respond =>
    -- from about to be answered to answered
    obtain ⟨hpc, hs⟩ : _ ∧ _ := by simpa [Responses.next] using hnext
    subst hs
    have hwrite := State.places_writeMsg (s := { s with peerResponse := true }) .response
    have hpeer : s.peerResponse = false := by
      by_contra hp
      have := Bool.toNat_le s.peerExpects
      simp only [OneRequest, State.places, hpc, Pc.owed, Bool.not_eq_false] at h hp
      simp only [hp, Bool.toNat_true] at h
      omega
    refine hkeep ⟨?_, hwrite.2⟩
    simp only [State.places, hpc, hpeer, Pc.owed, Bool.toNat_true, Bool.toNat_false] at hwrite ⊢
    omega
  | poll left =>
    cases hpc : s.pc with
    | pollRead i =>
      obtain rfl : s.pollRead i left = s' := by simpa [Responses.next, hpc] using hnext
      exact hkeep (State.places_pollRead left hpc)
    | pollWrite m =>
      obtain rfl : s.pollWrite m left = s' := by simpa [Responses.next, hpc] using hnext
      exact hkeep (State.places_pollWrite left hpc)
    | _ => simp [Responses.next, hpc] at hnext
  | unlatch =>
    obtain ⟨hpc, hs⟩ : _ ∧ _ := by simpa [Responses.next] using hnext
    subst hs
    exact hkeep ⟨by simp only [State.places, hpc]; rfl, rfl⟩
  | complete =>
    cases hq : s.sendQueue with
    | nil => simp [Responses.next, hq] at hnext
    | cons w rest =>
      simp only [Responses.next, hq] at hnext
      obtain rfl := Option.some.inj hnext
      exact hkeep ⟨rfl, rfl⟩
  | peerRequests =>
    obtain ⟨hexpects, hs⟩ : _ ∧ _ := by simpa [Responses.next] using hnext
    subst hs
    simp only [OneRequest, State.places, hexpects, Bool.toNat_false, Bool.toNat_true] at h ⊢
    omega
  | peerAnswers =>
    obtain ⟨-, hs⟩ : _ ∧ _ := by simpa [Responses.next] using hnext
    subst hs
    exact hkeep ⟨rfl, rfl⟩
  | peerTakes =>
    obtain ⟨htaken, hs⟩ : _ ∧ _ := by simpa [Responses.next] using hnext
    subst hs
    have := Bool.toNat_le s.peerExpects
    simp only [OneRequest, State.places, htaken, Bool.toNat_false, Bool.toNat_true] at h ⊢
    omega

end Steps

/-! ## Responses and reads -/

theorem inv_start : Inv (start : State F) := by
  refine ⟨rfl, false, ?_⟩
  exact {
    completions := rfl
    scheduled := nofun
    handedOver := nofun
    waited := nofun
    outstanding := fun h => by simp [start] at h
    waits := nofun
    answering := nofun
    polled := rfl
    buffer := fun h => absurd rfl h
    reads := nofun }

/-- As long as no poll of an empty queue passes for a completed read while no response is
outstanding, every response is sent after the reads of its batch, and `readCompleted` is false
when a request is taken. -/
theorem responses_after_reads (s : State F)
    (hs : (connection F fun s e => ¬ Misread s e).Reachable s) : Sound s := by
  refine Inv.sound (hs.invariant ?_ ?_)
  · rintro s rfl
    exact inv_start
  · rintro s s' - ⟨hone, pending, hflags⟩ ⟨e, hok, hnext⟩
    exact ⟨hone.next hnext, hflags.next hone hok hnext⟩

/-! ### A misread poll -/

/-- `readCompleted` is set and no read is scheduled. -/
structure Stale (s : State F) : Prop where
  outstanding : s.responseOutstanding = false
  read : s.readCompleted = true
  scheduled : s.readScheduled = false
  waits : ∀ i, s.pc ≠ .pollRead i

theorem Inv.stale {s s' : State F} (h : Inv s) {e : Event F} (hmisread : Misread s e)
    (hnext : next s e = some s') : Stale s' := by
  obtain ⟨-, pending, flags⟩ := h
  obtain ⟨hpolling, hcq, hleaves, hout⟩ := hmisread
  have hscheduled : s.readScheduled = false := by
    by_contra hs
    simp [flags.outstanding (.inl (by simpa using hs))] at hout
  cases e with
  | poll left =>
    obtain rfl : left = WR_READ_ID := by simpa [Event.leaves] using hleaves
    cases hpc : s.pc with
    | pollWrite m =>
      have hs : s.pollWrite m WR_READ_ID = s' := by simpa [Responses.next, hpc] using hnext
      subst hs
      simp only [State.pollWrite, pollCompletion, hcq, if_true]
      exact ⟨hout, rfl, hscheduled, fun i hi => by simp [hpc] at hi⟩
    | _ => simp [hpc, Pc.polling] at hpolling
  | _ => simp [Event.leaves] at hleaves

/-- The flag stays until the next request is taken, which then starts with it. -/
theorem Stale.next {s s' : State F} (h : Stale s) {e : Event F} (hnext : next s e = some s') :
    Stale s' ∨ ¬ Sound s := by
  obtain ⟨hout, hread, hscheduled, hwaits⟩ := h
  cases e with
  | takeRequest frames =>
    obtain ⟨⟨hpc, hmail, -⟩, -⟩ : (_ ∧ _ ∧ _) ∧ _ := by simpa [Responses.next] using hnext
    refine .inr fun hsound => ?_
    simp [hsound.fresh hpc hmail] at hread
  | skipRequest | skipSend | unlatch =>
    obtain ⟨-, hs⟩ : _ ∧ _ := by simpa [Responses.next] using hnext
    subst hs
    exact .inl ⟨hout, hread, hscheduled, nofun⟩
  | peerRequests | peerAnswers | peerTakes =>
    obtain ⟨-, hs⟩ : _ ∧ _ := by simpa [Responses.next] using hnext
    subst hs
    exact .inl ⟨hout, hread, hscheduled, hwaits⟩
  | sendRequest | respond =>
    obtain ⟨-, hs⟩ : _ ∧ _ := by simpa [Responses.next] using hnext
    subst hs
    simp only [State.writeMsg, State.written]
    split <;> exact .inl ⟨hout, hread, hscheduled, nofun⟩
  | phase5 =>
    simp only [Responses.next] at hnext
    split_ifs at hnext <;> obtain rfl := Option.some.inj hnext <;>
      exact .inl ⟨hout, hread, hscheduled, nofun⟩
  | phase6 =>
    obtain ⟨-, hs⟩ : _ ∧ _ := by simpa [Responses.next] using hnext
    subst hs
    simp only [State.phase6, State.answer, hscheduled, hout, Bool.false_eq_true, if_false]
    exact .inl ⟨rfl, hread, rfl, nofun⟩
  | poll left =>
    cases hpc : s.pc with
    | pollRead i => exact absurd hpc (hwaits i)
    | pollWrite m =>
      obtain rfl : s.pollWrite m left = s' := by simpa [Responses.next, hpc] using hnext
      left
      simp only [State.pollWrite]
      split
      · exact ⟨hout, rfl, hscheduled, hwaits⟩
      · split
        · exact ⟨hout, hread, hscheduled, hwaits⟩
        · cases m <;> exact ⟨hout, hread, hscheduled, nofun⟩
    | _ => simp [Responses.next, hpc] at hnext
  | complete =>
    cases hq : s.sendQueue with
    | nil => simp [Responses.next, hq] at hnext
    | cons w rest =>
      simp only [Responses.next, hq] at hnext
      obtain rfl := Option.some.inj hnext
      exact .inl ⟨hout, hread, hscheduled, hwaits⟩

/-- A request of the other end with one page to read. -/
def oneRead : List (Event Unit) :=
  [.peerRequests, .takeRequest [()], .skipSend, .phase5, .phase6, .poll WR_READ_ID, .complete,
   .poll 0]

/-- Its response is sent once the read has completed. -/
theorem responses_after_reads_oneRead :
    ∃ s : State Unit, Sound s ∧ s.pc = .respond ∧ s.latchedFrames = [()] := by
  have hrun : (System.runActs (fun e s => if Misread s e then none else next s e) start oneRead).any
      (fun s => decide (s.pc = .respond ∧ s.latchedFrames = [()])) = true := by
    decide +kernel
  have hact : ∀ (e : Event Unit) s s', (if Misread s e then none else next s e) = some s' →
      (connection Unit fun s e => ¬ Misread s e).Step s s' := by
    intro e s s' h
    split at h
    case isTrue => cases h
    case isFalse hok => exact ⟨e, hok, h⟩
  obtain ⟨s, hs, hp⟩ := System.reachable_of_acts hact rfl hrun
  exact ⟨s, responses_after_reads s hs, of_decide_eq_true hp⟩

/-- A request of ours that the other end answers at once. -/
def exchange : List (Event Unit) :=
  [.skipRequest, .sendRequest, .peerAnswers, .phase5, .phase6, .complete]

/-- The signaled write of the next request is polled before it has completed and the struct
happens to have the `wr_id` of reads.  The other end's request comes after that. -/
def misread : List (Event Unit) :=
  (List.replicate maxOutstandingWrites exchange).flatten ++
    [.skipRequest, .sendRequest, .poll WR_READ_ID, .complete, .poll 0, .peerAnswers, .phase5,
     .phase6, .peerRequests, .takeRequest [()], .skipSend, .phase5, .phase6]

/-- A response that is sent while the page it acknowledges is still being read. -/
theorem response_before_read :
    ∃ s, (connection Unit fun _ _ => True).Reachable s ∧ ¬ Sound s := by
  have hrun : (System.runActs (fun e s => next s e) start misread).any
      (fun s => decide (s.pc = .respond ∧ Work.read s.requests () true ∈ s.sendQueue)) = true := by
    decide +kernel
  have hact : ∀ (e : Event Unit) s s', next s e = some s' →
      (connection Unit fun _ _ => True).Step s s' := fun e s s' h => ⟨e, trivial, h⟩
  obtain ⟨s, hs, hp⟩ := System.reachable_of_acts hact rfl hrun
  have ⟨hpc, hread⟩ := of_decide_eq_true hp
  exact ⟨s, hs, fun hsound => hsound.answered (by rw [hpc]; rfl) () true hread⟩

end ScaleStore.Responses
