/-
# The eviction handshake

A page provider thread offers latched frames to the owner of their pages and
applies the owner's answer.  The answer is an array of fixed size with a counter;
only the counter is reset when a buffer is used again, so behind the counter the
array still has the PIDs of two rounds ago.  The requester walks its in-flight
frames along the array and may look one cell behind the counter.

The phases of `PageProvider.cpp` are the events of the model: selecting a frame
(3), sending a request (4), answering it (1), sending the response (6) and
applying it (5).  Between two parties there is one request or response under way
at a time, but the next request is already built while one is answered.
-/

import ScaleStore.Lib.System
import Mathlib.Data.List.Nodup
import Mathlib.Tactic.Common

namespace ScaleStore.Eviction

abbrev PID := Nat

def batchSize : Nat := 32

/-- Fewer elements are sent only after many phases without a send. -/
def minOutgoingElements : Nat := 16

/-! ## Messages -/

structure EvictionResponse where
  pids : Fin batchSize → PID
  elements : Nat

namespace EvictionResponse

/-- Only the counter goes back; the cells keep what they had. -/
def reset (r : EvictionResponse) : EvictionResponse := { r with elements := 0 }

/-- `pids[i]`; behind the array there is nothing to compare with. -/
def get? (r : EvictionResponse) (i : Nat) : Option PID :=
  if h : i < batchSize then some (r.pids ⟨i, h⟩) else none

/-- `none` is the failed `ensure(elements < batchSize)`. -/
def add (r : EvictionResponse) (pid : PID) : Option EvictionResponse :=
  if r.elements < batchSize then
    some { pids := fun i => if i.val = r.elements then pid else r.pids i,
           elements := r.elements + 1 }
  else none

def addAll (r : EvictionResponse) : List PID → Option EvictionResponse
  | [] => some r
  | pid :: rest =>
      match r.add pid with
      | some r' => addAll r' rest
      | none => none

end EvictionResponse

/-- `MsgSlots`: the buffer in use and the one used before. -/
structure MsgSlots (α : Type) where
  current : α
  prev : α

def MsgSlots.swap {α : Type} (m : MsgSlots α) : MsgSlots α := ⟨m.prev, m.current⟩

/-! ## Applying a response -/

/-- What phase 5 does to an in-flight frame. -/
inductive Action
  | removeFrame (pid : PID)
  | unlatch (pid : PID)
  deriving DecidableEq, Repr

/-- The loop over the in-flight frames with its index `r_i`; the flag is false
when `ensure(r_i <= response.elements)` failed. -/
def applyLoop (r : EvictionResponse) : List PID → Nat → List Action × Bool
  | [], _ => ([], true)
  | pid :: rest, r_i =>
      if r.get? r_i = some pid then
        if r_i ≤ r.elements then
          let (actions, ok) := applyLoop r rest (r_i + 1)
          (.removeFrame pid :: actions, ok)
        else ([.removeFrame pid], false)
      else
        let (actions, ok) := applyLoop r rest r_i
        (.unlatch pid :: actions, ok)

/-- Phase 5 for one response. -/
def applyResponse (r : EvictionResponse) (inflight : List PID) : List Action × Bool :=
  if 0 < r.elements then applyLoop r inflight 0
  else (inflight.map .unlatch, true)

/-- The actions the handshake is for: remove what was acknowledged, unlatch the
rest, each frame once. -/
def expected (acked inflight : List PID) : List Action :=
  inflight.map fun pid => if pid ∈ acked then .removeFrame pid else .unlatch pid

/-! ## The two parties -/

structure State where
  /-- `outgoing.current` of the requester. -/
  outgoing : List PID
  failedSend : Nat
  inflightFrames : MsgSlots (List PID)
  responseExpected : Bool
  /-- The request in the owner's mailbox. -/
  request : Option (List PID)
  responseOutstanding : Bool
  outgoingResp : MsgSlots EvictionResponse
  /-- The PIDs added to the response of this round. -/
  added : List PID
  /-- The response in the requester's mailbox, with the PIDs added to it. -/
  response : Option (EvictionResponse × List PID)

inductive Event
  | select (pid : PID)
  | sendRequest
  | answer (refuse : PID → Bool)
  | sendResponse
  | applyResp

/-- A frame the requester holds latched. -/
def State.latched (s : State) (pid : PID) : Prop :=
  pid ∈ s.inflightFrames.current ∨ pid ∈ s.inflightFrames.prev

instance (s : State) (pid : PID) : Decidable (s.latched pid) :=
  inferInstanceAs (Decidable (_ ∨ _))

/-- Phase 3: a candidate is added if its latch is free and the request has room. -/
def State.select (s : State) (pid : PID) : State :=
  if s.latched pid then s
  else if s.outgoing.length = batchSize then s
  else { s with
    outgoing := s.outgoing ++ [pid]
    inflightFrames := { s.inflightFrames with current := s.inflightFrames.current ++ [pid] } }

/-- Phase 4. -/
def State.sendRequest (s : State) : State :=
  if s.responseExpected then s
  else if minOutgoingElements < s.outgoing.length ∨
      (100 < s.failedSend ∧ 0 < s.outgoing.length) then
    { s with
      request := some s.outgoing
      responseExpected := true
      failedSend := 0
      outgoing := []
      inflightFrames := s.inflightFrames.swap }
  else { s with failedSend := s.failedSend + 1 }

/-- Phase 1: entries that are not refused are added in the order of the request. -/
def State.answer (s : State) (refuse : PID → Bool) : Option State :=
  match s.request with
  | none => some s
  | some entries =>
      let acks := entries.filter fun pid => !refuse pid
      match s.outgoingResp.current.addAll acks with
      | some r => some { s with
          request := none
          responseOutstanding := true
          outgoingResp := { s.outgoingResp with current := r }
          added := s.added ++ acks }
      | none => none

/-- Phase 6: send, swap the buffers, reset the one to be used next. -/
def State.sendResponse (s : State) : State :=
  if s.responseOutstanding then
    { s with
      responseOutstanding := false
      response := some (s.outgoingResp.current, s.added)
      outgoingResp := { s.outgoingResp.swap with current := s.outgoingResp.prev.reset }
      added := [] }
  else s

/-- Phase 5; `none` when an `ensure` fails. -/
def State.applyResp (s : State) : Option State :=
  match s.response with
  | none => some s
  | some (r, _) =>
      if s.responseExpected ∧ (applyResponse r s.inflightFrames.prev).2 then
        some { s with
          response := none
          responseExpected := false
          inflightFrames := { s.inflightFrames with prev := [] } }
      else none

def step (s : State) : Event → Option State
  | .select pid => some (s.select pid)
  | .sendRequest => some s.sendRequest
  | .answer refuse => s.answer refuse
  | .sendResponse => some s.sendResponse
  | .applyResp => s.applyResp

/-- Nothing selected or under way; the response buffers hold whatever the memory
they were allocated from held. -/
def State.init (a b : Fin batchSize → PID) : State where
  outgoing := []
  failedSend := 0
  inflightFrames := ⟨[], []⟩
  responseExpected := false
  request := none
  responseOutstanding := false
  outgoingResp := ⟨⟨a, 0⟩, ⟨b, 0⟩⟩
  added := []
  response := none

def handshake : System State where
  Init s := ∃ a b, s = State.init a b
  Step s s' := ∃ e, step s e = some s'

/-! ## What a response carries -/

/-- The cells before the counter are the acknowledged PIDs. -/
structure Carries (r : EvictionResponse) (acked : List PID) : Prop where
  elements_eq : r.elements = acked.length
  get_eq : ∀ i, i < acked.length → r.get? i = acked[i]?

theorem Carries.reset (r : EvictionResponse) : Carries r.reset [] :=
  ⟨rfl, fun i hi => absurd hi (Nat.not_lt_zero i)⟩

theorem Carries.add {r : EvictionResponse} {acked : List PID} (h : Carries r acked) (pid : PID)
    (hroom : acked.length < batchSize) :
    ∃ r', r.add pid = some r' ∧ Carries r' (acked ++ [pid]) := by
  have helems := h.elements_eq
  refine ⟨_, by rw [EvictionResponse.add, if_pos (helems ▸ hroom)], ?_, ?_⟩
  · simp [helems]
  · intro i hi
    rw [List.length_append, List.length_singleton] at hi
    have hib : i < batchSize := by omega
    rw [EvictionResponse.get?, dif_pos hib]
    rcases Nat.lt_or_ge i acked.length with hlt | hge
    · have hget := h.get_eq i hlt
      rw [EvictionResponse.get?, dif_pos hib] at hget
      have hne : i ≠ r.elements := by omega
      simp only [hne, if_false]
      rw [hget, List.getElem?_append_left hlt]
    · have hi' : i = acked.length := by omega
      simp [hi', helems]

theorem Carries.addAll {r : EvictionResponse} {acked : List PID} (h : Carries r acked)
    (pids : List PID) (hroom : acked.length + pids.length ≤ batchSize) :
    ∃ r', r.addAll pids = some r' ∧ Carries r' (acked ++ pids) := by
  induction pids generalizing r acked with
  | nil => exact ⟨r, rfl, by simpa using h⟩
  | cons pid rest ih =>
      rw [List.length_cons] at hroom
      obtain ⟨r₁, hadd, h₁⟩ := h.add pid (by omega)
      obtain ⟨r', hall, h'⟩ := ih h₁ (by rw [List.length_append, List.length_singleton]; omega)
      refine ⟨r', by simp only [EvictionResponse.addAll, hadd, hall], ?_⟩
      simpa using h'

/-! ## The requester's loop -/

/-- The frames up to the last acknowledged one get what they should, and leave
the index right behind the counter. -/
theorem applyLoop_acked {r : EvictionResponse} (done : List PID) {acks before : List PID}
    {last : PID} (after : List PID) (h : Carries r (done ++ (acks ++ [last])))
    (hsub : acks.Sublist before)
    (hnodup : (before ++ last :: after).Nodup) :
    applyLoop r (before ++ last :: after) done.length =
      (expected (acks ++ [last]) (before ++ [last]) ++ (applyLoop r after r.elements).1,
        (applyLoop r after r.elements).2) := by
  have helems : r.elements = done.length + acks.length + 1 := by
    rw [h.elements_eq]
    simp
    omega
  have hcell : r.get? done.length = (acks ++ [last])[0]? := by
    rw [h.get_eq _ (by simp), List.getElem?_append_right (Nat.le_refl _), Nat.sub_self]
  induction before generalizing done acks with
  | nil =>
      obtain rfl := List.sublist_nil.mp hsub
      have hget : r.get? done.length = some last := by simpa using hcell
      have hnext : done.length + 1 = r.elements := by
        rw [helems]
        simp
      simp only [List.nil_append, applyLoop, hget, if_true, hnext]
      rw [if_pos (by omega)]
      simp [expected]
  | cons b before ih =>
      have hb : b ∉ before ++ last :: after := (List.nodup_cons.mp hnodup).1
      have hrest := (List.nodup_cons.mp hnodup).2
      have hlast : b ≠ last := by
        rintro rfl
        exact hb (by simp)
      rw [List.cons_append, applyLoop]
      cases hsub with
      | cons _ hsub' =>
          -- `b` is not acknowledged: the cell at the index is a later frame
          have hbnot : b ∉ acks := fun hmem => hb (by
            exact List.mem_append_left _ (hsub'.subset hmem))
          have hne : r.get? done.length ≠ some b := by
            rw [hcell]
            cases acks with
            | nil => simpa using hlast.symm
            | cons a as =>
                simp only [List.cons_append, List.getElem?_cons_zero, ne_eq, Option.some.injEq]
                rintro rfl
                exact hbnot List.mem_cons_self
          rw [if_neg hne, ih done h hsub' hrest helems hcell]
          simp [expected, hbnot, hlast]
      | @cons_cons as _ _ hsub' =>
          have hget : r.get? done.length = some b := by simpa using hcell
          have h' : Carries r ((done ++ [b]) ++ (as ++ [last])) := by simpa using h
          have hlen : (done ++ [b]).length = done.length + 1 := by simp
          have hcell' : r.get? (done ++ [b]).length = (as ++ [last])[0]? := by
            rw [h'.get_eq _ (by simp), List.getElem?_append_right (Nat.le_refl _), Nat.sub_self]
          have hih := ih (done ++ [b]) h' hsub' hrest (by rw [helems]; simp; omega) hcell'
          rw [if_pos hget, if_pos (by rw [helems]; omega), ← hlen, hih]
          have hcongr : expected (as ++ [last]) (before ++ [last]) =
              expected (b :: (as ++ [last])) (before ++ [last]) := by
            refine List.map_congr_left fun x hx => ?_
            have hxb : x ≠ b := by
              rintro rfl
              refine hb ?_
              rcases List.mem_append.mp hx with hx | hx
              · exact List.mem_append_left _ hx
              · exact List.mem_append_right _ (by simp_all)
            simp [hxb]
          rw [hcongr]
          simp [expected]

/-- Behind the last acknowledged frame, only the stale cell can match. -/
theorem applyLoop_stale {r : EvictionResponse} (after : List PID) :
    applyLoop r after r.elements = (after.map .unlatch, true) ↔
      ∀ pid ∈ after, r.get? r.elements ≠ some pid := by
  induction after with
  | nil => simp [applyLoop]
  | cons pid rest ih =>
      rw [applyLoop]
      split
      · rename_i hmatch
        rw [if_pos (Nat.le_refl _)]
        simp [hmatch]
      · rename_i hne
        have hrest : (Action.unlatch pid :: (applyLoop r rest r.elements).1,
            (applyLoop r rest r.elements).2) = ((pid :: rest).map .unlatch, true) ↔
            applyLoop r rest r.elements = (rest.map .unlatch, true) := by
          rcases applyLoop r rest r.elements with ⟨actions, ok⟩
          simp
        rw [hrest, ih]
        simp [hne]

/-- The cell behind the counter has the PID of an in-flight frame that stands
behind the last acknowledged one. -/
def StaleMatch (r : EvictionResponse) (inflight : List PID) : Prop :=
  0 < r.elements ∧ ∃ before last after stale, inflight = before ++ last :: after ∧
    r.get? (r.elements - 1) = some last ∧ r.get? r.elements = some stale ∧ stale ∈ after

theorem sublist_split {acks inflight : List PID} {last : PID}
    (hsub : (acks ++ [last]).Sublist inflight) :
    ∃ before after, inflight = before ++ last :: after ∧ acks.Sublist before := by
  obtain ⟨front, back, rfl, hfront, hback⟩ := List.append_sublist_iff.mp hsub
  obtain ⟨mid, after, rfl⟩ := List.append_of_mem (List.singleton_sublist.mp hback)
  exact ⟨front ++ mid, after, by simp, hfront.trans (List.sublist_append_left front mid)⟩

/-- Applying a response that carries acknowledged in-flight frames is exact
unless the stale cell matches. -/
theorem applyResponse_eq_iff {r : EvictionResponse} {acked inflight : List PID}
    (h : Carries r acked) (hsub : acked.Sublist inflight) (hnodup : inflight.Nodup) :
    applyResponse r inflight = (expected acked inflight, true) ↔ ¬ StaleMatch r inflight := by
  rcases List.eq_nil_or_concat acked with rfl | ⟨acks, last, rfl⟩
  · have hzero : r.elements = 0 := h.elements_eq
    simp [applyResponse, expected, StaleMatch, hzero]
  · rw [List.concat_eq_append] at h hsub ⊢
    have helems : r.elements = acks.length + 1 := by simpa using h.elements_eq
    obtain ⟨before, after, rfl, hbefore⟩ := sublist_split hsub
    have hlast : r.get? (r.elements - 1) = some last := by
      rw [h.get_eq _ (by rw [helems]; simp), helems]
      simp
    have hloop := applyLoop_acked [] after (by simpa using h) hbefore hnodup
    rw [List.length_nil] at hloop
    have hcross := (List.nodup_append.mp hnodup).2.2
    have hback := (List.nodup_append.mp hnodup).2.1
    -- no frame behind the last acknowledged one is acknowledged
    have hafter : expected (acks ++ [last]) (before ++ last :: after) =
        expected (acks ++ [last]) (before ++ [last]) ++ after.map .unlatch := by
      have hmap : after.map (fun pid => if pid ∈ acks ++ [last] then Action.removeFrame pid
          else .unlatch pid) = after.map .unlatch := by
        refine List.map_congr_left fun x hx => if_neg fun hmem => ?_
        rcases List.mem_append.mp hmem with hmem | hmem
        · exact hcross x (hbefore.subset hmem) x (List.mem_cons_of_mem last hx) rfl
        · obtain rfl : x = last := by simpa using hmem
          exact (List.nodup_cons.mp hback).1 hx
      rw [expected, expected, List.map_append, List.map_append, List.map_cons, hmap]
      simp
    have hstale : StaleMatch r (before ++ last :: after) ↔
        ∃ pid ∈ after, r.get? r.elements = some pid := by
      constructor
      · rintro ⟨_, before', last', after', stale, heq, hl, hget, hmem⟩
        obtain rfl : last = last' := Option.some.inj (hlast.symm.trans hl)
        have hnot : last ∉ before := fun hb => hcross last hb last List.mem_cons_self rfl
        have hnot' : last ∉ after := (List.nodup_cons.mp hback).1
        obtain ⟨_, _, rfl⟩ := (List.append_cons_inj_of_notMem hnot hnot').mp heq
        exact ⟨stale, hmem, hget⟩
      · rintro ⟨pid, hmem, hget⟩
        exact ⟨by omega, before, last, after, pid, rfl, hlast, hget, hmem⟩
    rw [applyResponse, if_pos (by omega), hloop, hafter, hstale]
    have hcancel : ((expected (acks ++ [last]) (before ++ [last]) ++
          (applyLoop r after r.elements).1, (applyLoop r after r.elements).2) =
        (expected (acks ++ [last]) (before ++ [last]) ++ after.map .unlatch, true)) ↔
        applyLoop r after r.elements = (after.map .unlatch, true) := by
      rcases applyLoop r after r.elements with ⟨actions, ok⟩
      simp
    rw [hcancel, applyLoop_stale]
    simp

/-! ## Every run -/

/-- What holds between the phases: frames are latched once, one message at most
is under way, and a response carries acknowledged in-flight frames in order. -/
structure Inv (s : State) : Prop where
  outgoing_eq : s.outgoing = s.inflightFrames.current
  nodup : (s.inflightFrames.current ++ s.inflightFrames.prev).Nodup
  current_le : s.inflightFrames.current.length ≤ batchSize
  prev_le : s.inflightFrames.prev.length ≤ batchSize
  idle : s.responseExpected = false →
    s.inflightFrames.prev = [] ∧ s.request = none ∧ s.responseOutstanding = false ∧
      s.response = none
  requested : ∀ es, s.request = some es →
    es = s.inflightFrames.prev ∧ s.responseOutstanding = false ∧ s.response = none
  answered : s.responseOutstanding = true →
    s.response = none ∧ s.added.Sublist s.inflightFrames.prev
  carries : Carries s.outgoingResp.current s.added
  fresh : s.responseOutstanding = false → s.added = []
  responded : ∀ r acked, s.response = some (r, acked) →
    Carries r acked ∧ acked.Sublist s.inflightFrames.prev

theorem inv_init (a b : Fin batchSize → PID) : Inv (State.init a b) where
  outgoing_eq := rfl
  nodup := by simp [State.init]
  current_le := Nat.zero_le _
  prev_le := Nat.zero_le _
  idle _ := ⟨rfl, rfl, rfl, rfl⟩
  requested es h := by cases h
  answered h := by cases h
  carries := Carries.reset ⟨a, 0⟩
  fresh _ := rfl
  responded r acked h := by cases h

theorem Inv.select {s : State} (h : Inv s) (pid : PID) : Inv (s.select pid) := by
  unfold State.select
  split
  · exact h
  · split
    · exact h
    · rename_i hfree hroom
      have hnot : pid ∉ s.inflightFrames.current ∧ pid ∉ s.inflightFrames.prev := by
        simpa [State.latched] using hfree
      have hlen : s.inflightFrames.current.length < batchSize := by
        have := h.current_le
        rw [h.outgoing_eq] at hroom
        omega
      refine ⟨?_, ?_, ?_, h.prev_le, h.idle, h.requested, h.answered, h.carries, h.fresh,
        h.responded⟩
      · simp [h.outgoing_eq]
      · have hmove : (s.inflightFrames.current ++ [pid] ++ s.inflightFrames.prev).Perm
            (pid :: (s.inflightFrames.current ++ s.inflightFrames.prev)) := by
          simp
        refine hmove.nodup_iff.mpr (List.nodup_cons.mpr ⟨?_, h.nodup⟩)
        simpa using hnot
      · simp
        omega

theorem Inv.sendRequest {s : State} (h : Inv s) : Inv s.sendRequest := by
  unfold State.sendRequest
  split
  · exact h
  · split
    · rename_i hexp _
      obtain ⟨hprev, hreq, hout, hresp⟩ := h.idle (by simpa using hexp)
      refine ⟨?_, ?_, ?_, h.current_le, ?_, ?_, ?_, h.carries, h.fresh, ?_⟩
      · simp [MsgSlots.swap, hprev]
      · simpa [MsgSlots.swap, hprev] using h.nodup
      · simp [MsgSlots.swap, hprev]
      · simp
      · intro es hes
        obtain rfl : s.outgoing = es := Option.some.inj hes
        exact ⟨by simp [MsgSlots.swap, h.outgoing_eq], hout, hresp⟩
      · simp [hout]
      · simp [hresp]
    · exact ⟨h.outgoing_eq, h.nodup, h.current_le, h.prev_le, h.idle, h.requested, h.answered,
        h.carries, h.fresh, h.responded⟩

theorem Inv.answer {s s' : State} (h : Inv s) {refuse : PID → Bool}
    (hstep : s.answer refuse = some s') : Inv s' := by
  unfold State.answer at hstep
  split at hstep
  · obtain rfl := Option.some.inj hstep
    exact h
  · rename_i entries hreq
    obtain ⟨rfl, hout, hresp⟩ := h.requested entries hreq
    have hadded := h.fresh hout
    have hsub : (s.inflightFrames.prev.filter fun pid => !refuse pid).Sublist
        s.inflightFrames.prev := List.filter_sublist
    have hcarry := h.carries
    rw [hadded] at hcarry
    obtain ⟨r, hadd, hr⟩ := hcarry.addAll (s.inflightFrames.prev.filter fun pid => !refuse pid)
      (by simpa using Nat.le_trans hsub.length_le h.prev_le)
    simp only [hadd, Option.some.injEq] at hstep
    subst hstep
    refine ⟨h.outgoing_eq, h.nodup, h.current_le, h.prev_le, ?_, ?_, ?_, ?_, ?_, ?_⟩
    · intro hexp
      have := (h.idle hexp).2.1
      rw [hreq] at this
      cases this
    · simp
    · intro _
      exact ⟨hresp, by simp [hadded]⟩
    · simpa [hadded] using hr
    · simp
    · simp [hresp]

theorem Inv.sendResponse {s : State} (h : Inv s) : Inv s.sendResponse := by
  unfold State.sendResponse
  split
  · rename_i hout
    obtain ⟨hresp, hsub⟩ := h.answered hout
    refine ⟨h.outgoing_eq, h.nodup, h.current_le, h.prev_le, ?_, ?_, ?_, ?_, ?_, ?_⟩
    · intro hexp
      have := (h.idle hexp).2.2.1
      rw [hout] at this
      cases this
    · intro es hes
      have := (h.requested es hes).2.1
      rw [hout] at this
      cases this
    · simp
    · exact Carries.reset _
    · simp
    · intro r acked heq
      obtain ⟨rfl, rfl⟩ := Prod.mk.inj (Option.some.inj heq)
      exact ⟨h.carries, hsub⟩
  · exact h

theorem Inv.applyResp {s s' : State} (h : Inv s) (hstep : s.applyResp = some s') : Inv s' := by
  unfold State.applyResp at hstep
  split at hstep
  · obtain rfl := Option.some.inj hstep
    exact h
  · rename_i r acked hresp
    have hreq : s.request = none := by
      cases hr : s.request with
      | none => rfl
      | some es =>
          have := (h.requested es hr).2.2
          rw [hresp] at this
          cases this
    have hout : s.responseOutstanding = false := by
      cases ho : s.responseOutstanding with
      | false => rfl
      | true =>
          have := (h.answered ho).1
          rw [hresp] at this
          cases this
    split at hstep
    · obtain rfl := Option.some.inj hstep
      refine ⟨h.outgoing_eq, ?_, h.current_le, Nat.zero_le _, ?_, ?_, ?_, h.carries, h.fresh, ?_⟩
      · simpa using (List.nodup_append.mp h.nodup).1
      · intro _
        exact ⟨rfl, hreq, hout, rfl⟩
      · simp [hreq]
      · simp [hout]
      · simp
    · cases hstep

theorem Inv.step {s s' : State} (h : Inv s) {e : Event} (hstep : step s e = some s') : Inv s' := by
  cases e with
  | select pid =>
      obtain rfl := Option.some.inj hstep
      exact h.select pid
  | sendRequest =>
      obtain rfl := Option.some.inj hstep
      exact h.sendRequest
  | answer refuse => exact h.answer hstep
  | sendResponse =>
      obtain rfl := Option.some.inj hstep
      exact h.sendResponse
  | applyResp => exact h.applyResp hstep

theorem inv_of_reachable {s : State} (hs : handshake.Reachable s) : Inv s := by
  refine hs.invariant ?_ ?_
  · rintro s ⟨a, b, rfl⟩
    exact inv_init a b
  · rintro s s' _ h ⟨e, he⟩
    exact h.step he

/-- In every run, a response is applied exactly, with one action for each
in-flight frame, if and only if no stale cell matches a frame behind the last
acknowledged one. -/
theorem applied_exactly_iff_not_staleMatch (s : State) (hs : handshake.Reachable s)
    (r : EvictionResponse) (acked : List PID) (hresp : s.response = some (r, acked)) :
    applyResponse r s.inflightFrames.prev = (expected acked s.inflightFrames.prev, true) ↔
      ¬ StaleMatch r s.inflightFrames.prev := by
  have h := inv_of_reachable hs
  obtain ⟨hcarry, hsub⟩ := h.responded r acked hresp
  exact applyResponse_eq_iff hcarry hsub (List.nodup_append.mp h.nodup).2.1

/-! ## Three rounds that end in a stale match -/

def runEvents : State → List Event → Option State
  | s, [] => some s
  | s, e :: es =>
      match step s e with
      | some s' => runEvents s' es
      | none => none

theorem runEvents_reachable {s s' : State} {es : List Event} (hs : handshake.Reachable s)
    (hrun : runEvents s es = some s') : handshake.Reachable s' := by
  induction es generalizing s with
  | nil =>
      obtain rfl := Option.some.inj hrun
      exact hs
  | cons e es ih =>
      simp only [runEvents] at hrun
      split at hrun
      · rename_i s₁ hstep
        exact ih (.step hs ⟨e, hstep⟩) hrun
      · cases hrun

/-- A round with few frames: the request goes out after enough phases without a
send, and the owner refuses as told. -/
def round (pids : List PID) (refuse : PID → Bool) : List Event :=
  pids.map .select ++ List.replicate 102 .sendRequest ++ [.answer refuse, .sendResponse]

/-- Frames 1 and 2 are acknowledged; a round later, 4 is acknowledged and the
refetched 2 refused, in the buffer whose second cell still has 2. -/
def staleRounds : List Event :=
  round [1, 2] (fun _ => false) ++ [.applyResp] ++ round [3] (fun _ => false) ++ [.applyResp] ++
    round [4, 2] (fun pid => pid == 2)

/-- What the requester would do next, and what it should do. -/
def outcome (es : List Event) : Option ((List Action × Bool) × List Action) :=
  match runEvents (State.init (fun _ => 0) (fun _ => 0)) es with
  | some s =>
      match s.response with
      | some (r, acked) => some (applyResponse r s.inflightFrames.prev,
          expected acked s.inflightFrames.prev)
      | none => none
  | none => none

theorem outcome_reachable {es : List Event} {got : List Action × Bool} {want : List Action}
    (h : outcome es = some (got, want)) :
    ∃ s r acked, handshake.Reachable s ∧ s.response = some (r, acked) ∧
      applyResponse r s.inflightFrames.prev = got ∧
      expected acked s.inflightFrames.prev = want := by
  unfold outcome at h
  split at h
  · rename_i s hrun
    split at h
    · rename_i r acked hresp
      obtain ⟨hgot, hwant⟩ := Prod.mk.inj (Option.some.inj h)
      exact ⟨s, r, acked, runEvents_reachable (.init ⟨_, _, rfl⟩) hrun, hresp, hgot, hwant⟩
    · cases h
  · cases h

/-- The refused frame 2 is removed: its PID is still in the reused buffer. -/
theorem unacknowledged_frame_removed :
    ¬ ∀ (s : State) (r : EvictionResponse) (acked : List PID), handshake.Reachable s →
      s.response = some (r, acked) →
      applyResponse r s.inflightFrames.prev = (expected acked s.inflightFrames.prev, true) := by
  intro hall
  have hout : outcome staleRounds =
      some (([.removeFrame 4, .removeFrame 2], true), [.removeFrame 4, .unlatch 2]) := by
    decide +kernel
  obtain ⟨s, r, acked, hs, hresp, hgot, hwant⟩ := outcome_reachable hout
  have hexact := hall s r acked hs hresp
  rw [hgot, hwant] at hexact
  exact absurd hexact (by decide)

/-- A first round with one refusal is applied exactly. -/
theorem applied_exactly_first_round :
    ∃ (s : State) (r : EvictionResponse) (acked : List PID), handshake.Reachable s ∧
      s.response = some (r, acked) ∧
      expected acked s.inflightFrames.prev = [.removeFrame 1, .unlatch 2] ∧
      ¬ StaleMatch r s.inflightFrames.prev := by
  have hout : outcome (round [1, 2] (fun pid => pid == 2)) =
      some (([.removeFrame 1, .unlatch 2], true), [.removeFrame 1, .unlatch 2]) := by
    decide +kernel
  obtain ⟨s, r, acked, hs, hresp, hgot, hwant⟩ := outcome_reachable hout
  refine ⟨s, r, acked, hs, hresp, hwant, ?_⟩
  rw [← applied_exactly_iff_not_staleMatch s hs r acked hresp, hgot, hwant]

end ScaleStore.Eviction
