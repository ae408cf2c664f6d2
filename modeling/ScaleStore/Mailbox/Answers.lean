/-
# Every request is answered once

The clients of one handler thread, each with its mailbox, its request buffer and
the `receiveFlag` of its response buffer, against the thread's loop and the
callbacks of the asynchronous read buffer.  What happens to a client's requests
is recorded in a trace; an automaton says which traces are allowed, and its state
says where the outstanding request is: in the mailbox (or on its way there), with
the handler, in the read buffer, or nowhere.
-/

import ScaleStore.Lib.System
import ScaleStore.Mailbox.Loop

namespace ScaleStore.Mailbox

open ScaleStore.Protocol (NodeID)

/-! ## Traces -/

/-- What happens to a request of a client. -/
inductive Mark where
  /-- The client writes it. -/
  | asked (r : Request)
  /-- The handler clears the mailbox and starts on it. -/
  | taken (r : Request)
  /-- The handler writes the response to it. -/
  | answered (r : Request)
  /-- The mailbox is set again. -/
  | rearmed (r : Request)
  /-- It waits for a read from the SSD. -/
  | parked (r : Request)
  /-- `Finish` is through; it has no response. -/
  | finished (r : Request)
deriving DecidableEq, Repr

def Mark.isAsked : Mark → Bool
  | .asked _ => true
  | _ => false

def Mark.isAnswered : Mark → Bool
  | .answered _ => true
  | _ => false

/-- Where a client's latest request is. -/
inductive Phase where
  /-- There is none, or it has been answered. -/
  | quiet
  | waiting (r : Request)
  | handled (r : Request)
  | parked (r : Request)
  | closed
deriving DecidableEq, Repr

/-- The marks that may follow in a phase, all about the same request until it is answered. -/
def Phase.next : Phase → Mark → Option Phase
  | .quiet, .asked r => some (.waiting r)
  | .waiting r, .taken q => if q = r then some (.handled r) else none
  | .handled r, .answered q => if q = r ∧ r.type ≠ .finish then some .quiet else none
  | .handled r, .rearmed q => if q = r then some (.waiting r) else none
  | .handled r, .parked q => if q = r then some (.parked r) else none
  | .handled r, .finished q => if q = r ∧ r.type = .finish then some .closed else none
  | .parked r, .rearmed q => if q = r then some (.waiting r) else none
  | _, _ => none

/-- The phase after a trace, if it is allowed. -/
def Phase.follow (p : Phase) : List Mark → Option Phase
  | [] => some p
  | m :: ms => (p.next m).bind fun q => q.follow ms

theorem Phase.follow_append {p q : Phase} {ms ns : List Mark} (h : p.follow ms = some q) :
    p.follow (ms ++ ns) = q.follow ns := by
  induction ms generalizing p with
  | nil =>
      obtain rfl := Option.some.inj h
      rfl
  | cons m ms ih =>
      obtain ⟨p₁, h₁, hrest⟩ := Option.bind_eq_some_iff.mp h
      simp only [List.cons_append, follow, h₁, Option.bind_some]
      exact ih hrest

theorem Phase.follow_of_append {p q : Phase} {ms ns : List Mark}
    (h : p.follow (ms ++ ns) = some q) : ∃ p₁, p.follow ms = some p₁ ∧ p₁.follow ns = some q := by
  induction ms generalizing p with
  | nil => exact ⟨p, rfl, h⟩
  | cons m ms ih =>
      obtain ⟨p₁, h₁, hrest⟩ := Option.bind_eq_some_iff.mp h
      obtain ⟨p₂, h₂, hns⟩ := ih hrest
      exact ⟨p₂, by simp [follow, h₁, h₂], hns⟩

/-- The phases in which the request `r` is outstanding. -/
def Phase.Open (r : Request) (p : Phase) : Prop := p = .waiting r ∨ p = .handled r ∨ p = .parked r

/-- From an outstanding request to the next one there is exactly one answer, to that request. -/
theorem Phase.Open.answered {p : Phase} {r r' : Request} (hp : p.Open r) {ms ns : List Mark}
    {q : Phase} (hasked : ∀ m ∈ ms, m.isAsked = false)
    (h : p.follow (ms ++ .asked r' :: ns) = some q) :
    ms.filter Mark.isAnswered = [.answered r] := by
  induction ms generalizing p with
  | nil => rcases hp with rfl | rfl | rfl <;> simp [follow, next] at h
  | cons m ms ih =>
      obtain ⟨p₁, h₁, hrest⟩ := Option.bind_eq_some_iff.mp h
      have htail : ∀ m ∈ ms, m.isAsked = false := fun m hm => hasked m (List.mem_cons_of_mem _ hm)
      -- an answer leaves nothing to be done but the next request
      have hquiet : p₁ = .quiet → m = .answered r →
          (m :: ms).filter Mark.isAnswered = [.answered r] := by
        rintro rfl rfl
        cases ms with
        | nil => rfl
        | cons m' ms =>
            cases m' with
            | asked r₂ =>
              exact absurd (htail (.asked r₂) List.mem_cons_self) (by simp [Mark.isAsked])
            | _ => simp [follow, next] at hrest
      rcases hp with rfl | rfl | rfl
      · cases m <;> simp only [next, Option.ite_none_right_eq_some, Option.some.injEq,
          reduceCtorEq] at h₁
        obtain ⟨rfl, rfl⟩ := h₁
        simpa [Mark.isAnswered] using ih (Or.inr (Or.inl rfl)) htail hrest
      · cases m <;> simp only [next, Option.ite_none_right_eq_some, Option.some.injEq,
          reduceCtorEq] at h₁
        · obtain ⟨⟨rfl, _⟩, rfl⟩ := h₁
          exact hquiet rfl rfl
        · obtain ⟨rfl, rfl⟩ := h₁
          simpa [Mark.isAnswered] using ih (Or.inl rfl) htail hrest
        · obtain ⟨rfl, rfl⟩ := h₁
          simpa [Mark.isAnswered] using ih (Or.inr (Or.inr rfl)) htail hrest
        · obtain ⟨_, rfl⟩ := h₁
          cases ms with
          | nil => simp [follow, next] at hrest
          | cons m' ms => cases m' <;> simp [follow, next] at hrest
      · cases m <;> simp only [next, Option.ite_none_right_eq_some, Option.some.injEq,
          reduceCtorEq] at h₁
        obtain ⟨rfl, rfl⟩ := h₁
        simpa [Mark.isAnswered] using ih (Or.inl rfl) htail hrest

/-! ## Clients -/

/-- Where a worker is with its connection to this node. -/
inductive ClientPc where
  | ready
  /-- `writeMsg` has written the request, but not yet the flag of the mailbox. -/
  | posting
  /-- In `writeMsgSync`, or between `writeMsgASync` and `collectResponseMsgASync`. -/
  | awaiting
  /-- The worker has sent `Finish`. -/
  | gone
deriving DecidableEq, Repr

structure Client where
  pc : ClientPc
  receiveFlag : Bool
deriving DecidableEq, Repr

/-- What the handler thread is told about its connections. -/
structure Partition where
  numberMailboxes : Nat
  maxRetries : Nat
  nodeId : NodeID
  bmId : Nat → NodeID

structure Service where
  thread : Thread
  client : Nat → Client
  trace : Nat → List Mark

namespace Service

def setClient (s : Service) (c : Nat) (x : Client) : Service :=
  { s with client := Function.update s.client c x }

def recordAll (s : Service) (c : Nat) (ms : List Mark) : Service :=
  { s with trace := Function.update s.trace c (s.trace c ++ ms) }

def record (s : Service) (c : Nat) (m : Mark) : Service := s.recordAll c [m]

def setThread (s : Service) (t : Thread) : Service := { s with thread := t }

end Service

/-- How the trace records what was done with a request. -/
def Effect.mark (r : Request) : Effect → Mark
  | .respond _ => .answered r
  | .rearm => .rearmed r
  | .recheck => .parked r
  | .finish => .finished r

def Effect.responds : Effect → Bool
  | .respond _ => true
  | _ => false

/-- The steps of the clients, of the handler's loop and of its read callbacks. -/
inductive ServiceStep (W C : Type) (part : Partition) (s : Service) : Service → Prop where
  /-- `writeMsgSync` or `writeMsgASync` up to the request; `Finish` is sent by `writeMsg`. -/
  | write {c : Nat} (req : Request) : (s.client c).pc = .ready →
    ServiceStep W C part s
      (((s.setThread (s.thread.writeRequest c req)).setClient c ⟨.posting, false⟩).record c
        (.asked req))
  | flag {c : Nat} : (s.client c).pc = .posting →
    ServiceStep W C part s ((s.setThread (s.thread.setMailbox c)).setClient c
      { s.client c with pc := if (s.thread.request c).type = .finish then .gone else .awaiting })
  /-- The client sees the `receiveFlag` of the response. -/
  | collect {c : Nat} : (s.client c).pc = .awaiting → (s.client c).receiveFlag = true →
    ServiceStep W C part s (s.setClient c { s.client c with pc := .ready })
  | skip : s.thread.AtMailbox part.numberMailboxes →
    s.thread.mailboxes (s.thread.current part.numberMailboxes) = false →
    ServiceStep W C part s (s.setThread (s.thread.skip part.numberMailboxes))
  | take {c : Nat} : s.thread.AtMailbox part.numberMailboxes →
    c = s.thread.current part.numberMailboxes → s.thread.mailboxes c = true →
    ServiceStep W C part s ((s.setThread (s.thread.take part.numberMailboxes)).record c
      (.taken (s.thread.request c)))
  | handle {c : Nat} {effects : List Effect} {retries : Nat} (found : Lookup W C) :
    s.thread.handling = some c →
    dispatch part.maxRetries part.nodeId (part.bmId c) (s.thread.request c) (s.thread.retries c)
      found = .ok (effects, retries) →
    ServiceStep W C part s
      (((s.setThread (s.thread.conclude part.numberMailboxes c effects retries)).setClient c
        { s.client c with
          receiveFlag := effects.any Effect.responds || (s.client c).receiveFlag }).recordAll c
        (effects.map (Effect.mark (s.thread.request c))))
  | readDone {c : Nat} : s.thread.AtEnd part.numberMailboxes → c ∈ s.thread.asyncReads →
    ServiceStep W C part s ((s.setThread (s.thread.readDone c)).record c
      (.rearmed (s.thread.request c)))
  | nextRound : s.thread.AtEnd part.numberMailboxes →
    ServiceStep W C part s (s.setThread s.thread.nextRound)

/-- All runs of the thread and its clients. -/
def service (W C : Type) (part : Partition) : System Service where
  Init s := ∃ request, s = ⟨.start request, fun _ => ⟨.ready, false⟩, fun _ => []⟩
  Step := ServiceStep W C part

/-! ## Where a request is -/

/-- The mailbox, the handler, the read buffer and the client of slot `c` agree with the phase of
its latest request. -/
def Matches (s : Service) (c : Nat) : Phase → Prop
  | .quiet =>
      s.thread.mailboxes c = false ∧ s.thread.handling ≠ some c ∧ c ∉ s.thread.asyncReads ∧
        ((s.client c).pc = .ready ∨
          ((s.client c).pc = .awaiting ∧ (s.client c).receiveFlag = true))
  | .waiting r =>
      s.thread.request c = r ∧ s.thread.handling ≠ some c ∧ c ∉ s.thread.asyncReads ∧
        (s.client c).receiveFlag = false ∧
        ((s.client c).pc = .posting ∧ s.thread.mailboxes c = false ∨
          (s.client c).pc = (if r.type = .finish then .gone else .awaiting) ∧
            s.thread.mailboxes c = true)
  | .handled r =>
      s.thread.request c = r ∧ s.thread.handling = some c ∧ c ∉ s.thread.asyncReads ∧
        (s.client c).receiveFlag = false ∧ s.thread.mailboxes c = false ∧
        (s.client c).pc = (if r.type = .finish then .gone else .awaiting)
  | .parked r =>
      s.thread.request c = r ∧ s.thread.handling ≠ some c ∧ s.thread.asyncReads.count c = 1 ∧
        (s.client c).receiveFlag = false ∧ s.thread.mailboxes c = false ∧
        (s.client c).pc = (if r.type = .finish then .gone else .awaiting)
  | .closed =>
      s.thread.mailboxes c = false ∧ s.thread.handling ≠ some c ∧ c ∉ s.thread.asyncReads ∧
        (s.client c).pc = .gone

/-- The trace of slot `c` is allowed, and its phase is where the request really is. -/
def Served (s : Service) (c : Nat) : Prop :=
  ∃ p : Phase, Phase.quiet.follow (s.trace c) = some p ∧ Matches s c p

section Steps

variable {W C : Type} {part : Partition} {s s' : Service} {c : Nat}

/-- A slot that a step does not touch. -/
theorem Served.congr (h : Served s c) (hmailbox : s'.thread.mailboxes c = s.thread.mailboxes c)
    (hrequest : s'.thread.request c = s.thread.request c)
    (hhandling : s'.thread.handling = some c ↔ s.thread.handling = some c)
    (hreads : s'.thread.asyncReads.count c = s.thread.asyncReads.count c)
    (hclient : s'.client c = s.client c) (htrace : s'.trace c = s.trace c) : Served s' c := by
  have hmem : c ∈ s'.thread.asyncReads ↔ c ∈ s.thread.asyncReads := by
    rw [← List.count_pos_iff, ← List.count_pos_iff, hreads]
  obtain ⟨p, hp, hmatch⟩ := h
  refine ⟨p, by rw [htrace, hp], ?_⟩
  cases p <;> simpa only [Matches, hmailbox, hrequest, hhandling, hreads, hclient, hmem, ne_eq]
    using hmatch

/-- A slot whose request moves on. -/
theorem Served.advance {p q : Phase} {m : Mark} (hp : Phase.quiet.follow (s.trace c) = some p)
    (hnext : p.next m = some q) (htrace : s'.trace c = s.trace c ++ [m])
    (hmatch : Matches s' c q) : Served s' c := by
  refine ⟨q, ?_, hmatch⟩
  rw [htrace, Phase.follow_append hp]
  simp [Phase.follow, hnext]

/-- Everything a step does to the slots other than `c`. -/
theorem Served.of_ne {d : Nat} (hne : d ≠ c) (h : Served s d) {t : Thread} {x : Client} {m : Mark}
    (hmailbox : t.mailboxes d = s.thread.mailboxes d)
    (hrequest : t.request d = s.thread.request d)
    (hhandling : t.handling = some d ↔ s.thread.handling = some d)
    (hreads : t.asyncReads.count d = s.thread.asyncReads.count d) :
    Served (((s.setThread t).setClient c x).record c m) d :=
  h.congr hmailbox hrequest hhandling hreads
    (by simp [Service.record, Service.recordAll, Service.setClient, Service.setThread,
      Function.update_of_ne hne])
    (by simp [Service.record, Service.recordAll, Service.setClient, Service.setThread,
      Function.update_of_ne hne])

theorem ServiceStep.served (st : ServiceStep W C part s s') (h : ∀ c, Served s c) (d : Nat) :
    Served s' d := by
  obtain ⟨p, hp, hmatch⟩ := h d
  cases st with
  | @write c req hpc =>
      by_cases hd : d = c
      · subst hd
        cases p <;> simp only [Matches, hpc] at hmatch <;> try grind
        refine Served.advance (m := .asked req) (q := .waiting req) hp rfl
          (by simp [Service.record, Service.recordAll, Service.setClient, Service.setThread]) ?_
        simp [Matches, Service.record, Service.recordAll, Service.setClient, Service.setThread,
          Thread.writeRequest, hmatch]
      · exact (h d).of_ne hd rfl (by simp [Thread.writeRequest, hd]) Iff.rfl rfl
  | @flag c hpc =>
      by_cases hd : d = c
      · subst hd
        cases p <;> simp only [Matches, hpc] at hmatch <;> try grind
        rename_i r
        refine ⟨.waiting r, hp, ?_⟩
        simp [Matches, Service.setClient, Service.setThread, Thread.setMailbox, hmatch]
      · refine (h d).congr ?_ rfl Iff.rfl rfl ?_ rfl <;>
          simp [Service.setClient, Service.setThread, Thread.setMailbox, hd]
  | @collect c hpc hflag =>
      by_cases hd : d = c
      · subst hd
        cases p <;> simp only [Matches, hpc, hflag] at hmatch <;> try grind
        refine ⟨.quiet, hp, ?_⟩
        simp [Matches, Service.setClient, hmatch]
      · refine (h d).congr rfl rfl Iff.rfl rfl ?_ rfl
        simp [Service.setClient, hd]
  | skip _ _ => exact (h d).congr rfl rfl Iff.rfl rfl rfl rfl
  | @take c hat hc hmailbox =>
      by_cases hd : d = c
      · subst hd
        cases p <;> simp only [Matches, hmailbox, hat.1] at hmatch <;> try grind
        rename_i r
        refine Served.advance (m := .taken (s.thread.request d)) (q := .handled r) hp
          (by simp [Phase.next, hmatch])
          (by simp [Service.record, Service.recordAll, Service.setThread]) ?_
        obtain ⟨hrequest, _, hreads, hflag, hpc⟩ := hmatch
        have hpc := hpc.resolve_left fun hposting => Bool.noConfusion hposting.2
        simp [Matches, Service.record, Service.recordAll, Service.setThread, Thread.take, ← hc,
          hrequest, hreads, hflag, hpc]
      · refine (h d).congr ?_ rfl ?_ rfl rfl ?_
        · simp [Service.record, Service.recordAll, Service.setThread, Thread.take, ← hc, hd]
        · simp [Service.record, Service.recordAll, Service.setThread, Thread.take, ← hc, hat.1,
            Ne.symm hd]
        · simp [Service.record, Service.recordAll, Service.setThread, hd]
  | @handle c effects retries found hhandling hdisp =>
      obtain ⟨e, rfl, hfinish⟩ : ∃ e, effects = [e] ∧
          (e = .finish ↔ (s.thread.request c).type = .finish) := by
        rcases dispatch_once hdisp with ⟨htype, heq⟩ | ⟨htype, e, heq, he⟩
        · exact ⟨_, heq, by simp [htype]⟩
        · exact ⟨e, heq, by simp [htype, he]⟩
      by_cases hd : d = c
      · subst hd
        cases p <;> simp only [Matches, hhandling] at hmatch <;> try grind
        rename_i r
        rw [hmatch.1] at hfinish
        cases e with
        | respond resp =>
            have htype : r.type ≠ .finish := fun h => by simpa using hfinish.mpr h
            refine Served.advance (m := .answered (s.thread.request d)) (q := .quiet) hp
              (by simp [Phase.next, hmatch, htype])
              (by simp [Service.recordAll, Service.setClient, Service.setThread, Effect.mark]) ?_
            simp [Matches, Service.recordAll, Service.setClient, Service.setThread,
              Thread.conclude, Thread.perform, Effect.responds, hmatch, htype]
        | rearm =>
            refine Served.advance (m := .rearmed (s.thread.request d)) (q := .waiting r) hp
              (by simp [Phase.next, hmatch])
              (by simp [Service.recordAll, Service.setClient, Service.setThread, Effect.mark]) ?_
            simp [Matches, Service.recordAll, Service.setClient, Service.setThread,
              Thread.conclude, Thread.perform, Effect.responds, hmatch]
        | recheck =>
            refine Served.advance (m := .parked (s.thread.request d)) (q := .parked r) hp
              (by simp [Phase.next, hmatch])
              (by simp [Service.recordAll, Service.setClient, Service.setThread, Effect.mark]) ?_
            simp [Matches, Service.recordAll, Service.setClient, Service.setThread,
              Thread.conclude, Thread.perform, Effect.responds, hmatch,
              List.count_eq_zero_of_not_mem]
        | finish =>
            have htype := hfinish.mp rfl
            refine Served.advance (m := .finished (s.thread.request d)) (q := .closed) hp
              (by simp [Phase.next, hmatch, htype])
              (by simp [Service.recordAll, Service.setClient, Service.setThread, Effect.mark]) ?_
            simp [Matches, Service.recordAll, Service.setClient, Service.setThread,
              Thread.conclude, Thread.perform, hmatch, htype]
      · refine (h d).of_ne hd ?_ rfl ?_ ?_
        · simp only [Thread.conclude, Thread.perform, List.foldl_cons, List.foldl_nil]
          split <;> simp [hd]
        · simp [Thread.conclude, hhandling, Ne.symm hd]
        · simp only [Thread.conclude, Thread.perform, List.foldl_cons, List.foldl_nil]
          split <;> simp [Ne.symm hd]
  | @readDone c hat hmem =>
      by_cases hd : d = c
      · subst hd
        cases p <;> simp only [Matches, hat.1] at hmatch <;> try grind
        rename_i r
        refine Served.advance (m := .rearmed (s.thread.request d)) (q := .waiting r) hp
          (by simp [Phase.next, hmatch])
          (by simp [Service.record, Service.recordAll, Service.setThread]) ?_
        simp only [Matches, Service.record, Service.recordAll, Service.setThread, Thread.readDone,
          Function.update_self, hmatch, hat.1]
        have hgone : d ∉ s.thread.asyncReads.erase d := by
          rw [← List.count_pos_iff, List.count_erase_self, hmatch.2.2.1]
          exact Nat.lt_irrefl 0
        simp [hgone]
      · refine (h d).congr ?_ rfl Iff.rfl ?_ rfl ?_
        · simp [Service.record, Service.recordAll, Service.setThread, Thread.readDone, hd]
        · simp [Service.record, Service.recordAll, Service.setThread, Thread.readDone,
            List.count_erase_of_ne hd]
        · simp [Service.record, Service.recordAll, Service.setThread, hd]
  | nextRound _ => exact (h d).congr rfl rfl Iff.rfl rfl rfl rfl

/-- In every state of every run, for every client: its trace is allowed and its outstanding
request is exactly where the trace says; and between two consecutive requests there is exactly
one response, to the first of them. -/
theorem requests_answered_once (hs : (service W C part).Reachable s) (c : Nat) :
    Served s c ∧
      ∀ pre r mid r' post, s.trace c = pre ++ .asked r :: (mid ++ .asked r' :: post) →
        (∀ m ∈ mid, m.isAsked = false) → mid.filter Mark.isAnswered = [.answered r] := by
  have hserved : Served s c := by
    revert c
    refine hs.invariant (P := fun s => ∀ c, Served s c) ?_ ?_
    · rintro s ⟨request, rfl⟩ c
      exact ⟨.quiet, rfl, rfl, by simp [Thread.start], by simp [Thread.start], Or.inl rfl⟩
    · intro s s' _ h st
      exact st.served h
  refine ⟨hserved, ?_⟩
  intro pre r mid r' post htrace hmid
  obtain ⟨q, hq, _⟩ := hserved
  rw [htrace] at hq
  obtain ⟨p, _, hrest⟩ := Phase.follow_of_append hq
  obtain ⟨p₁, hp₁, hrest⟩ := Option.bind_eq_some_iff.mp hrest
  have hopen : p₁.Open r := by
    cases p <;> simp [Phase.next] at hp₁
    exact Or.inl hp₁.symm
  exact hopen.answered hmid hrest

/-- A delegation request, its answer, and the client's next request. -/
theorem requests_answered_once_twice : ∃ s,
    (service Unit Unit ⟨1, 10, 0, fun _ => 1⟩).Reachable s ∧ Served s 0 ∧
      s.trace 0 = [.asked ⟨.dr, 0, 0⟩, .taken ⟨.dr, 0, 0⟩, .answered ⟨.dr, 0, 0⟩,
        .asked ⟨.rar, 0, 0⟩] ∧
      [Mark.taken ⟨.dr, 0, 0⟩, .answered ⟨.dr, 0, 0⟩].filter Mark.isAnswered =
        [.answered ⟨.dr, 0, 0⟩] := by
  have h₀ : (service Unit Unit ⟨1, 10, 0, fun _ => 1⟩).Reachable _ :=
    .init ⟨fun _ => ⟨.dr, 0, 0⟩, rfl⟩
  have h₁ := h₀.step (ServiceStep.write (c := 0) ⟨.dr, 0, 0⟩ rfl)
  have h₂ := h₁.step (ServiceStep.flag (c := 0) rfl)
  have h₃ := h₂.step (ServiceStep.take (c := 0) (by decide) rfl rfl)
  have h₄ := h₃.step (ServiceStep.handle (c := 0) .notFound rfl rfl)
  have h₅ := h₄.step (ServiceStep.collect (c := 0) rfl rfl)
  have h₆ := h₅.step (ServiceStep.write (c := 0) ⟨.rar, 0, 0⟩ rfl)
  have hall := requests_answered_once h₆ 0
  refine ⟨_, h₆, hall.1, rfl, hall.2 [] _ _ ⟨.rar, 0, 0⟩ [] rfl ?_⟩
  decide

end Steps

end ScaleStore.Mailbox
