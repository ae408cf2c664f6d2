/-
# In-flight copy requests

When the owner answers a shared request with `NoPageEvicted`, the client goes on
to copy the page from another node.  Until the client's next request the handler
keeps the page registered in the client's slot of `inflightCRs`, and the page
providers refuse to evict a copy of a registered page.

The slot is registered at `mailboxIdx` but reset at `m_i`.  The two agree in the
first round and again once `startPosition` has passed the number of mailboxes; in
the rounds between, a request can reset the slot of another client and leave its
own.
-/

import ScaleStore.Lib.System
import ScaleStore.Mailbox.Loop
import ScaleStore.Protocol.HandlerSpecs
import Mathlib.Data.List.Sort

namespace ScaleStore.Mailbox

open ScaleStore.Protocol (NodeID)

/-! ## The page provider's check -/

/-- The sorted copy of the registered PIDs up to the first `EMPTY_PID`. -/
def validPids (inflightCRs : List (WithTop PID)) : List (WithTop PID) :=
  (inflightCRs.insertionSort (· ≤ ·)).takeWhile (· ≠ emptyPid)

/-- The pages of the latched frames whose eviction phase 1 acknowledges: a page found by
`std::binary_search` among the valid PIDs is refused. -/
def acknowledged (guards : List PID) (inflightCRs : List (WithTop PID)) : List PID :=
  guards.filter fun pid =>
    !(validPids inflightCRs ≠ [] && decide (WithTop.some pid ∈ validPids inflightCRs))

theorem mem_takeWhile_of_sorted {l : List (WithTop PID)} (hsorted : l.Pairwise (· ≤ ·))
    {x : WithTop PID} (hx : x ∈ l) (hne : x ≠ emptyPid) : x ∈ l.takeWhile (· ≠ emptyPid) := by
  induction l with
  | nil => cases hx
  | cons y l ih =>
      obtain ⟨hle, hsorted⟩ := List.pairwise_cons.mp hsorted
      have hy : y ≠ emptyPid := by
        rintro rfl
        rcases List.mem_cons.mp hx with rfl | hx
        · exact hne rfl
        · exact hne (top_le_iff.mp (hle x hx))
      rw [List.takeWhile_cons_of_pos (by simpa using hy)]
      rcases List.mem_cons.mp hx with rfl | hx
      · exact List.mem_cons_self
      · exact List.mem_cons_of_mem y (ih hsorted hx)

/-- A registered page is not acknowledged. -/
theorem not_mem_acknowledged {guards : List PID} {inflightCRs : List (WithTop PID)} {pid : PID}
    (hreg : WithTop.some pid ∈ inflightCRs) : pid ∉ acknowledged guards inflightCRs := by
  have hvalid : WithTop.some pid ∈ validPids inflightCRs :=
    mem_takeWhile_of_sorted (List.pairwise_insertionSort _ _) ((List.mem_insertionSort _).mpr hreg)
      (WithTop.coe_ne_top)
  intro hmem
  have hrefused := (List.mem_filter.mp hmem).2
  rw [decide_eq_true (List.ne_nil_of_mem hvalid), decide_eq_true hvalid] at hrefused
  cases hrefused

/-! ## The system -/

/-- A page provider working on one eviction request: the frames of `guards` are latched and the
slots of the first `copied` partitions have been copied. -/
inductive Provider where
  | idle
  | copying (guards : List PID) (copied : Nat) (inflightCRs : List (WithTop PID))
deriving DecidableEq

def Provider.guards : Provider → List PID
  | .idle => []
  | .copying guards _ _ => guards

/-- Handler threads, page providers, and the mailboxes and connections of the threads. -/
structure Setup where
  threads : Nat
  providers : Nat
  numberMailboxes : Fin threads → Nat
  maxRetries : Nat
  nodeId : NodeID
  bmId : Fin threads → Nat → NodeID

structure State (su : Setup) where
  thread : Fin su.threads → Thread
  provider : Fin su.providers → Provider
  /-- The page and version of a client's latest taken request, if that was a PRS answered with
  `NoPageEvicted`. -/
  told : Fin su.threads → Nat → Option (PID × Nat)

section System

variable {su : Setup} {W C : Type}

/-- What happens next, and at which thread or provider. -/
inductive Event (su : Setup) (W C : Type) where
  | post (i : Fin su.threads) (c : Nat) (req : Request)
  | skip (i : Fin su.threads)
  | take (i : Fin su.threads)
  | handle (i : Fin su.threads) (found : Lookup W C)
  | readDone (i : Fin su.threads) (c : Nat)
  | nextRound (i : Fin su.threads)
  /-- The frames of an eviction request that could be latched. -/
  | latch (k : Fin su.providers) (guards : List PID)
  /-- The slots of one more partition are copied under its mutex. -/
  | copy (k : Fin su.providers)
  /-- Every latched frame is acknowledged or refused. -/
  | answer (k : Fin su.providers)

def Lookup.isLatched : Lookup W C → Bool
  | .latched _ => true
  | _ => false

def State.setThread (s : State su) (i : Fin su.threads) (t : Thread) : State su :=
  { s with thread := Function.update s.thread i t }

def State.setProvider (s : State su) (k : Fin su.providers) (p : Provider) : State su :=
  { s with provider := Function.update s.provider k p }

/-- The client `c` of thread `i` was last told `copy`. -/
def State.tell (s : State su) (i : Fin su.threads) (c : Nat) (copy : Option (PID × Nat)) :
    State su :=
  { s with told := Function.update s.told i (Function.update (s.told i) c copy) }

/-- The PIDs in the slots of a partition. -/
def State.slots (s : State su) (i : Fin su.threads) : List (WithTop PID) :=
  (List.range (su.numberMailboxes i)).map fun c => ((s.thread i).inflightCRs c).pid

/-- One event; `none` when it cannot happen.  A frame that a page provider has latched is not
latched by a handler. -/
def step (s : State su) : Event su W C → Option (State su)
  | .post i c req =>
      if c < su.numberMailboxes i then some (s.setThread i ((s.thread i).post c req)) else none
  | .skip i =>
      let t := s.thread i
      if t.AtMailbox (su.numberMailboxes i) ∧ t.mailboxes (t.current (su.numberMailboxes i)) = false
      then some (s.setThread i (t.skip (su.numberMailboxes i)))
      else none
  | .take i =>
      let t := s.thread i
      let c := t.current (su.numberMailboxes i)
      if t.AtMailbox (su.numberMailboxes i) ∧ t.mailboxes c = true
      then some ((s.setThread i (t.take (su.numberMailboxes i))).tell i c none)
      else none
  | .handle i found =>
      let t := s.thread i
      match t.handling with
      | none => none
      | some c =>
          let req := t.request c
          if found.isLatched = true ∧ ∃ k, req.pid ∈ (s.provider k).guards then none
          else match dispatch su.maxRetries su.nodeId (su.bmId i c) req (t.retries c) found with
            | .error _ => none
            | .ok (effects, retries) =>
                some ((s.setThread i (t.conclude (su.numberMailboxes i) c effects retries)).tell i c
                  (if req.type = .prs then effects.findSome? (Thread.copyOf req) else none))
  | .readDone i c =>
      let t := s.thread i
      if t.AtEnd (su.numberMailboxes i) ∧ c ∈ t.asyncReads then some (s.setThread i (t.readDone c))
      else none
  | .nextRound i =>
      let t := s.thread i
      if t.AtEnd (su.numberMailboxes i) then some (s.setThread i t.nextRound) else none
  | .latch k guards =>
      match s.provider k with
      | .idle => some (s.setProvider k (.copying guards 0 []))
      | .copying _ _ _ => none
  | .copy k =>
      match s.provider k with
      | .idle => none
      | .copying guards copied snapshot =>
          if h : copied < su.threads then
            some (s.setProvider k
              (.copying guards (copied + 1) (snapshot ++ s.slots ⟨copied, h⟩)))
          else none
  | .answer k =>
      match s.provider k with
      | .idle => none
      | .copying _ copied _ => if copied = su.threads then some (s.setProvider k .idle) else none

/-- Nothing has been requested yet; the request buffers hold anything. -/
def State.start (request : Fin su.threads → Nat → Request) : State su where
  thread := fun i => .start (request i)
  provider := fun _ => .idle
  told := fun _ _ => none

/-- The runs all of whose events are allowed where they happen. -/
def tracking (Allowed : State su → Event su W C → Prop) : System (State su) where
  Init s := ∃ request, s = .start request
  Step s s' := ∃ e, Allowed s e ∧ step s e = some s'

/-- The indices of the pass agree, or neither of the two slots they name is registered. -/
def Thread.Aligned (numberMailboxes : Nat) (t : Thread) : Prop :=
  t.rotation.m_i = t.current numberMailboxes ∨
    ((t.inflightCRs t.rotation.m_i).inflight = false ∧
      (t.inflightCRs (t.current numberMailboxes)).inflight = false)

instance (numberMailboxes : Nat) (t : Thread) : Decidable (t.Aligned numberMailboxes) :=
  inferInstanceAs (Decidable (_ ∨ _))

/-- A message is only taken in such a pass. -/
def Aligned (s : State su) : Event su W C → Prop
  | .take i => (s.thread i).Aligned (su.numberMailboxes i)
  | _ => True

instance (s : State su) : (e : Event su W C) → Decidable (Aligned s e)
  | .take i => inferInstanceAs (Decidable ((s.thread i).Aligned (su.numberMailboxes i)))
  | .post _ _ _ | .skip _ | .handle _ _ | .readDone _ _ | .nextRound _ | .latch _ _ | .copy _
  | .answer _ => inferInstanceAs (Decidable True)

/-! ## What is tracked -/

/-- The slot that says what a client was told. -/
def slotOf : Option (PID × Nat) → InflightCopyRequest
  | none => .unregistered
  | some (pid, pVersion) => .registered pid pVersion

/-- Every slot is registered with exactly the copy its client was told to make. -/
def Tracked (s : State su) : Prop :=
  ∀ i c, c < su.numberMailboxes i → (s.thread i).inflightCRs c = slotOf (s.told i c)

/-- No page provider is about to acknowledge a page that a client was told to copy and for
which that client's next request has not arrived. -/
def CopiesKept (s : State su) : Prop :=
  ∀ k guards snapshot, s.provider k = .copying guards su.threads snapshot →
    ∀ pid ∈ acknowledged guards snapshot, ∀ i c pVersion, c < su.numberMailboxes i →
      s.told i c = some (pid, pVersion) → (s.thread i).mailboxes c = true

/-- What a provider has copied contains every latched page that a client of a copied partition
is to copy. -/
def Copied (s : State su) : Prop :=
  ∀ k guards copied snapshot, s.provider k = .copying guards copied snapshot →
    copied ≤ su.threads ∧ ∀ pid ∈ guards, ∀ i : Fin su.threads, i.val < copied →
      ∀ c pVersion, c < su.numberMailboxes i → s.told i c = some (pid, pVersion) →
        WithTop.some pid ∈ snapshot

/-- What holds in every state of an aligned run. -/
structure Invariant (s : State su) : Prop where
  tracked : Tracked s
  handling : ∀ i c, (s.thread i).handling = some c → s.told i c = none
  copied : Copied s

end System

/-! ## Aligned runs -/

section Runs

variable {su : Setup} {W C : Type} {s s' : State su}

@[simp] theorem State.setThread_thread (s : State su) (i j : Fin su.threads) (t : Thread) :
    (s.setThread i t).thread j = if j = i then t else s.thread j := by
  simp [setThread, Function.update_apply]

@[simp] theorem State.setThread_provider (s : State su) (i : Fin su.threads) (t : Thread) :
    (s.setThread i t).provider = s.provider := rfl

@[simp] theorem State.setThread_told (s : State su) (i : Fin su.threads) (t : Thread) :
    (s.setThread i t).told = s.told := rfl

@[simp] theorem State.setProvider_provider (s : State su) (k l : Fin su.providers)
    (p : Provider) : (s.setProvider k p).provider l = if l = k then p else s.provider l := by
  simp [setProvider, Function.update_apply]

@[simp] theorem State.setProvider_thread (s : State su) (k : Fin su.providers) (p : Provider) :
    (s.setProvider k p).thread = s.thread := rfl

@[simp] theorem State.setProvider_told (s : State su) (k : Fin su.providers) (p : Provider) :
    (s.setProvider k p).told = s.told := rfl

@[simp] theorem State.tell_told (s : State su) (i j : Fin su.threads) (c d : Nat)
    (copy : Option (PID × Nat)) :
    (s.tell i c copy).told j d = if j = i ∧ d = c then copy else s.told j d := by
  by_cases hj : j = i
  · subst hj
    simp [tell, Function.update_apply]
  · simp [tell, hj]

@[simp] theorem State.tell_thread (s : State su) (i : Fin su.threads) (c : Nat)
    (copy : Option (PID × Nat)) : (s.tell i c copy).thread = s.thread := rfl

@[simp] theorem State.tell_provider (s : State su) (i : Fin su.threads) (c : Nat)
    (copy : Option (PID × Nat)) : (s.tell i c copy).provider = s.provider := rfl

theorem Rotation.index_lt {n : Nat} {r : Rotation} (hn : 0 < n) : r.index n < n := by
  unfold index
  split <;> omega

/-- A step of a thread that leaves slots, told copies and handling alone. -/
theorem Invariant.setThread (inv : Invariant s) {i : Fin su.threads} {t : Thread}
    (hslots : t.inflightCRs = (s.thread i).inflightCRs)
    (hhandling : t.handling = (s.thread i).handling) : Invariant (s.setThread i t) := by
  constructor
  · intro j c hc
    have htracked := inv.tracked j c hc
    by_cases hj : j = i
    · subst hj
      simpa [hslots] using htracked
    · simpa [hj] using htracked
  · intro j c hc
    have hnone := inv.handling j c
    by_cases hj : j = i
    · subst hj
      exact hnone (by simpa [hhandling] using hc)
    · exact hnone (by simpa [hj] using hc)
  · exact inv.copied

/-- Taking a message clears exactly what the client of the mailbox was told. -/
theorem Invariant.take (inv : Invariant s) {i : Fin su.threads}
    (hat : (s.thread i).AtMailbox (su.numberMailboxes i))
    (haligned : (s.thread i).Aligned (su.numberMailboxes i)) :
    Invariant ((s.setThread i ((s.thread i).take (su.numberMailboxes i))).tell i
      ((s.thread i).current (su.numberMailboxes i)) none) := by
  have hpos : 0 < su.numberMailboxes i := Nat.zero_lt_of_lt hat.2
  have hcur : (s.thread i).current (su.numberMailboxes i) < su.numberMailboxes i :=
    Rotation.index_lt hpos
  have hunregistered : ∀ c, c < su.numberMailboxes i →
      ((s.thread i).inflightCRs c).inflight = false →
      (s.thread i).inflightCRs c = .unregistered := by
    intro c hc hfree
    rw [inv.tracked i c hc] at hfree ⊢
    cases htold : s.told i c with
    | none => rfl
    | some copy => simp [htold, slotOf, InflightCopyRequest.registered] at hfree
  constructor
  · intro j c hc
    by_cases hj : j = i
    · subst hj
      have htracked := inv.tracked j c hc
      simp only [State.tell_thread, State.setThread_thread, if_true, State.tell_told,
        State.setThread_told, true_and, Thread.take]
      rcases haligned with hsame | ⟨hm, hc'⟩
      · -- the slot that is reset is the client's own
        rw [← hsame]
        by_cases heq : c = (s.thread j).rotation.m_i
        · subst heq
          rw [if_pos rfl]
          split
          · simp [slotOf]
          · rename_i hfree
            exact hunregistered _ hc (by simpa using hfree)
        · rw [if_neg heq]
          split
          · simpa [Function.update_apply, heq] using htracked
          · exact htracked
      · -- nothing is reset, and nothing had to be
        rw [if_neg (by simp [hm])]
        split
        · rename_i heq
          rw [heq]
          exact hunregistered _ hcur hc'
        · exact htracked
    · simpa [hj] using inv.tracked j c hc
  · intro j c hc
    by_cases hj : j = i
    · subst hj
      have : (s.thread j).current (su.numberMailboxes j) = c := by
        simpa [Thread.take] using hc
      simp [this]
    · simpa [hj] using inv.handling j c (by simpa [hj] using hc)
  · intro k guards copied snapshot hk
    obtain ⟨hle, hmem⟩ := inv.copied k guards copied snapshot hk
    refine ⟨hle, fun pid hpid j hj c pVersion hc htold => hmem pid hpid j hj c pVersion hc ?_⟩
    simp only [State.tell_told, State.setThread_told] at htold
    split at htold
    · cases htold
    · exact htold

/-- Answering registers what the client is told; a page that a provider has latched is not told
to anybody. -/
theorem Invariant.conclude (inv : Invariant s) {i : Fin su.threads} {c : Nat} {e : Effect}
    {retries : Nat} (hhandling : (s.thread i).handling = some c)
    {copy : Option (PID × Nat)} (hcopy : copy = Thread.copyOf ((s.thread i).request c) e)
    (hunlatched : ∀ x, copy = some x → ∀ k, x.1 ∉ (s.provider k).guards) :
    Invariant ((s.setThread i ((s.thread i).conclude (su.numberMailboxes i) c [e] retries)).tell i
      c copy) := by
  have hnone := inv.handling i c hhandling
  constructor
  · intro j c' hc'
    by_cases hj : j = i
    · subst hj
      have htracked := inv.tracked j c' hc'
      simp only [State.tell_thread, State.setThread_thread, if_true, State.tell_told,
        State.setThread_told, true_and, Thread.conclude, List.foldl_cons, List.foldl_nil,
        Thread.perform, ← hcopy]
      cases copy with
      | none =>
          by_cases heq : c' = c
          · subst heq
            simpa [hnone] using htracked
          · simpa [heq] using htracked
      | some copy =>
          by_cases heq : c' = c
          · subst heq
            simp [slotOf]
          · simpa [heq, Function.update_apply] using htracked
    · simpa [hj] using inv.tracked j c' hc'
  · intro j c' hc'
    by_cases hj : j = i
    · subst hj
      simp [Thread.conclude] at hc'
    · simpa [hj] using inv.handling j c' (by simpa [hj] using hc')
  · intro k guards copied snapshot hk
    obtain ⟨hle, hmem⟩ := inv.copied k guards copied snapshot hk
    refine ⟨hle, fun pid hpid j hj c' pVersion hc' htold => ?_⟩
    simp only [State.tell_told, State.setThread_told] at htold
    split at htold
    · have hk' : s.provider k = .copying guards copied snapshot := hk
      refine absurd ?_ (hunlatched _ htold k)
      simpa [hk', Provider.guards] using hpid
    · exact hmem pid hpid j hj c' pVersion hc' htold

/-- Copying one more partition. -/
theorem Invariant.copy (inv : Invariant s) {k : Fin su.providers} {guards : List PID}
    {copied : Nat} {snapshot : List (WithTop PID)}
    (hk : s.provider k = .copying guards copied snapshot) (hlt : copied < su.threads) :
    Invariant (s.setProvider k
      (.copying guards (copied + 1) (snapshot ++ s.slots ⟨copied, hlt⟩))) := by
  refine ⟨inv.tracked, inv.handling, ?_⟩
  intro l guards' copied' snapshot' hl
  simp only [State.setProvider_provider] at hl
  split at hl
  · obtain ⟨rfl, rfl, rfl⟩ := Provider.copying.inj hl
    refine ⟨hlt, fun pid hpid i hi c pVersion hc htold => ?_⟩
    rw [List.mem_append]
    rcases Nat.lt_succ_iff_lt_or_eq.mp hi with hi | hi
    · exact Or.inl ((inv.copied k _ _ _ hk).2 pid hpid i hi c pVersion hc htold)
    · right
      obtain rfl : i = ⟨copied, hlt⟩ := Fin.ext hi
      have htold' : s.told ⟨copied, hlt⟩ c = some (pid, pVersion) := htold
      refine List.mem_map.mpr ⟨c, List.mem_range.mpr hc, ?_⟩
      rw [inv.tracked _ c hc, htold']
      rfl
  · exact inv.copied l guards' copied' snapshot' hl

/-- Only an answer to a latched frame tells a client to copy. -/
theorem copyOf_latched {maxRetries retries retries' : Nat} {self bmId : NodeID} {req : Request}
    {found : Lookup W C} {e : Effect} {copy : PID × Nat}
    (hd : dispatch maxRetries self bmId req retries found = .ok ([e], retries'))
    (hcopy : Thread.copyOf req e = some copy) : found.isLatched = true ∧ copy.1 = req.pid := by
  have hpid : copy.1 = req.pid := by
    unfold Thread.copyOf at hcopy
    split at hcopy
    · split at hcopy
      · obtain rfl := Option.some.inj hcopy
        rfl
      · cases hcopy
    · cases hcopy
  refine ⟨?_, hpid⟩
  cases found with
  | latched f => rfl
  | _ =>
      cases htype : req.type <;>
        simp [dispatch, htype, keepRetries, possessionCase, moveCase, copyCase, updateCase,
          Except.map] at hd
      all_goals grind [Thread.copyOf]

/-- Only PRS is answered with `NoPageEvicted`. -/
theorem copyOf_prs {maxRetries retries retries' : Nat} {self bmId : NodeID} {req : Request}
    {found : Lookup W C} {e : Effect} {copy : PID × Nat}
    (hd : dispatch maxRetries self bmId req retries found = .ok ([e], retries'))
    (hcopy : Thread.copyOf req e = some copy) : req.type = .prs := by
  obtain ⟨f, rfl⟩ : ∃ f, found = .latched f := by
    have hlatched := (copyOf_latched hd hcopy).1
    cases found <;> simp_all [Lookup.isLatched]
  cases htype : req.type with
  | prs => rfl
  | prx =>
      simp only [dispatch, htype, keepRetries, possessionCase] at hd
      split at hd
      · obtain ⟨rfl, rfl⟩ : Effect.rearm = e ∧ retries = retries' := by
          simpa [Except.map] using hd
        cases hcopy
      · split at hd
        · rename_i r page f' hr
          obtain ⟨rfl, rfl⟩ : Effect.respond (some r) = e ∧ retries = retries' := by
            simpa [Except.map] using hd
          have hgrant := Protocol.Frame.handlePossessionRequest_grant
            (t := Protocol.Access.exclusive) hr
          cases hgrant <;> simp [Thread.copyOf] at hcopy
        · cases hd
  | _ =>
      simp only [dispatch, htype, keepRetries, moveCase, copyCase, updateCase] at hd
      grind [Thread.copyOf, Except.map]

theorem Invariant.step {e : Event su W C} (inv : Invariant s) (haligned : Aligned s e)
    (h : step s e = some s') : Invariant s' := by
  cases e with
  | post i c req =>
      simp only [Mailbox.step, Option.ite_none_right_eq_some, Option.some.injEq] at h
      obtain ⟨_, rfl⟩ := h
      exact inv.setThread rfl rfl
  | skip i =>
      simp only [Mailbox.step, Option.ite_none_right_eq_some, Option.some.injEq] at h
      obtain ⟨_, rfl⟩ := h
      exact inv.setThread rfl rfl
  | take i =>
      simp only [Mailbox.step, Option.ite_none_right_eq_some, Option.some.injEq] at h
      obtain ⟨⟨hat, _⟩, rfl⟩ := h
      exact inv.take hat haligned
  | handle i found =>
      simp only [Mailbox.step] at h
      split at h
      · cases h
      · rename_i c hc
        split at h
        · cases h
        · rename_i hfree
          split at h
          · cases h
          · rename_i effects retries hd
            obtain rfl := Option.some.inj h
            obtain ⟨e, rfl⟩ : ∃ e, effects = [e] := by
              rcases dispatch_once hd with ⟨_, heq⟩ | ⟨_, e, heq, _⟩
              · exact ⟨_, heq⟩
              · exact ⟨e, heq⟩
            rw [List.findSome?_singleton]
            refine inv.conclude hc ?_ ?_
            · split
              · rfl
              · rename_i htype
                cases hcopy : Thread.copyOf ((s.thread i).request c) e with
                | none => rfl
                | some copy => exact absurd (copyOf_prs hd hcopy) htype
            · intro copy hcopy k hk
              split at hcopy
              · obtain ⟨hlatched, hpid⟩ := copyOf_latched hd hcopy
                exact hfree ⟨hlatched, k, hpid ▸ hk⟩
              · cases hcopy
  | readDone i c =>
      simp only [Mailbox.step, Option.ite_none_right_eq_some, Option.some.injEq] at h
      obtain ⟨_, rfl⟩ := h
      exact inv.setThread rfl rfl
  | nextRound i =>
      simp only [Mailbox.step, Option.ite_none_right_eq_some, Option.some.injEq] at h
      obtain ⟨_, rfl⟩ := h
      exact inv.setThread rfl rfl
  | latch k guards =>
      simp only [Mailbox.step] at h
      split at h
      · obtain rfl := Option.some.inj h
        refine ⟨inv.tracked, inv.handling, ?_⟩
        intro l guards' copied snapshot hl
        simp only [State.setProvider_provider] at hl
        split at hl
        · obtain ⟨rfl, rfl, rfl⟩ := Provider.copying.inj hl
          exact ⟨Nat.zero_le _, fun _ _ _ hi => absurd hi (Nat.not_lt_zero _)⟩
        · exact inv.copied l guards' copied snapshot hl
      · cases h
  | copy k =>
      simp only [Mailbox.step] at h
      split at h
      · cases h
      · rename_i guards copied snapshot hk
        split at h
        · obtain rfl := Option.some.inj h
          exact inv.copy hk ‹_›
        · cases h
  | answer k =>
      simp only [Mailbox.step] at h
      split at h
      · cases h
      · split at h
        · obtain rfl := Option.some.inj h
          refine ⟨inv.tracked, inv.handling, ?_⟩
          intro l guards' copied snapshot hl
          simp only [State.setProvider_provider] at hl
          split at hl
          · cases hl
          · exact inv.copied l guards' copied snapshot hl
        · cases h

theorem invariant_start (request : Fin su.threads → Nat → Request) :
    Invariant (State.start request) := by
  refine ⟨fun _ _ _ => rfl, fun _ _ _ => rfl, ?_⟩
  intro k guards copied snapshot hk
  cases hk

/-- In every state of every run that takes each message in a pass with equal indices, or while
neither slot is registered: every slot says what its client was last told, and no page provider
is about to acknowledge a page that a client is still to copy. -/
theorem copies_tracked_of_aligned
    (hs : (tracking (Aligned : State su → Event su W C → Prop)).Reachable s) :
    Tracked s ∧ CopiesKept s := by
  have inv : Invariant s := by
    refine hs.invariant ?_ ?_
    · rintro s ⟨request, rfl⟩
      exact invariant_start request
    · rintro s s' _ inv ⟨e, haligned, h⟩
      exact inv.step haligned h
  refine ⟨inv.tracked, ?_⟩
  intro k guards snapshot hk pid hpid i c pVersion hc htold
  have hguard : pid ∈ guards := List.mem_of_mem_filter hpid
  exact absurd hpid (not_mem_acknowledged
    ((inv.copied k _ _ _ hk).2 pid hguard i i.isLt c pVersion hc htold))

end Runs

/-! ## A run that loses a copy request -/

section Lost

local instance instNeZeroThreads : NeZero 1 := ⟨Nat.one_ne_zero⟩

/-- One handler thread with two clients, one page provider, two nodes. -/
abbrev twoClients : Setup where
  threads := 1
  providers := 1
  numberMailboxes := fun _ => 2
  maxRetries := 10
  nodeId := 0
  bmId := fun _ c => if c = 0 then 1 else 2

/-- The owner's frame of a page that only node 3 has. -/
def evictedFrame : Protocol.Frame Unit Unit where
  state := .evicted
  possession := .shared
  possessors := Protocol.Possessors.set 0#64 3
  pVersion := 5
  mhWaiting := false
  dirty := false
  page := none
  holder := none
  readers := ∅

/-- Client 0 asks for page 7 and is told to copy it; in the next round client 1 allocates a
page, and then the eviction of node 3's copy of page 7 is handled. -/
def lostCopy : List (Event twoClients Unit Unit) :=
  [.post 0 0 ⟨.prs, 7, 0⟩, .take 0, .handle 0 (.latched evictedFrame), .skip 0, .nextRound 0,
    .post 0 1 ⟨.rar, 0, 0⟩, .take 0, .handle 0 .notFound, .latch 0 [7], .copy 0]

/-- Events one after another, as long as they are allowed and can happen. -/
def runEvents {su : Setup} {W C : Type} (Allowed : State su → Event su W C → Prop)
    [∀ s e, Decidable (Allowed s e)] (s : State su) : List (Event su W C) → Option (State su)
  | [] => some s
  | e :: es => if Allowed s e then (step s e).bind fun s' => runEvents Allowed s' es else none

theorem reachable_runEvents {su : Setup} {W C : Type} {Allowed : State su → Event su W C → Prop}
    [∀ s e, Decidable (Allowed s e)] {s s' : State su} {es : List (Event su W C)}
    (hs : (tracking Allowed).Reachable s) (h : runEvents Allowed s es = some s') :
    (tracking Allowed).Reachable s' := by
  induction es generalizing s with
  | nil =>
      obtain rfl := Option.some.inj h
      exact hs
  | cons e es ih =>
      simp only [runEvents, Option.ite_none_right_eq_some] at h
      obtain ⟨hallowed, h⟩ := h
      obtain ⟨s₁, h₁, hrest⟩ := Option.bind_eq_some_iff.mp h
      exact ih (hs.step ⟨e, hallowed, h₁⟩) hrest

/-- The state the run ends in, as far as it matters: what client 0 was told, its slot and
mailbox, and what the page provider acknowledges. -/
def lostView (s : State twoClients) : Option (PID × Nat) × InflightCopyRequest × Bool × List PID :=
  (s.told 0 0, (s.thread 0).inflightCRs 0, (s.thread 0).mailboxes 0,
    match s.provider 0 with
    | .idle => []
    | .copying guards copied snapshot =>
        if copied = twoClients.threads then acknowledged guards snapshot else [])

def quiet : State twoClients := .start fun _ _ => ⟨.dr, 0, 0⟩

/-- The slot of client 0 is reset by the request of client 1, and the page provider acknowledges
the eviction of the copy that client 0 is reading. -/
theorem inflight_copy_lost : ∃ s : State twoClients,
    (tracking (W := Unit) (C := Unit) fun _ _ => True).Reachable s ∧ ¬ Tracked s ∧
      ¬ CopiesKept s := by
  have hview : (runEvents (fun _ _ => True) quiet lostCopy).map lostView =
      some (some (7, 5), .unregistered, false, [7]) := by decide +kernel
  obtain ⟨s, hrun, hview⟩ := Option.map_eq_some_iff.mp hview
  simp only [lostView, Prod.mk.injEq] at hview
  obtain ⟨htold, hslot, hmailbox, hack⟩ := hview
  refine ⟨s, reachable_runEvents (.init ⟨_, rfl⟩) hrun, ?_, ?_⟩
  · intro htracked
    have hreg := htracked 0 0 (by decide)
    rw [htold, hslot] at hreg
    exact absurd hreg (by decide)
  · intro hkept
    split at hack
    · cases hack
    · rename_i guards copied snapshot hk
      split at hack
      · rename_i hall
        subst hall
        have hsent := hkept 0 guards snapshot hk 7 (by simp [hack]) 0 0 5 (by decide) htold
        rw [hmailbox] at hsent
        cases hsent
      · cases hack

/-- The first round of the same run is aligned: the copy is registered. -/
theorem copies_tracked_first_round : ∃ s : State twoClients,
    s.told 0 0 = some (7, 5) ∧ Tracked s ∧ CopiesKept s := by
  have htold : (runEvents Aligned quiet (lostCopy.take 5)).map (fun s => s.told 0 0) =
      some (some (7, 5)) := by decide +kernel
  obtain ⟨s, hrun, htold⟩ := Option.map_eq_some_iff.mp htold
  exact ⟨s, htold, copies_tracked_of_aligned (reachable_runEvents (.init ⟨_, rfl⟩) hrun)⟩

end Lost

end ScaleStore.Mailbox
