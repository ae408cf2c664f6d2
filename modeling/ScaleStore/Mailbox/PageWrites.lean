/-
# Page buffers and the writes that read them

A message handler answers with a page by posting an RDMA write from the page's
buffer and drops the latch right away.  The write may read the buffer until it
has completed, and that is known only when a signaled write behind it has been
polled or when the requester's next message has come in.

A buffer that a handler takes out of a frame is parked in an invalidation batch
of the connection it is serving: active until the next poll, passive until the
one after it.  The poll that reclaims the batch comes with a message of this
client, so its own writes are over by then.  Nothing is waited for on the other
connections, and a page provider does not wait at all: a buffer is reused safely
exactly when no other client's last answer was this very page.
-/

import Mathlib.Logic.Function.Basic
import Mathlib.Tactic.Common

namespace ScaleStore.PageWrites

/-- Where a page buffer is.  The free list stands for `pageFreeList`, its thread batches and the
private buffers of the page providers. -/
inductive Place (F N : Type) where
  | free
  | frame (f : F)
  | active (c : N)
  | passive (c : N)
deriving DecidableEq, Repr

/-- The buffers `B`, the frames `F` and the client connections `N` of one node. -/
structure State (B F N : Type) where
  place : B → Place F N
  /-- `ctx.wqe`, the number of messages posted on a connection. -/
  wqe : N → Nat
  /-- The page writes posted on a connection, each with the `wqe` it was posted at. -/
  writes : N → List (Nat × B)
  /-- The writes posted before this one are known to have completed. -/
  completed : N → Nat

variable {B F N : Type} [DecidableEq B] [DecidableEq N]

namespace State

/-- Every write from the buffer on connection `c` is known to have completed. -/
def Quiet (s : State B F N) (b : B) (c : N) : Prop :=
  ∀ i, (i, b) ∈ s.writes c → i < s.completed c

def put (s : State B F N) (b : B) (p : Place F N) : State B F N :=
  { s with place := Function.update s.place b p }

/-- The next message of client `c` has come in. -/
def arrive (s : State B F N) (c : N) : State B F N :=
  { s with completed := Function.update s.completed c (s.wqe c) }

/-- What reclaiming the passive batch of `c` and swapping the batches does to a buffer. -/
def Place.rotate (c : N) : Place F N → Place F N
  | .passive d => if d = c then .free else .passive d
  | .active d => if d = c then .passive d else .active d
  | p => p

/-- `writeMsg` and `writePageAndMsg`: one in `interval` messages is signaled, and before the next
one is posted its completion is polled and the batches move on. -/
def writeMsg (interval : Nat) (s : State B F N) (c : N) (page : Option B) : State B F N :=
  let s := { s with
    writes := Function.update s.writes c ((page.map fun b => (s.wqe c, b)).toList ++ s.writes c) }
  let s :=
    if s.wqe c % interval = interval - 1 then
      { s with
        completed := Function.update s.completed c
          (max (s.completed c) (s.wqe c - (interval - 1) + 1))
        place := fun b => Place.rotate c (s.place b) }
    else s
  { s with wqe := Function.update s.wqe c (s.wqe c + 1) }

end State

/-- The cases of the message handler that touch a buffer, and the page provider. -/
inductive Event (B F N : Type) where
  /-- A message of the client comes in; it may have to be handled again later. -/
  | arrive (c : N)
  /-- PRS or PCR answered with the page; the frame keeps it. -/
  | sendCopy (c : N) (f : F) (b : B)
  /-- PRX or PMR answered with the page, which the frame then gives up. -/
  | sendAway (c : N) (f : F) (b : B)
  /-- PMR answered without the page, which the frame then gives up. -/
  | invalidate (c : N) (f : F) (b : B)
  /-- PUR on a frame that has the page: it is given up first. -/
  | update (c : N) (f : F) (b : B)
  /-- Any answer without a page that leaves the frames alone. -/
  | answer (c : N)
  /-- `evict_owner_page`, and phase 5 on a frame of another node's page. -/
  | evict (f : F) (b : B)
  /-- A frame gets a page from the free list. -/
  | fill (f : F) (b : B)

namespace Event

/-- The client a handler serves; a page provider serves none. -/
def client : Event B F N → Option N
  | .arrive c | .sendCopy c _ _ | .sendAway c _ _ | .invalidate c _ _ | .update c _ _
  | .answer c => some c
  | .evict _ _ | .fill _ _ => none

/-- The page an answer carries. -/
def page : Event B F N → Option B
  | .sendCopy _ _ b | .sendAway _ _ b => some b
  | .arrive _ | .invalidate _ _ _ | .update _ _ _ | .answer _ | .evict _ _ | .fill _ _ => none

end Event

/-- One event.  A handler's request has come in before it is handled. -/
inductive Step (interval : Nat) (s : State B F N) : Event B F N → State B F N → Prop where
  | arrive {c} : Step interval s (.arrive c) (s.arrive c)
  | sendCopy {c f b} : s.place b = .frame f →
    Step interval s (.sendCopy c f b) ((s.arrive c).writeMsg interval c (some b))
  | sendAway {c f b} : s.place b = .frame f →
    Step interval s (.sendAway c f b)
      (((s.arrive c).writeMsg interval c (some b)).put b (.active c))
  | invalidate {c f b} : s.place b = .frame f →
    Step interval s (.invalidate c f b) (((s.arrive c).writeMsg interval c none).put b (.active c))
  | update {c f b} : s.place b = .frame f →
    Step interval s (.update c f b) (((s.arrive c).put b (.active c)).writeMsg interval c none)
  | answer {c} : Step interval s (.answer c) ((s.arrive c).writeMsg interval c none)
  | evict {f b} : s.place b = .frame f → Step interval s (.evict f b) (s.put b .free)
  | fill {f b} : s.place b = .free → Step interval s (.fill f b) (s.put b (.frame f))

/-- Before anything has been posted. -/
def Init (s : State B F N) : Prop :=
  (∀ c, s.wqe c = 0 ∧ s.writes c = [] ∧ s.completed c = 0) ∧
    ∀ b, s.place b = .free ∨ ∃ f, s.place b = .frame f

/-- The runs of the handlers and the page providers, each with its events, the latest first. -/
inductive Trace (interval : Nat) : List (Event B F N) → State B F N → Prop where
  | init {s} : Init s → Trace interval [] s
  | step {es s e s'} : Trace interval es s → Step interval s e s' → Trace interval (e :: es) s'

/-- The page the client was answered with, unless it has sent another message since. -/
def lastAnswer (c : N) : List (Event B F N) → Option B
  | [] => none
  | e :: es => if e.client = some c then e.page else lastAnswer c es

/-- The buffer is handed to the free list or to a private buffer. -/
def HandedOver (s s' : State B F N) (b : B) : Prop := s.place b ≠ .free ∧ s'.place b = .free

/-! ## What a message leaves behind -/

section Steps

variable {interval : Nat} {s s' : State B F N} {b : B} {c : N} {e : Event B F N}
  {es : List (Event B F N)}

omit [DecidableEq B] in
theorem rotate_frame {f : F} : State.Place.rotate c (.frame f) = .frame f := rfl

omit [DecidableEq B] in
theorem writeMsg_writes (s : State B F N) (c : N) (page : Option B) :
    (s.writeMsg interval c page).writes =
      Function.update s.writes c ((page.map fun b => (s.wqe c, b)).toList ++ s.writes c) := by
  simp only [State.writeMsg]
  split <;> rfl

omit [DecidableEq B] in
/-- The writes after a message: the ones before it, and the page that was sent. -/
theorem mem_writeMsg {page : Option B} {d : N} {i : Nat} :
    (i, b) ∈ (s.writeMsg interval c page).writes d ↔
      (i, b) ∈ s.writes d ∨ (d = c ∧ i = s.wqe c ∧ page = some b) := by
  rw [writeMsg_writes]
  by_cases hd : d = c
  · subst hd
    simp only [Function.update_self, List.mem_append, Option.mem_toList, Option.map_eq_some_iff,
      Prod.mk.injEq, true_and]
    constructor
    · rintro (⟨x, hx, hi, rfl⟩ | h)
      · exact Or.inr ⟨hi.symm, hx⟩
      · exact Or.inl h
    · rintro (h | ⟨hi, hx⟩)
      · exact Or.inr h
      · exact Or.inl ⟨b, hx, hi.symm, rfl⟩
  · simp [hd]

omit [DecidableEq B] in
theorem writeMsg_wqe (s : State B F N) (c : N) (page : Option B) :
    (s.writeMsg interval c page).wqe = Function.update s.wqe c (s.wqe c + 1) := by
  simp only [State.writeMsg]
  split <;> rfl

omit [DecidableEq B] in
/-- Where a buffer is after a message: the batches move on when the message polls. -/
theorem writeMsg_place (s : State B F N) (c : N) (page : Option B) :
    (s.writeMsg interval c page).place = if s.wqe c % interval = interval - 1 then
      fun b => State.Place.rotate c (s.place b) else s.place := by
  simp only [State.writeMsg]
  split <;> rfl

omit [DecidableEq B] in
theorem writeMsg_frame {page : Option B} {f : F} (h : s.place b = .frame f) :
    (s.writeMsg interval c page).place b = .frame f := by
  rw [writeMsg_place]
  split
  · simp only [h, rotate_frame]
  · exact h

omit [DecidableEq B] in
theorem writeMsg_completed_of_ne {page : Option B} {d : N} (hd : d ≠ c) :
    (s.writeMsg interval c page).completed d = s.completed d := by
  simp only [State.writeMsg]
  split <;> simp [hd]

omit [DecidableEq B] in
/-- A message whose request has come in finds the earlier writes completed.  Its poll waits for
its own write only when every message is signaled. -/
theorem writeMsg_completed {page : Option B} (hinterval : 0 < interval) (s : State B F N) (c : N) :
    ((s.arrive c).writeMsg interval c page).completed c =
      if interval = 1 then s.wqe c + 1 else s.wqe c := by
  have hwqe : (s.arrive c).wqe c = s.wqe c := rfl
  have hcompleted : (s.arrive c).completed c = s.wqe c := by simp [State.arrive]
  have hmod := Nat.mod_le (s.wqe c) interval
  simp only [State.writeMsg, hwqe, hcompleted]
  by_cases hone : interval = 1
  · subst hone
    simp [Nat.mod_one]
  · rw [if_neg hone]
    split
    · rename_i hpoll
      simp only [Function.update_self]
      omega
    · exact hcompleted

/-! ## What is known about the posted writes -/

/-- The writes from a buffer that are not known to have completed are those of last answers. -/
structure Invariant (interval : Nat) (es : List (Event B F N)) (s : State B F N) : Prop where
  posted : ∀ c i b, (i, b) ∈ s.writes c → i < s.wqe c
  quiet : ∀ b c, s.Quiet b c ↔ interval = 1 ∨ lastAnswer c es ≠ some b

omit [DecidableEq B] in
theorem lastAnswer_cons_of_eq (h : e.client = some c) : lastAnswer c (e :: es) = e.page :=
  if_pos h

omit [DecidableEq B] in
theorem lastAnswer_cons_of_ne (h : e.client ≠ some c) :
    lastAnswer c (e :: es) = lastAnswer c es := if_neg h

/-- An event that posts nothing and learns nothing. -/
theorem Invariant.put (inv : Invariant interval es s) {p : Place F N} (he : e.client = none) :
    Invariant interval (e :: es) (s.put b p) := by
  refine ⟨inv.posted, fun x d => ?_⟩
  rw [lastAnswer_cons_of_ne (by simp [he])]
  exact inv.quiet x d

omit [DecidableEq B] in
/-- A message has come in: nothing on its connection is being read any more. -/
theorem Invariant.arrive (inv : Invariant interval es s) (he : e.client = some c)
    (hpage : e.page = none) : Invariant interval (e :: es) (s.arrive c) := by
  refine ⟨inv.posted, fun x d => ?_⟩
  by_cases hd : d = c
  · subst hd
    have hquiet : (s.arrive d).Quiet x d := by
      intro i hi
      simpa [State.arrive] using inv.posted d i x hi
    simp [hquiet, lastAnswer_cons_of_eq he, hpage]
  · rw [lastAnswer_cons_of_ne (by simpa [he] using Ne.symm hd), ← inv.quiet x d]
    simp [State.Quiet, State.arrive, hd]

/-- An answer leaves at most its own write behind. -/
theorem Invariant.answer (inv : Invariant interval es s) (hinterval : 0 < interval)
    (he : e.client = some c) :
    Invariant interval (e :: es) ((s.arrive c).writeMsg interval c e.page) := by
  constructor
  · intro d i x hi
    rw [writeMsg_wqe]
    rcases mem_writeMsg.mp hi with h | ⟨rfl, rfl, _⟩
    · have hlt : i < s.wqe d := inv.posted d i x h
      by_cases hd : d = c
      · subst hd
        simpa [State.arrive] using Nat.lt_succ_of_lt hlt
      · simpa [hd, State.arrive] using hlt
    · simp
  · intro x d
    by_cases hd : d = c
    · subst hd
      have hold : ∀ i, (i, x) ∈ (s.arrive d).writes d → i < s.wqe d :=
        fun i hi => inv.posted d i x hi
      rw [lastAnswer_cons_of_eq he, State.Quiet, writeMsg_completed hinterval]
      constructor
      · intro h
        by_contra hsent
        simp only [not_or, not_not] at hsent
        have hself : (s.wqe d, x) ∈ ((s.arrive d).writeMsg interval d e.page).writes d :=
          mem_writeMsg.mpr (Or.inr ⟨rfl, rfl, hsent.2⟩)
        have hlt := h _ hself
        rw [if_neg hsent.1] at hlt
        exact Nat.lt_irrefl _ hlt
      · intro h i hi
        rcases mem_writeMsg.mp hi with hbefore | ⟨_, hi, hsent⟩
        · have hlt := hold i hbefore
          split <;> omega
        · obtain hone | hother := h
          · rw [if_pos hone]
            exact hi ▸ Nat.lt_succ_self _
          · exact absurd hsent hother
    · rw [lastAnswer_cons_of_ne (by simpa [he] using Ne.symm hd), ← inv.quiet x d]
      simp only [State.Quiet, writeMsg_completed_of_ne hd, mem_writeMsg, hd, false_and, or_false]
      simp [State.arrive, hd]

/-- Parking a buffer does not touch the writes. -/
theorem Invariant.park (inv : Invariant interval es s) {p : Place F N} :
    Invariant interval es (s.put b p) := ⟨inv.posted, inv.quiet⟩

theorem Invariant.step (inv : Invariant interval es s) (hinterval : 0 < interval)
    (hstep : Step interval s e s') : Invariant interval (e :: es) s' := by
  cases hstep with
  | arrive => exact inv.arrive rfl rfl
  | sendCopy hplace | answer => exact inv.answer hinterval rfl
  | sendAway hplace | invalidate hplace => exact (inv.answer hinterval rfl).park
  | @update c f b hplace => exact (inv.park (b := b) (p := .active c)).answer hinterval rfl
  | evict hplace | fill hplace => exact inv.put rfl

omit [DecidableEq B] in
/-- Nothing is posted before the run. -/
theorem invariant_of_init (h : Init s) : Invariant interval [] s := by
  have hwrites : ∀ c i x, (i, x) ∉ s.writes c := by
    intro c i x
    simp [(h.1 c).2.1]
  refine ⟨fun c i x hi => absurd hi (hwrites c i x), fun x c => ?_⟩
  simp [lastAnswer, State.Quiet, hwrites]

theorem Trace.invariant (hinterval : 0 < interval) (h : Trace interval es s) :
    Invariant interval es s := by
  induction h with
  | init h => exact invariant_of_init h
  | step _ hstep ih => exact ih.step hinterval hstep

/-- The page an event sends is not one that it hands over. -/
theorem Step.page_ne (hstep : Step interval s e s') (hover : HandedOver s s' b) :
    e.page ≠ some b := by
  rintro hpage
  cases hstep with
  | @sendCopy c f x hplace =>
    obtain rfl : x = b := Option.some.inj hpage
    have hframe : ((s.arrive c).writeMsg interval c (some x)).place x = .frame f :=
      writeMsg_frame hplace
    exact absurd (hframe.symm.trans hover.2) (by simp)
  | @sendAway c f x hplace =>
    obtain rfl : x = b := Option.some.inj hpage
    exact absurd hover.2 (by simp [State.put])
  | arrive | invalidate _ | update _ | answer | evict _ | fill _ => cases hpage

end Steps

/-! ## When a buffer is reused -/

/-- In every run, a buffer that is handed over is read by nobody exactly when no client other
than the one being served was last answered with it, or when every message is polled for. -/
theorem handedOver_quiet_iff {interval : Nat} (hinterval : 0 < interval)
    {es : List (Event B F N)} {s s' : State B F N} {e : Event B F N} (hs : Trace interval es s)
    (hstep : Step interval s e s') {b : B} (hover : HandedOver s s' b) :
    (∀ c, s'.Quiet b c) ↔
      interval = 1 ∨ ∀ c, e.client ≠ some c → lastAnswer c es ≠ some b := by
  have hquiet := ((hs.invariant hinterval).step hinterval hstep).quiet b
  constructor
  · intro h
    by_cases hone : interval = 1
    · exact Or.inl hone
    · refine Or.inr fun c hc => ?_
      have hlast := ((hquiet c).mp (h c)).resolve_left hone
      rwa [lastAnswer_cons_of_ne hc] at hlast
  · rintro (hone | hothers) c
    · exact (hquiet c).mpr (Or.inl hone)
    · refine (hquiet c).mpr (Or.inr ?_)
      by_cases hc : e.client = some c
      · rw [lastAnswer_cons_of_eq hc]
        exact hstep.page_ne hover
      · rw [lastAnswer_cons_of_ne hc]
        exact hothers c hc

/-- One buffer, in its frame. -/
def loaded : State Unit Unit Bool where
  place _ := .frame ()
  wqe _ := 0
  writes _ := []
  completed _ := 0

theorem loaded_init : Init loaded :=
  ⟨fun _ => ⟨rfl, rfl, rfl⟩, fun _ => Or.inr ⟨(), rfl⟩⟩

/-- A copy has been sent and the requester's next message has taken the page away. -/
def sentAway : State Unit Unit Bool :=
  ((((loaded.arrive false).writeMsg 2 false (some ())).arrive false).writeMsg 2 false
    (some ())).put () (.active false)

/-- The client has been answered `n` more times. -/
def answered : Nat → State Unit Unit Bool
  | 0 => sentAway
  | n + 1 => ((answered n).arrive false).writeMsg 2 false none

def answers (n : Nat) : List (Event Unit Unit Bool) :=
  List.replicate n (.answer false) ++ [.sendAway false () (), .sendCopy false () ()]

theorem answered_trace (n : Nat) : Trace 2 (answers n) (answered n) := by
  induction n with
  | zero => exact .step (.step (.init loaded_init) (.sendCopy rfl)) (.sendAway rfl)
  | succ n ih => exact .step ih .answer

/-- The buffer is parked and handed over two polls later. -/
theorem handedOver_quiet_answered :
    HandedOver (answered 3) (answered 4) () ∧ ∀ c, (answered 4).Quiet () c :=
  have hover : HandedOver (answered 3) (answered 4) () := ⟨by decide, by decide⟩
  ⟨hover, (handedOver_quiet_iff (by decide) (answered_trace 3) .answer hover).mpr
    (Or.inr (by decide))⟩

/-- A page provider evicts a page right after a copy of it has been posted: the buffer is in the
free list while the write may still read it. -/
theorem handedOver_while_read :
    ∃ (es : List (Event Unit Unit Bool)) (s s' : State Unit Unit Bool), Trace 16 es s ∧
      (∃ e, Step 16 s e s') ∧ HandedOver s s' () ∧ ¬ s'.Quiet () false := by
  let s := (loaded.arrive false).writeMsg 16 false (some ())
  refine ⟨[.sendCopy false () ()], s, s.put () .free, ?_, ⟨.evict () (), .evict rfl⟩,
    ⟨by decide, by decide⟩, ?_⟩
  · exact .step (.init loaded_init) (.sendCopy rfl)
  · intro h
    exact absurd (h 0 (by decide)) (by decide)

end ScaleStore.PageWrites
