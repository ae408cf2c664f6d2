/-
# Selecting frames for eviction

Phase 3 of the page provider collects candidates without their latches, looks at
them again at a version of the latch, and then latches them at that version.
Here these steps run one at a time beside the possession protocol; the frames a
provider offers to the owners are the ones it gets this way.

What the collection sees of a frame need not be of one time, nor of the page the
frame has when it is latched: a candidate is a frame, and keeps nothing but the
epoch.
-/

import ScaleStore.Protocol.LastWrite

namespace ScaleStore.Protocol.Selection

variable {PID W C : Type}

/-! ## States and steps -/

/-- Where the page provider of a node is with a candidate. -/
inductive Phase (PID : Type) where
  | idle
  /-- A frame is in `candidate_batch` with this epoch. -/
  | candidate (epoch : Nat)
  /-- The latch was free at version `v`, when the frame had the page `p`. -/
  | versioned (p : PID) (epoch v : Nat)
  /-- Epoch, PID and state have been checked. -/
  | checked (p : PID) (v : Nat)
  /-- `ensure(frame.state == BF_STATE::HOT)` has thrown. -/
  | failed (p : PID)
deriving DecidableEq

structure State (PID W C : Type) where
  page : PID → PageState W C
  /-- `frame.epoch` of the frame that a node has for a page. -/
  epoch : PID → NodeID → Nat
  phase : NodeID → Phase PID

/-- `remote_condition`, on the node `n` for a page of the owner `o`. -/
def RemoteCondition (o n : NodeID) (f : Frame W C) : Prop :=
  (o = n ∧ f.state = .hot ∧ f.possession = .shared ∧ f.holder = none ∧
    ((f.isPossessor n = true ∧ 1 < f.possessors.count) ∨
      (f.isPossessor n = false ∧ 1 ≤ f.possessors.count))) ∨
  (o ≠ n ∧ f.state = .hot ∧ f.holder = none)

/-- The condition for `candidate_batch`. -/
def IsCandidate (cfg : Config) (o n : NodeID) (f : Frame W C) (epoch window : Nat) : Prop :=
  f.state ≠ .evicted ∧ f.holder = none ∧
    if cfg.ssd = true then epoch ≤ window else RemoteCondition o n f

namespace State

variable (s : State PID W C)

def setPhase (n : NodeID) (ph : Phase PID) : State PID W C :=
  { s with phase := Function.update s.phase n ph }

def setPage [DecidableEq PID] (p : PID) (q : PageState W C) : State PID W C :=
  { s with page := Function.update s.page p q }

/-- `optimisticUpgradeToExclusive(v)` on the frame `f` succeeds. -/
def Upgrades (n : NodeID) (p : PID) (v : Nat) (f : Frame W C) : Prop :=
  (s.page p).version n = v ∧ (s.page p).frame n = some f ∧ f.Latchable

end State

section Steps

variable [DecidableEq PID] [DecidableEq W] (cfg : Config) (owner : PID → NodeID)
  (node : W → NodeID)

/-- The frame `f` is latched and goes into an `EvictionRequest`. -/
def offer (q : PageState W C) (n : NodeID) (f : Frame W C) : PageState W C :=
  (q.setFrame n (some { f with holder := some .provider }) 2).setProvider n (.offered f.pVersion)

/-- Phase 3 on the node `n`. -/
inductive Phase3 (n : NodeID) (s : State PID W C) : State PID W C → Prop where
  | collect {o f epoch window} : s.phase n = .idle → IsCandidate cfg o n f epoch window →
    Phase3 n s (s.setPhase n (.candidate epoch))
  | readVersion {p epoch f} : s.phase n = .candidate epoch → (s.page p).frame n = some f →
    f.holder = none → Phase3 n s (s.setPhase n (.versioned p epoch ((s.page p).version n)))
  | latched {p epoch f} : s.phase n = .candidate epoch → (s.page p).frame n = some f →
    f.holder ≠ none → Phase3 n s (s.setPhase n .idle)
  /-- The frame has been reset by now. -/
  | free {epoch} : s.phase n = .candidate epoch → Phase3 n s (s.setPhase n .idle)
  | check {p epoch v f} : s.phase n = .versioned p epoch v → s.epoch p n = epoch →
    (s.page p).frame n = some f → f.state ≠ .evicted → Phase3 n s (s.setPhase n (.checked p v))
  | checkFailed {p epoch v} : s.phase n = .versioned p epoch v →
    (s.epoch p n = epoch → ∀ f, (s.page p).frame n = some f → f.state = .evicted) →
    Phase3 n s (s.setPhase n .idle)
  | upgradeFailed {p v} : s.phase n = .checked p v → (∀ f, ¬ s.Upgrades n p v f) →
    Phase3 n s (s.setPhase n .idle)
  /-- A page of this node goes to `evict_owner_page`. -/
  | ownPage {p v} : s.phase n = .checked p v → owner p = n → Phase3 n s (s.setPhase n .idle)
  /-- The batch for the owner is full: the latch is given back. -/
  | full {p v f} : s.phase n = .checked p v → owner p ≠ n → s.Upgrades n p v f →
    Phase3 n s ((s.setPage p ((s.page p).setFrame n (some f) 4)).setPhase n .idle)
  | offer {p v f} : s.phase n = .checked p v → owner p ≠ n → s.Upgrades n p v f →
    f.state = .hot → Phase3 n s ((s.setPage p (offer (s.page p) n f)).setPhase n .idle)
  | failed {p v f} : s.phase n = .checked p v → owner p ≠ n → s.Upgrades n p v f →
    f.state ≠ .hot → Phase3 n s (s.setPhase n (.failed p))

/-- The protocol goes on, phase 3 on some node does, or a worker stamps a frame. -/
inductive Step (s : State PID W C) : State PID W C → Prop where
  | page {σ} : (world cfg owner node).Step s.page σ →
    (∀ p n, (s.page p).provider n = .idle → (σ p).provider n = .idle) →
    Step s { s with page := σ }
  | phase3 {n s'} : Phase3 cfg owner n s s' → Step s s'
  | stamp (p : PID) (n : NodeID) (epoch : Nat) :
    Step s { s with epoch := Function.update s.epoch p (Function.update (s.epoch p) n epoch) }

/-- All pages, and phase 3 on every node. -/
def selection (ssd reclaim : Bool) : System (State PID W C) where
  Init s := (∀ p, Init (s.page p)) ∧ ∀ n, s.phase n = .idle
  Step := Step ⟨true, ssd, reclaim⟩ owner node

end Steps

/-- Every frame in a request is a page in use, and no `ensure` of phase 3 has thrown. -/
structure OffersComplete (s : State PID W C) : Prop where
  offered : ∀ p n v, (s.page p).provider n = .offered v →
    ∃ f, (s.page p).frame n = some f ∧ f.holder = some .provider ∧ f.Hot n
  holds : ∀ n p, s.phase n ≠ .failed p

/-- Phase 3 gets the latch of a remote frame that is in an intermediate state of `fix`. -/
def TakesIoRdma (owner : PID → NodeID) (s s' : State PID W C) : Prop :=
  ∃ n p v f, s.phase n = .checked p v ∧ owner p ≠ n ∧ s.Upgrades n p v f ∧ f.state = .ioRdma ∧
    s'.phase n ≠ .checked p v

/-! ## What phase 3 finds -/

section Runs

variable [DecidableEq PID] [DecidableEq W] {cfg : Config} {owner : PID → NodeID}
  {node : W → NodeID} {s s' : State PID W C} {o n : NodeID} {q : PageState W C} {f : Frame W C}

omit [DecidableEq PID] in
/-- A frame of another node's page that is not latched is a page in use or has been given back by a
worker whose copy has failed. -/
theorem hot_or_leftover (hq : (machine cfg o node).Reachable q) (hn : n ≠ o)
    (hf : q.frame n = some f) (hh : f.holder = none) : f.Hot n ∨ f.Leftover := by
  have hinv := machine_invariant hq
  unfold Invariant at hinv
  split at hinv
  · rcases (hinv.nodes n).rest f hf hh with ⟨rfl, -⟩ | ⟨-, hhot | ⟨hleft, -⟩⟩
    · exact absurd rfl hn
    · exact .inl hhot
    · exact .inr hleft
  · cases hinv with
    | unused hun => cases (hun.frame n hn).symm.trans hf
    | allocating _ _ _ _ _ hnone => cases (hnone n hn).symm.trans hf

omit [DecidableEq PID] in
/-- A frame in flight is latched. -/
theorem provider_idle (hq : (machine cfg o node).Reachable q) (hf : q.frame n = some f)
    (hh : f.holder = none) : q.provider n = .idle := by
  have hinv := machine_invariant hq
  unfold Invariant at hinv
  split at hinv
  · by_contra hne
    obtain ⟨g, hg, hheld⟩ := (hinv.nodes n).provides hne
    obtain rfl := Option.some.inj (hf.symm.trans hg)
    cases hh.symm.trans hheld
  · cases hinv with
    | unused hun => exact hun.provider n
    | allocating _ _ _ _ hidle => exact hidle n

omit [DecidableEq PID] in
/-- A frame in flight is a page in use. -/
theorem hot_of_offered (hq : (machine cfg o node).Reachable q) {v : Nat}
    (hp : q.provider n = .offered v) :
    ∃ f, q.frame n = some f ∧ f.holder = some .provider ∧ f.Hot n := by
  have hinv := machine_invariant hq
  unfold Invariant at hinv
  split at hinv
  · obtain ⟨f, hf, hh⟩ := (hinv.nodes n).provides (by simp [hp])
    exact ⟨f, hf, hh, ((hinv.nodes n).provided f hf hh).2.1⟩
  · cases hinv with
    | unused hun => cases (hun.provider n).symm.trans hp
    | allocating _ _ _ _ hidle => cases (hidle n).symm.trans hp

/-- Beside phase 3 the pages do what they do in the protocol. -/
theorem Step.page_reachable (hevict : cfg.evict = true)
    (hs : (world cfg owner node).Reachable s.page) (h : Step cfg owner node s s') :
    (world cfg owner node).Reachable s'.page := by
  cases h with
  | page h => exact hs.step h
  | stamp => exact hs
  | phase3 h =>
    cases h with
    | @full p v f _ _ hup =>
      obtain ⟨-, hf, hl⟩ := hup
      exact hs.step ⟨p, _, .step (.worker (.undo hf hl)), rfl⟩
    | @offer p v f _ hn hup hhot =>
      obtain ⟨-, hf, hl⟩ := hup
      have hidle := provider_idle (world_page hs p) hf hl.1
      exact hs.step
        ⟨p, _, .step (.provider (.select hevict (Ne.symm hn) hf hl hhot hidle)), rfl⟩
    | _ => exact hs

/-- A frame is offered or fails the `ensure` by a step of phase 3 that has got its latch. -/
theorem Step.failed (h : Step cfg owner node s s') {p : PID} (hp : s'.phase n = .failed p)
    (hne : s.phase n ≠ .failed p) : ∃ v f, s.phase n = .checked p v ∧ owner p ≠ n ∧
      s.Upgrades n p v f ∧ f.state ≠ .hot := by
  cases h with
  | page => exact absurd hp hne
  | stamp => exact absurd hp hne
  | @phase3 m _ h =>
    by_cases hm : n = m
    · subst hm
      cases h with
      | failed hc ho hup hhot =>
        obtain rfl : _ = p := by simpa [State.setPhase] using hp
        exact ⟨_, _, hc, ho, hup, hhot⟩
      | _ => simp [State.setPhase] at hp
    · refine absurd ?_ hne
      rw [← hp]
      cases h <;> exact (Function.update_of_ne hm _ _).symm

variable {ssd reclaim : Bool}

/-- In every run in which phase 3 latches no remote frame in the state `IO_RDMA`, all it offers are
pages in use. -/
theorem offers_complete
    (hs : ((selection owner node ssd reclaim).restrict
      fun s s' => ¬ TakesIoRdma owner s s').Reachable s) : OffersComplete s := by
  have hpages : (world ⟨true, ssd, reclaim⟩ owner node).Reachable s.page ∧
      ∀ n p, s.phase n ≠ .failed p := by
    refine hs.invariant (P := fun s => (world ⟨true, ssd, reclaim⟩ owner node).Reachable s.page ∧
      ∀ n p, s.phase n ≠ .failed p) ?_ fun s s' _ ⟨ih, hholds⟩ ⟨hstep, htakes⟩ => ?_
    · rintro s ⟨hpage, hphase⟩
      refine ⟨.init hpage, fun n p hp => ?_⟩
      cases (hphase n).symm.trans hp
    · refine ⟨Step.page_reachable rfl ih hstep, fun n p hp => ?_⟩
      obtain ⟨v, f, hc, ho, hup, hhot⟩ := Step.failed hstep hp (hholds n p)
      have hfree := hup.2.2.1
      rcases hot_or_leftover (world_page ih p) (Ne.symm ho) hup.2.1 hfree with h | h
      · exact hhot h.1
      · exact htakes ⟨n, p, v, f, hc, ho, hup, h.1, by simp [hp]⟩
  exact ⟨fun p n v hp => hot_of_offered (world_page hpages.1 p) hp, hpages.2⟩

end Runs

/-! ## A frame whose copy has failed -/

/-- What a page or a page provider does next, where there is one page. -/
inductive Act (W C : Type) where
  | page (a : Protocol.Act W C)
  | collect (n : NodeID)
  | readVersion (n : NodeID)
  | check (n : NodeID)
  | latch (n : NodeID)

section Acts

variable [DecidableEq W] (cfg : Config) (o : NodeID) (node : W → NodeID)

instance (o n : NodeID) (f : Frame W C) : Decidable (RemoteCondition o n f) :=
  inferInstanceAs (Decidable (_ ∨ _))

instance (o n : NodeID) (f : Frame W C) (epoch window : Nat) :
    Decidable (IsCandidate cfg o n f epoch window) :=
  inferInstanceAs (Decidable (_ ∧ _ ∧ _))

/-- A frame that phase 3 collects is one that the node has at the time. -/
def act (a : Act W C) (s : State Unit W C) : Option (State Unit W C) :=
  match a with
  | .page a =>
    (Protocol.act cfg o node (s.page ()) a).bind fun q =>
      if ∀ n, (s.page ()).provider n = .idle → q.provider n = .idle then
        some { s with page := fun _ => q }
      else none
  | .collect n =>
    match (s.page ()).frame n with
    | some f =>
      if s.phase n = .idle ∧ IsCandidate cfg o n f (s.epoch () n) (s.epoch () n) then
        some (s.setPhase n (.candidate (s.epoch () n)))
      else none
    | none => none
  | .readVersion n =>
    match s.phase n, (s.page ()).frame n with
    | .candidate epoch, some f =>
      if f.holder = none then some (s.setPhase n (.versioned () epoch ((s.page ()).version n)))
      else none
    | _, _ => none
  | .check n =>
    match s.phase n, (s.page ()).frame n with
    | .versioned () epoch v, some f =>
      if s.epoch () n = epoch ∧ f.state ≠ .evicted then some (s.setPhase n (.checked () v))
      else none
    | _, _ => none
  | .latch n =>
    match s.phase n, (s.page ()).frame n with
    | .checked () v, some f =>
      if o ≠ n ∧ (s.page ()).version n = v ∧ f.Latchable then
        if f.state = .hot then
          some ((s.setPage () (offer (s.page ()) n f)).setPhase n .idle)
        else some (s.setPhase n (.failed ()))
      else none
    | _, _ => none

variable {cfg o node}

theorem act_sound (a : Act W C) (s s' : State Unit W C) (h : act cfg o node a s = some s') :
    Step cfg (fun _ : Unit => o) node s s' := by
  cases a with
  | page a =>
    simp only [act] at h
    obtain ⟨q, hq, h⟩ := Option.bind_eq_some_iff.mp h
    obtain ⟨hidle, rfl⟩ := by simpa using h
    refine .page ⟨(), q, .step (Protocol.act_sound hq), ?_⟩ fun _ n => hidle n
    funext x
    simp
  | collect n =>
    simp only [act] at h
    split at h
    case h_1 f hf =>
      split at h
      case isTrue hc =>
        obtain rfl := Option.some.inj h
        exact .phase3 (.collect hc.1 hc.2)
      case isFalse => cases h
    case h_2 => cases h
  | readVersion n =>
    simp only [act] at h
    split at h
    case h_1 epoch f hp hf =>
      split at h
      case isTrue hh =>
        obtain rfl := Option.some.inj h
        exact .phase3 (.readVersion hp hf hh)
      case isFalse => cases h
    case h_2 => cases h
  | check n =>
    simp only [act] at h
    split at h
    case h_1 epoch v f hp hf =>
      split at h
      case isTrue hc =>
        obtain rfl := Option.some.inj h
        exact .phase3 (.check hp hc.1 hf hc.2)
      case isFalse => cases h
    case h_2 => cases h
  | latch n =>
    simp only [act] at h
    split at h
    case h_1 v f hp hf =>
      split at h
      case isTrue hc =>
        obtain ⟨ho, hv, hl⟩ := hc
        split at h
        case isTrue hhot =>
          obtain rfl := Option.some.inj h
          exact .phase3 (.offer hp ho ⟨hv, hf, hl⟩ hhot)
        case isFalse hhot =>
          obtain rfl := Option.some.inj h
          exact .phase3 (.failed hp ho ⟨hv, hf, hl⟩ hhot)
      case isFalse => cases h
    case h_2 => cases h

end Acts

/-- Before anything has happened to the page of node 0. -/
def start : State Unit NodeID Nat where
  page _ := PageState.start 0 true
  epoch _ _ := 0
  phase _ := .idle

/-- Node 3 has taken the page over from node 2 and shares it; the owner's frame is evicted.  Node 1
is told to copy it from node 3, when node 4 takes it away there and tells node 1 to give its copy
up: the copy fails, and the frame of node 1 is given back. -/
def failCopy : List (Act NodeID Nat) :=
  [.start 2 .exclusive, .insert 2 9, .requestLoad 2, .loaded, .request 2, .receive 2 0,
    .completeExclusive 2, .releaseExclusive 2, .start 3 .shared, .insert 3 9, .request 3,
    .receive 3 2, .move 3, .completeShared 3, .start 1 .shared, .insert 1 9, .request 1,
    .receive 1 3, .start 4 .exclusive, .insert 4 9, .request 4, .receive 4 3, .move 4,
    .invalidateRetry 4 1, .copyFailed 1, .copyAbandoned 1].map Act.page

/-- Phase 3 takes the frame of node `n` all the way. -/
def select (n : NodeID) : List (Act NodeID Nat) :=
  [.collect n, .readVersion n, .check n, .latch n]

theorem start_init (ssd reclaim : Bool) :
    (selection (fun _ : Unit => 0) oneWorker ssd reclaim).Init start :=
  ⟨fun _ => PageState.start_init 0 true, fun _ => rfl⟩

theorem leftover_fails_ensure : ∃ s : State Unit NodeID Nat,
    (selection (fun _ : Unit => 0) oneWorker true false).Reachable s ∧ ¬ OffersComplete s := by
  have hrun : (System.runActs (act ⟨true, true, false⟩ 0 oneWorker) start
      (failCopy ++ select 1)).any (fun s => decide (s.phase 1 = .failed ())) = true := by
    decide +kernel
  obtain ⟨s, hs, hp⟩ := System.reachable_of_acts act_sound (start_init true false) hrun
  exact ⟨s, hs, fun h => h.holds 1 () (of_decide_eq_true hp)⟩

/-- `TakesIoRdma` on one node. -/
def takesIoRdma (o : NodeID) (s s' : State Unit NodeID Nat) (n : NodeID) : Bool :=
  match s.phase n, (s.page ()).frame n with
  | .checked () v, some f => decide (o ≠ n ∧ (s.page ()).version n = v ∧ f.Latchable ∧
      f.state = .ioRdma ∧ s'.phase n ≠ .checked () v)
  | _, _ => false

theorem takesIoRdma_iff {o : NodeID} {s s' : State Unit NodeID Nat} :
    (∃ n, takesIoRdma o s s' n = true) ↔ TakesIoRdma (fun _ : Unit => o) s s' := by
  constructor
  · rintro ⟨n, h⟩
    unfold takesIoRdma at h
    split at h
    case h_1 v f hp hf =>
      obtain ⟨ho, hv, hl, hst, hne⟩ := of_decide_eq_true h
      exact ⟨n, (), v, f, hp, ho, ⟨hv, hf, hl⟩, hst, hne⟩
    case h_2 => cases h
  · rintro ⟨n, ⟨⟩, v, f, hp, ho, ⟨hv, hf, hl⟩, hst, hne⟩
    refine ⟨n, ?_⟩
    simp only [takesIoRdma, hp, hf]
    exact decide_eq_true ⟨ho, hv, hl, hst, hne⟩

instance (o : NodeID) (s s' : State Unit NodeID Nat) :
    Decidable (TakesIoRdma (fun _ : Unit => o) s s') :=
  decidable_of_iff _ takesIoRdma_iff

/-- Node 1 shares the page and offers its frame. -/
theorem offers_complete_shared : ∃ s : State Unit NodeID Nat,
    (s.page ()).provider 1 = .offered 0 ∧ OffersComplete s := by
  have hrun : (System.runActs (fun a s => (act ⟨true, false, false⟩ 0 oneWorker a s).filter
      fun s' => decide (¬ TakesIoRdma (fun _ : Unit => 0) s s')) start
      ([.start 1 .shared, .insert 1 9, .requestLoad 1, .loaded, .request 1, .receive 1 0,
        .completeShared 1].map Act.page ++ select 1)).any (fun s =>
          decide ((s.page ()).provider 1 = .offered 0)) = true := by
    decide +kernel
  obtain ⟨s, hs, hp⟩ := System.reachable_of_good_acts act_sound (start_init false false) hrun
  exact ⟨s, of_decide_eq_true hp, offers_complete hs⟩

end ScaleStore.Protocol.Selection
