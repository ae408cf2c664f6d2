/-
# Lookups that do not block

Message handlers and page providers look frames up without waiting for latches: a
functor tries for the latch of the frame once, and when the bucket has changed
by then its `undo` is called, whatever the functor has answered.

A functor's answer depends on what it sees of the frame and on whether its latch
operation succeeds; here it may see anything, and succeeds only on a latch that
is free.
-/

import ScaleStore.PageTable.Acts
import ScaleStore.PageTable.Map

namespace ScaleStore.PageTable

variable {K F T : Type}

/-! ## The latches of a thread -/

/-- The frame whose latch the thread has, and in which mode. -/
def Pc.latch : Pc K F → Option (F × LatchState)
  | .recheck _ _ f g => g.map (f, ·)
  | .undo _ f g | .guard _ f g => some (f, g)
  | .fill _ f _ _ | .inserted _ f | .held f | .remove f | .latchHome f _ | .seek f _ _
  | .matchPid f _ _ _ | .unlink f _ _ _ _ | .clearPid f _ | .clearNext f _ | .clearState f _
  | .unlatchBucket f _ | .unlatchFrame f => some (f, .exclusive)
  | _ => none

/-- The thread has no latch but the one its place says. -/
structure Tracked (s : State K F T) : Prop where
  exclusive : ∀ t f, s.holder f = some t → (s.pc t).latch = some (f, .exclusive)
  shared : ∀ t f, t ∈ s.readers f → (s.pc t).latch = some (f, .shared)

section Latches

variable [DecidableEq F] [DecidableEq T] {L : Layout K F} {s s' : State K F T} {t t' : T}

/-- A thread gets the latch of one frame, gives up the one it has, or keeps what it has. -/
theorem Step.latches (h : Step L t s s') :
    (s'.holder = s.holder ∧ s'.readers = s.readers ∧ (s'.pc t).latch = (s.pc t).latch) ∨
    (∃ f g, s' = (s.acquire f t g).go t (s'.pc t) ∧ (s.pc t).latch = none ∧
      (s'.pc t).latch = some (f, g)) ∨
    (∃ f g, s' = (s.release f t g).go t (s'.pc t) ∧ (s.pc t).latch = some (f, g)) := by
  cases h with
  | @access c v tmp g hp =>
    exact .inr (.inl ⟨tmp, g, by simp, by simp [hp, Pc.latch], by simp [Pc.latch]⟩)
  | @latchFrame og f hp =>
    exact .inr (.inl ⟨f, .exclusive, by simp [State.acquire], by simp [hp, Pc.latch],
      by simp [Pc.latch]⟩)
  | grab f hp =>
    exact .inr (.inl ⟨f, .exclusive, by simp [State.acquire], by simp [hp, Pc.latch],
      by simp [Pc.latch]⟩)
  | @undo c tmp g hp => exact .inr (.inr ⟨tmp, g, by simp, by simp [hp, Pc.latch]⟩)
  | @releaseGuard k f g hp => exact .inr (.inr ⟨f, g, by simp, by simp [hp, Pc.latch]⟩)
  | @releaseInserted k f hp =>
    exact .inr (.inr ⟨f, .exclusive, by simp [State.release], by simp [hp, Pc.latch]⟩)
  | @drop f hp =>
    exact .inr (.inr ⟨f, .exclusive, by simp [State.release], by simp [hp, Pc.latch]⟩)
  | @unlatchFrame f hp =>
    exact .inr (.inr ⟨f, .exclusive, by simp [State.release], by simp [hp, Pc.latch]⟩)
  | startRemove hp =>
    rcases hp with hp | hp <;> exact .inl ⟨rfl, rfl, by simp [hp, Pc.latch]⟩
  | recheckRetry hp | giveUp hp | filled hp | clearPid hp =>
    refine .inl ⟨rfl, rfl, ?_⟩
    rw [State.go_pc_self]
    split <;> simp [hp, Pc.latch]
  | start _ hp | readVersion hp | testMore hp | testEnd hp | copy hp | checkOk hp | checkFail hp
  | compareEq hp | compareNe hp | advanceOk hp | advanceFail hp | foundOk hp | foundFail hp
  | accessRetry hp | recheckOk hp | recheckFail hp | absentFail hp | absentOk hp | notFound hp
  | notFoundDone hp | upgradeFail hp | upgradeOk hp | decideInline hp | decideChain hp
  | takeFail hp | take hp | fillState hp | fillPid hp | startInsert _ hp | latchBucket hp
  | newInline hp | newChain hp | seekMore hp | seekDone hp | seekNext hp | removeHeld hp
  | removeInline hp | removeChained hp | latchHome hp | seek hp | matchYes hp | matchNo hp
  | unlink hp | clearNext hp | clearState hp | unlatchBucket hp | push _ hp =>
    exact .inl ⟨rfl, rfl, by simp [hp, Pc.latch]⟩

theorem State.holder_acquire {f f' : F} {g : LatchState}
    (h : (s.acquire f t g).holder f' = some t') :
    s.holder f' = some t' ∨ t' = t ∧ f' = f ∧ g = .exclusive := by
  cases g with
  | exclusive =>
    by_cases hf : f' = f
    · subst hf
      simp only [State.acquire, State.latchExclusive, Function.update_self] at h
      exact .inr ⟨(Option.some.inj h).symm, rfl, rfl⟩
    · simp only [State.acquire, State.latchExclusive, Function.update_of_ne hf] at h
      exact .inl h
  | shared => exact .inl h
  | optimistic => exact .inl h

theorem State.readers_acquire {f f' : F} {g : LatchState}
    (h : t' ∈ (s.acquire f t g).readers f') :
    t' ∈ s.readers f' ∨ t' = t ∧ f' = f ∧ g = .shared := by
  cases g with
  | shared =>
    by_cases hf : f' = f
    · subst hf
      simp only [State.acquire, State.latchShared, Function.update_self, Finset.mem_insert] at h
      exact h.symm.imp id fun ht => ⟨ht, rfl, rfl⟩
    · simp only [State.acquire, State.latchShared, Function.update_of_ne hf] at h
      exact .inl h
  | exclusive => exact .inl h
  | optimistic => exact .inl h

theorem State.holder_release {f f' : F} {g : LatchState}
    (h : (s.release f t g).holder f' = some t') :
    s.holder f' = some t' ∧ (g = .exclusive → f' ≠ f) := by
  cases g with
  | exclusive =>
    by_cases hf : f' = f
    · subst hf
      simp only [State.release, State.unlatchExclusive, Function.update_self] at h
      cases h
    · simp only [State.release, State.unlatchExclusive, Function.update_of_ne hf] at h
      exact ⟨h, fun _ => hf⟩
  | shared => exact ⟨h, nofun⟩
  | optimistic => exact ⟨h, nofun⟩

theorem State.readers_release {f f' : F} {g : LatchState}
    (h : t' ∈ (s.release f t g).readers f') :
    t' ∈ s.readers f' ∧ (g = .shared → f' = f → t' ≠ t) := by
  cases g with
  | shared =>
    by_cases hf : f' = f
    · subst hf
      simp only [State.release, State.unlatchShared, Function.update_self, Finset.mem_erase] at h
      exact ⟨h.2, fun _ _ => h.1⟩
    · simp only [State.release, State.unlatchShared, Function.update_of_ne hf] at h
      exact ⟨h, fun _ heq => absurd heq hf⟩
  | exclusive => exact ⟨h, nofun⟩
  | optimistic => exact ⟨h, nofun⟩

/-- A step of one thread neither gives nor takes a latch of another. -/
theorem Tracked.step (h : Tracked s) (hstep : Step L t s s') : Tracked s' := by
  have hother : ∀ t', t' ≠ t → s'.pc t' = s.pc t' := fun t' ht => hstep.pc_of_ne ht
  -- it is enough to look at the latches that were there before, or are new
  have hold : ∀ t' x, (s.pc t').latch = some x → (t' = t → (s'.pc t).latch = (s.pc t).latch) →
      (s'.pc t').latch = some x := by
    intro t' x hx hsame
    by_cases ht : t' = t
    · subst ht
      rw [hsame rfl, hx]
    · rw [hother t' ht, hx]
  rcases hstep.latches with
    ⟨hholder, hreaders, hsame⟩ | ⟨f, g, hs', hnone, hgot⟩ | ⟨f, g, hs', hhas⟩
  · constructor
    · intro t' f' hf
      exact hold t' _ (h.exclusive t' f' (hholder ▸ hf)) fun _ => hsame
    · intro t' f' hf
      exact hold t' _ (h.shared t' f' (hreaders ▸ hf)) fun _ => hsame
  · constructor
    · intro t' f' hf
      rw [hs'] at hf
      rcases State.holder_acquire hf with hf | ⟨rfl, rfl, rfl⟩
      · refine hold t' _ (h.exclusive t' f' hf) fun ht => ?_
        cases (ht ▸ hnone).symm.trans (h.exclusive t' f' hf)
      · exact hgot
    · intro t' f' hf
      rw [hs'] at hf
      rcases State.readers_acquire hf with hf | ⟨rfl, rfl, rfl⟩
      · refine hold t' _ (h.shared t' f' hf) fun ht => ?_
        cases (ht ▸ hnone).symm.trans (h.shared t' f' hf)
      · exact hgot
  · constructor
    · intro t' f' hf
      rw [hs'] at hf
      obtain ⟨hold', hne⟩ := State.holder_release hf
      have hlatch := h.exclusive t' f' hold'
      refine hold t' _ hlatch fun ht => ?_
      subst ht
      obtain ⟨rfl, rfl⟩ : f = f' ∧ g = .exclusive := by
        simpa [hhas] using hlatch
      exact absurd rfl (hne rfl)
    · intro t' f' hf
      rw [hs'] at hf
      obtain ⟨hold', hne⟩ := State.readers_release hf
      have hlatch := h.shared t' f' hold'
      refine hold t' _ hlatch fun ht => ?_
      subst ht
      obtain ⟨rfl, rfl⟩ : f = f' ∧ g = .shared := by
        simpa [hhas] using hlatch
      exact absurd rfl (hne rfl rfl)

omit [DecidableEq F] [DecidableEq T] in
theorem Init.tracked (h : Init L s) : Tracked s :=
  ⟨fun t f hf => by simp [(h.latches f).1] at hf, fun t f hf => by simp [(h.latches f).2] at hf⟩

theorem tracked_of_reachable (hs : (pageTable L).Reachable s) : Tracked s :=
  hs.invariant (fun _ => Init.tracked) fun _ _ _ ih ⟨_, hstep⟩ => ih.step hstep

end Latches

namespace NonBlocking

/-! ## Functors -/

/-- `STATE`, as far as functors set it. -/
inductive GuardState where
  | uninitialized
  | localPossessionChange
  | remotePossessionChange
  | retry
  | initialized
deriving DecidableEq, Repr

/-- The fields of a `Guard` that functors set; `none` is `UNLATCHED`. -/
structure Guard where
  state : GuardState
  latchState : Option LatchState
deriving DecidableEq, Repr

/-- What a functor sees of the frame, and whether its latch operation succeeds. -/
structure Sight where
  /-- `optimisticLatchOrRestart` gives a version. -/
  version : Bool
  mhWaiting : Bool
  /-- The node possesses the page in the mode that is asked for. -/
  possessed : Bool
  /-- `pid.getOwner() == nodeId`. -/
  owned : Bool
  latched : Bool

/-- The functors that are passed with `CONTENTION_METHOD::NON_BLOCKING`. -/
inductive Functor where
  | protocol
  | invalidation
  | copy
  | exclusive
deriving DecidableEq, Repr

/-- A functor that gets no latch. -/
def refused : Guard := ⟨.retry, none⟩

/-- The latch that a functor tries for. -/
def Functor.mode : Functor → LatchState
  | .copy => .shared
  | _ => .exclusive

/-- `operator()`. -/
def Functor.call : Functor → Sight → Guard
  | .protocol, x =>
    if x.version = false then refused
    else if x.latched then
      ⟨if x.possessed then .initialized else .localPossessionChange, some .exclusive⟩
    else refused
  | .invalidation, x => if x.latched then ⟨.initialized, some .exclusive⟩ else refused
  | .copy, x => if x.latched then ⟨.initialized, some .shared⟩ else refused
  | .exclusive, x =>
    if x.version = false ∨ x.mhWaiting = true then refused
    else if x.latched then
      ⟨if x.possessed then .initialized
        else if x.owned then .localPossessionChange else .remotePossessionChange,
        some .exclusive⟩
    else refused

/-- `undo`, where `latched` is `g.frame->latch.isLatched()`; `none` when an `ensure` fails. -/
def Functor.undo (latched : Bool) (g : Guard) : Functor → Option Guard
  | .protocol | .invalidation =>
    if g.latchState = some .exclusive then
      if g.state ≠ .retry ∧ latched = true then some refused else none
    else some g
  | .copy =>
    if g.latchState = some .shared then
      if g.state ≠ .retry ∧ latched = false then some refused else none
    else some g
  | .exclusive =>
    if g.state ≠ .retry ∧ latched = true then some ⟨.uninitialized, none⟩ else none

/-- The callers go on as without a frame: phase 1 of the page provider, the handlers of PRX and
PRS, those of PMR and PUR, and that of PCR. -/
def Functor.NotAcquired : Functor → GuardState → Prop
  | .exclusive, st => st = .retry ∨ st = .uninitialized
  | .protocol, st | .invalidation, st => st = .retry
  | .copy, st => st = .uninitialized ∨ st = .retry

theorem Functor.call_cases (φ : Functor) (x : Sight) : φ.call x = refused ∨
    ((φ.call x).latchState = some φ.mode ∧ (φ.call x).state ≠ .retry) := by
  cases φ with
  | protocol =>
    simp only [call]
    split
    · exact .inl rfl
    · split
      · exact .inr ⟨rfl, by dsimp only; split <;> simp⟩
      · exact .inl rfl
  | invalidation =>
    simp only [call]
    split
    · exact .inr ⟨rfl, by simp⟩
    · exact .inl rfl
  | copy =>
    simp only [call]
    split
    · exact .inr ⟨rfl, by simp⟩
    · exact .inl rfl
  | exclusive =>
    simp only [call]
    split
    · exact .inl rfl
    · split
      · refine .inr ⟨rfl, ?_⟩
        dsimp only
        split
        · simp
        · split <;> simp
      · exact .inl rfl

/-- A latch that the functor has got can be undone. -/
theorem Functor.undo_latched {φ : Functor} {g : Guard} (hg : g.latchState = some φ.mode)
    (hs : g.state ≠ .retry) : ∃ g', φ.undo (decide (φ.mode = .exclusive)) g = some g' ∧
      g'.latchState = none ∧ φ.NotAcquired g'.state := by
  cases φ with
  | protocol | invalidation =>
    have hg : g.latchState = some .exclusive := hg
    exact ⟨refused, by simp [undo, mode, hs, hg], rfl, rfl⟩
  | copy =>
    have hg : g.latchState = some .shared := hg
    exact ⟨refused, by simp [undo, mode, hs, hg], rfl, .inr rfl⟩
  | exclusive => exact ⟨⟨.uninitialized, none⟩, by simp [undo, mode, hs], rfl, .inr rfl⟩

/-- So can a refusal, but not that of `Exclusive`. -/
theorem Functor.undo_refused (φ : Functor) (latched : Bool) :
    φ.undo latched refused = if φ = .exclusive then none else some refused := by
  cases φ <;> simp [undo, refused]

theorem Functor.notAcquired_refused (φ : Functor) : φ.NotAcquired refused.state := by
  cases φ <;> simp [NotAcquired, refused]

/-! ## Calls -/

/-- Where a call is once its functor has run. -/
inductive Phase where
  | none
  | answered (φ : Functor) (g : Guard)
  | undoing (φ : Functor) (g : Guard)
  | returned (φ : Functor) (g : Guard) (changed : Bool)
  /-- An `ensure` has failed. -/
  | thrown
deriving DecidableEq

structure State (K F T : Type) where
  table : PageTable.State K F T
  phase : T → Phase

variable [DecidableEq F] [DecidableEq T] (L : Layout K F)

/-- The table goes on as `table`, and the call of thread `t` is at `ph`. -/
def State.goOn (s : State K F T) (t : T) (table : PageTable.State K F T) (ph : Phase) :
    State K F T :=
  ⟨table, Function.update s.phase t ph⟩

/-- An `ensure` of the insertion fails: of `findFrameOrInsert` itself, or of
`ht_latch.unlatchExclusive`. -/
def insertionFails (s : PageTable.State K F T) : Pc K F → Bool
  | .fill (.find _) f false false => (s.pid f).isSome
  | .fill (.find c) _ true true | .giveUp (.find c) => !isLatched (s.version (L.bucket c.pid))
  | _ => false

/-- What thread `t` does next. -/
inductive Step (t : T) (s : State K F T) : State K F T → Prop where
  | table {s'} : s.phase t = .none →
      (∀ c v tmp, s.table.pc t = .access c v tmp → c.blocking = true) →
    insertionFails L s.table (s.table.pc t) = false → PageTable.Step L t s.table s' →
    Step t s ⟨s', s.phase⟩
  | insertionThrows : s.phase t = .none →
    insertionFails L s.table (s.table.pc t) = true →
    Step t s (s.goOn t s.table .thrown)
  /- `functor(g, nodeId_)`. -/
  | refused {c v tmp} (φ : Functor) (x : Sight) : s.phase t = .none →
    s.table.pc t = .access c v tmp → c.blocking = false → (c.insert = true ↔ φ = .protocol) →
    (φ.call x).latchState = none →
    Step t s (s.goOn t (s.table.go t (.recheck c v tmp none)) (.answered φ (φ.call x)))
  | latched {c v tmp l} (φ : Functor) (x : Sight) : s.phase t = .none →
    s.table.pc t = .access c v tmp → c.blocking = false → (c.insert = true ↔ φ = .protocol) →
    (φ.call x).latchState = some l → s.table.Grants tmp l →
    Step t s (s.goOn t ((s.table.acquire tmp t l).go t (.recheck c v tmp (some l)))
      (.answered φ (φ.call x)))
  /- `checkOrRestart`. -/
  | kept {φ g c v tmp m} : s.phase t = .answered φ g → s.table.pc t = .recheck c v tmp m →
    s.table.version (L.bucket c.pid) = v →
    Step t s (s.goOn t (s.table.go t
      (match m with | none => .idle | some l => .guard c.pid tmp l)) (.returned φ g false))
  | changed {φ g c v tmp m} : s.phase t = .answered φ g → s.table.pc t = .recheck c v tmp m →
    s.table.version (L.bucket c.pid) ≠ v →
    Step t s (s.goOn t (match m with | none => s.table | some l => s.table.go t (.undo c tmp l))
      (.undoing φ g))
  /- `functor.undo(g)`. -/
  | undoneLatch {φ g g' c tmp l} : s.phase t = .undoing φ g → s.table.pc t = .undo c tmp l →
    φ.undo (s.table.holder tmp).isSome g = some g' →
    Step t s (s.goOn t ((s.table.release tmp t l).go t .idle) (.returned φ g' true))
  | undoneNothing {φ g g' c v tmp} : s.phase t = .undoing φ g →
    s.table.pc t = .recheck c v tmp none → φ.undo (s.table.holder tmp).isSome g = some g' →
    Step t s (s.goOn t (s.table.go t .idle) (.returned φ g' true))
  | undoThrows {φ g c v tmp l} : s.phase t = .undoing φ g →
    s.table.pc t = .undo c tmp l ∨ s.table.pc t = .recheck c v tmp none →
    φ.undo (s.table.holder tmp).isSome g = none → Step t s (s.goOn t s.table .thrown)
  /-- The caller has the guard. -/
  | done {φ g changed} : s.phase t = .returned φ g changed →
    Step t s (s.goOn t s.table .none)

/-- Any number of threads, in any order. -/
def nonBlocking : System (State K F T) where
  Init s := Init L s.table ∧ ∀ t, s.phase t = .none
  Step s s' := ∃ t, Step L t s s'

variable {L}

/-- No `ensure` has failed, and a call that found its bucket changed has returned without a latch
and with a guard that the caller does not take for one. -/
structure Sound (s : State K F T) : Prop where
  quiet : ∀ t, s.phase t ≠ .thrown
  released : ∀ t φ g, s.phase t = .returned φ g true →
    g.latchState = none ∧ φ.NotAcquired g.state ∧
      ∀ f, s.table.holder f ≠ some t ∧ t ∉ s.table.readers f

/-- The bucket has changed behind an `Exclusive` that has not got the latch. -/
def UndoesRefused (s s' : State K F T) : Prop :=
  ∃ t g, s.phase t = .answered .exclusive g ∧ g.state = .retry ∧
    s'.phase t = .undoing .exclusive g

/-! ## The invariant -/

/-- What the place of a thread in the table says about its call. -/
def Agrees (s : PageTable.State K F T) (t : T) : Phase → Prop
  | .none => True
  | .answered φ g => (∃ x, g = φ.call x) ∧
    ∃ c v tmp, s.pc t = .recheck c v tmp g.latchState ∧ c.blocking = false
  | .undoing φ g => (∃ x, g = φ.call x) ∧
    ((φ ≠ .exclusive ∧ g = refused ∧
      ∃ c v tmp, s.pc t = .recheck c v tmp none ∧ c.blocking = false) ∨
    (g.state ≠ .retry ∧ g.latchState = some φ.mode ∧
      ∃ c tmp, s.pc t = .undo c tmp φ.mode ∧ c.blocking = false))
  | .returned φ g changed => changed = true →
    s.pc t = .idle ∧ g.latchState = none ∧ φ.NotAcquired g.state
  | .thrown => False

omit [DecidableEq F] [DecidableEq T] in
theorem Agrees.congr {s s' : PageTable.State K F T} {t : T} {ph : Phase} (h : Agrees s t ph)
    (hpc : s'.pc t = s.pc t) : Agrees s' t ph := by
  cases ph <;> simp only [Agrees, hpc] at h ⊢ <;> exact h

variable {s s' : State K F T} {t t' : T}

/-- Every step is a step of the table or leaves the table alone. -/
theorem Step.table_step (h : Step L t s s') (ha : Agrees s.table t (s.phase t)) :
    s'.table = s.table ∨ PageTable.Step L t s.table s'.table := by
  cases h with
  | table _ _ _ h => exact .inr h
  | insertionThrows => exact .inl rfl
  | refused φ x _ hp => exact .inr (.accessRetry hp)
  | latched φ x _ hp _ _ _ hgrants => exact .inr (.access _ hp hgrants)
  | @kept φ g c v tmp m hph hp hv =>
    rw [hph] at ha
    obtain ⟨_, c', v', tmp', hp', hblocking⟩ := ha
    obtain ⟨rfl, rfl, rfl, rfl⟩ := by simpa using hp.symm.trans hp'
    right
    cases hm : g.latchState with
    | none =>
      rw [hm] at hp
      simpa [State.goOn, hblocking] using PageTable.Step.recheckRetry (L := L) hp
    | some l =>
      rw [hm] at hp
      exact .recheckOk hp hv
  | @changed φ g c v tmp m hph hp hv =>
    cases m with
    | none => exact .inl rfl
    | some l => exact .inr (.recheckFail hp hv)
  | @undoneLatch φ g g' c tmp l hph hp _ =>
    rw [hph] at ha
    obtain ⟨_, ⟨_, _, _, _, _, hp', _⟩ | ⟨_, _, c', tmp', hp', hblocking⟩⟩ := ha
    · cases hp.symm.trans hp'
    · obtain ⟨rfl, rfl, rfl⟩ := by simpa using hp.symm.trans hp'
      right
      simpa [State.goOn, hblocking] using PageTable.Step.undo (L := L) hp
  | @undoneNothing φ g g' c v tmp hph hp _ =>
    rw [hph] at ha
    obtain ⟨_, ⟨_, _, c', v', tmp', hp', hblocking⟩ | ⟨_, _, _, _, hp', _⟩⟩ := ha
    · obtain ⟨rfl, rfl, rfl⟩ := by simpa using hp.symm.trans hp'
      right
      simpa [State.goOn, hblocking] using PageTable.Step.recheckRetry (L := L) hp
    · cases hp.symm.trans hp'
  | undoThrows => exact .inl rfl
  | done => exact .inl rfl

/-- A step of one thread leaves the calls of the others where they are. -/
theorem Step.phase_of_ne (h : Step L t' s s') (ht : t ≠ t') : s'.phase t = s.phase t := by
  cases h with
  | table => rfl
  | _ => exact Function.update_of_ne ht _ _

omit [DecidableEq F] [DecidableEq T] in
/-- The insertion's `ensure`s hold. -/
theorem not_insertionFails {chain : F → List F} {s : PageTable.State K F T}
    (h : Ok L chain s) : insertionFails L s (s.pc t) = false := by
  have hown := h.own t
  unfold insertionFails
  split
  case h_1 c f hp =>
    rw [hp] at hown
    obtain ⟨-, -, -, -, -, hnone, -⟩ := hown
    simp [hnone]
  case h_2 c f hp =>
    rw [hp] at hown
    simp [show isLatched (s.version (L.bucket c.pid)) = true from hown.1.2]
  case h_3 c hp =>
    rw [hp] at hown
    simp [show isLatched (s.version (L.bucket c.pid)) = true from hown.1.2]
  case h_4 => rfl

omit [DecidableEq F] [DecidableEq T] in
/-- The latch that a thread undoes is its own. -/
theorem undo_isSome {chain : F → List F} {s : PageTable.State K F T} {c : Call K} {f : F}
    {φ : Functor} (h : Ok L chain s) (hp : s.pc t = .undo c f φ.mode) :
    (s.holder f).isSome = decide (φ.mode = .exclusive) := by
  have hown := h.own t
  rw [hp] at hown
  cases hm : φ.mode with
  | exclusive =>
    rw [hm] at hown
    rw [show s.holder f = some t from hown]
    rfl
  | shared =>
    rw [hm] at hown
    have hmem : t ∈ s.readers f := hown
    cases hh : s.holder f with
    | none => rfl
    | some t' => simp [h.shape.sole f t' hh] at hmem
  | optimistic => cases φ <;> cases hm

theorem Step.agrees {chain : F → List F} (hok : Ok L chain s.table) (h : Step L t s s')
    (ha : Agrees s.table t (s.phase t)) (hundo : ¬ UndoesRefused s s') :
    Agrees s'.table t (s'.phase t) := by
  cases h with
  | table hph =>
    change Agrees _ t (s.phase t)
    rw [hph]
    trivial
  | insertionThrows _ hfails => cases (not_insertionFails hok).symm.trans hfails
  | @refused c v tmp φ x _ hp hblocking _ hnone =>
    simp only [State.goOn, Function.update_self]
    exact ⟨⟨x, rfl⟩, c, v, tmp, by simp [hnone], hblocking⟩
  | @latched c v tmp l φ x _ hp hblocking _ hsome _ =>
    simp only [State.goOn, Function.update_self]
    exact ⟨⟨x, rfl⟩, c, v, tmp, by simp [hsome], hblocking⟩
  | kept =>
    simp only [State.goOn, Function.update_self]
    exact nofun
  | @changed φ g c v tmp m hph hp hv =>
    rw [hph] at ha
    obtain ⟨⟨x, rfl⟩, c', v', tmp', hp', hblocking⟩ := ha
    obtain ⟨rfl, rfl, rfl, rfl⟩ := by simpa using hp.symm.trans hp'
    simp only [State.goOn, Function.update_self]
    refine ⟨⟨x, rfl⟩, ?_⟩
    rcases φ.call_cases x with hrefused | ⟨hlatch, hst⟩
    · rw [hrefused] at hp hph ⊢
      refine .inl ⟨?_, rfl, c, v, tmp, hp, hblocking⟩
      rintro rfl
      refine hundo ⟨t, NonBlocking.refused, hph, rfl, ?_⟩
      simp [State.goOn, hrefused]
    · rw [hlatch] at hp ⊢
      exact .inr ⟨hst, rfl, c, tmp, by simp, hblocking⟩
  | @undoneLatch φ g g' c tmp l hph hp hg' =>
    rw [hph] at ha
    simp only [State.goOn, Function.update_self]
    obtain ⟨_, ⟨_, _, _, _, _, hp', _⟩ | ⟨hst, hlatch, c', tmp', hp', _⟩⟩ := ha
    · cases hp.symm.trans hp'
    · obtain ⟨rfl, rfl, rfl⟩ := by simpa using hp.symm.trans hp'
      obtain ⟨g'', hg'', hnone, hnot⟩ := Functor.undo_latched hlatch hst
      rw [undo_isSome hok hp, hg''] at hg'
      obtain rfl := Option.some.inj hg'
      exact fun _ => ⟨by simp, hnone, hnot⟩
  | @undoneNothing φ g g' c v tmp hph hp hg' =>
    rw [hph] at ha
    simp only [State.goOn, Function.update_self]
    obtain ⟨_, ⟨hne, rfl, _⟩ | ⟨_, _, _, _, hp', _⟩⟩ := ha
    · rw [Functor.undo_refused, if_neg hne] at hg'
      obtain rfl := Option.some.inj hg'
      exact fun _ => ⟨by simp, rfl, φ.notAcquired_refused⟩
    · cases hp.symm.trans hp'
  | @undoThrows φ g c v tmp l hph hp hthrows =>
    rw [hph] at ha
    obtain ⟨_, ⟨hne, rfl, _⟩ | ⟨hst, hlatch, c', tmp', hp', _⟩⟩ := ha
    · rw [Functor.undo_refused, if_neg hne] at hthrows
      cases hthrows
    · rcases hp with hp | hp
      · obtain ⟨rfl, rfl, rfl⟩ := by simpa using hp.symm.trans hp'
        obtain ⟨g'', hg'', _⟩ := Functor.undo_latched hlatch hst
        rw [undo_isSome hok hp, hg''] at hthrows
        cases hthrows
      · cases hp.symm.trans hp'
  | done =>
    simp only [State.goOn, Function.update_self]
    trivial

/-- In every run in which no bucket changes behind an `Exclusive` that was refused, calls that do
not block neither throw nor leave a latch behind. -/
theorem sound_unless_undoesRefused
    (hs : ((nonBlocking L).restrict fun s s' => ¬ UndoesRefused s s').Reachable s) : Sound s := by
  have hinv : (pageTable L).Reachable s.table ∧ ∀ t, Agrees s.table t (s.phase t) := by
    refine hs.invariant (P := fun s => (pageTable L).Reachable s.table ∧
      ∀ t, Agrees s.table t (s.phase t)) ?_ ?_
    · rintro s ⟨htable, hphase⟩
      exact ⟨.init htable, fun t => hphase t ▸ trivial⟩
    · rintro s s' - ⟨htable, hagrees⟩ ⟨⟨t, hstep⟩, hundo⟩
      have hmove := hstep.table_step (hagrees t)
      refine ⟨?_, fun t' => ?_⟩
      · rcases hmove with hsame | hmove
        · exact hsame ▸ htable
        · exact htable.step ⟨t, hmove⟩
      · by_cases ht : t' = t
        · subst ht
          obtain ⟨chain, hok⟩ := ok_of_reachable htable
          exact hstep.agrees hok (hagrees t') hundo
        · have hpc : s'.table.pc t' = s.table.pc t' := by
            rcases hmove with hsame | hmove
            · rw [hsame]
            · exact hmove.pc_of_ne ht
          rw [hstep.phase_of_ne ht]
          exact (hagrees t').congr hpc
  have htracked := tracked_of_reachable hinv.1
  constructor
  case quiet =>
    intro t ht
    have := hinv.2 t
    rw [ht] at this
    exact this
  case released =>
    intro t φ g ht
    have := hinv.2 t
    rw [ht] at this
    obtain ⟨hpc, hnone, hnot⟩ := this rfl
    refine ⟨hnone, hnot, fun f => ⟨fun hf => ?_, fun hf => ?_⟩⟩
    · simpa [hpc, Pc.latch] using htracked.exclusive t f hf
    · simpa [hpc, Pc.latch] using htracked.shared t f hf

/-! ## A refusal that is undone -/

/-- What a thread chooses. -/
inductive Act (K F : Type) where
  | table (a : PageTable.Act K F)
  | call (φ : Functor) (x : Sight)
  | check
  | undo
  | done

variable [DecidableEq K] [Fintype F] [Fintype T]

/-- The call of a functor. -/
def actCall (t : T) (s : State K F T) (φ : Functor) (x : Sight) : Option (State K F T) :=
  match s.phase t, s.table.pc t with
  | .none, .access c v tmp =>
    if c.blocking = false ∧ (c.insert = true ↔ φ = .protocol) then
      match (φ.call x).latchState with
      | none => some (s.goOn t (s.table.go t (.recheck c v tmp none)) (.answered φ (φ.call x)))
      | some l =>
        if s.table.Grants tmp l then
          some (s.goOn t ((s.table.acquire tmp t l).go t (.recheck c v tmp (some l)))
            (.answered φ (φ.call x)))
        else none
    else none
  | _, _ => none

/-- What follows it. -/
def actReturn (L : Layout K F) (t : T) (s : State K F T) (a : Act K F) : Option (State K F T) :=
  match s.phase t, s.table.pc t, a with
  | .answered φ g, .recheck c v tmp m, .check =>
    if s.table.version (L.bucket c.pid) = v then
      some (s.goOn t (s.table.go t
        (match m with | none => .idle | some l => .guard c.pid tmp l)) (.returned φ g false))
    else
      some (s.goOn t (match m with | none => s.table | some l => s.table.go t (.undo c tmp l))
        (.undoing φ g))
  | .undoing φ g, .undo _ tmp l, .undo =>
    match φ.undo (s.table.holder tmp).isSome g with
    | some g' => some (s.goOn t ((s.table.release tmp t l).go t .idle) (.returned φ g' true))
    | none => some (s.goOn t s.table .thrown)
  | .undoing φ g, .recheck _ _ tmp none, .undo =>
    match φ.undo (s.table.holder tmp).isSome g with
    | some g' => some (s.goOn t (s.table.go t .idle) (.returned φ g' true))
    | none => some (s.goOn t s.table .thrown)
  | .returned _ _ _, _, .done => some (s.goOn t s.table .none)
  | _, _, _ => none

/-- A step of the table, up to the functor of a call that does not block. -/
def actTable (L : Layout K F) (t : T) (s : State K F T) (a : PageTable.Act K F) :
    Option (State K F T) :=
  match s.phase t, s.table.pc t with
  | .none, .access _ _ _ => none
  | .none, p =>
    if insertionFails L s.table p = true then none
    else (PageTable.act L t s.table a).map fun s' => ⟨s', s.phase⟩
  | _, _ => none

def act (L : Layout K F) (a : T × Act K F) (s : State K F T) : Option (State K F T) :=
  match a with
  | (t, .table a) => actTable L t s a
  | (t, .call φ x) => actCall t s φ x
  | (t, a) => actReturn L t s a

variable {a : Act K F}

omit [DecidableEq K] [Fintype T] [Fintype F] in
theorem actReturn_sound (h : actReturn L t s a = some s') : Step L t s s' := by
  unfold actReturn at h
  split at h
  case h_1 φ g c v tmp m hph hp =>
    split at h
    case isTrue hv =>
      obtain rfl := Option.some.inj h
      exact .kept hph hp hv
    case isFalse hv =>
      obtain rfl := Option.some.inj h
      exact .changed hph hp hv
  case h_2 φ g c tmp l hph hp =>
    split at h
    case h_1 g' hg =>
      obtain rfl := Option.some.inj h
      exact .undoneLatch hph hp hg
    case h_2 hg =>
      obtain rfl := Option.some.inj h
      exact .undoThrows (v := 0) hph (.inl hp) hg
  case h_3 φ g c v tmp hph hp =>
    split at h
    case h_1 g' hg =>
      obtain rfl := Option.some.inj h
      exact .undoneNothing hph hp hg
    case h_2 hg =>
      obtain rfl := Option.some.inj h
      exact .undoThrows (l := .exclusive) hph (.inr hp) hg
  case h_4 φ g changed _ hph =>
    obtain rfl := Option.some.inj h
    exact .done hph
  case h_5 => cases h

theorem act_sound (a : T × Act K F) (s s' : State K F T) (h : act L a s = some s') :
    (nonBlocking L).Step s s' := by
  unfold act at h
  split at h
  case h_1 t a =>
    refine ⟨t, ?_⟩
    unfold actTable at h
    split at h
    case h_1 => cases h
    case h_2 p hph hp =>
      split at h
      case isTrue => cases h
      case isFalse hfails =>
        obtain ⟨s', htable, rfl⟩ := Option.map_eq_some_iff.mp h
        refine .table hph (fun c v tmp hacc => ?_) (by simpa using hfails)
          (PageTable.act_sound htable)
        exact absurd hacc (hp c v tmp)
    case h_3 => cases h
  case h_2 t φ x =>
    refine ⟨t, ?_⟩
    unfold actCall at h
    split at h
    case h_1 c v tmp hph hp =>
      split at h
      case isTrue hc =>
        split at h
        case h_1 hnone =>
          obtain rfl := Option.some.inj h
          exact .refused φ x hph hp hc.1 hc.2 hnone
        case h_2 l hl =>
          obtain ⟨hgrants, rfl⟩ := by simpa using h
          exact .latched φ x hph hp hc.1 hc.2 hl hgrants
      case isFalse => cases h
    case h_2 => cases h
  case h_3 => exact ⟨_, actReturn_sound h⟩

local instance instNeZeroOne : NeZero 1 := ⟨Nat.one_ne_zero⟩

/-- One bucket and no frame to chain. -/
def oneFrame : Layout Nat (Fin 1) := ⟨fun _ => 0, fun _ => true, fun _ => rfl⟩

def oneFrameInit : State Nat (Fin 1) Bool where
  table := {
    pid _ := none
    next _ := none
    free _ := true
    version _ := 0b100
    holder _ := none
    readers _ := ∅
    frameFreeList := []
    pc _ := .idle }
  phase _ := .none

theorem oneFrame_init : (nonBlocking oneFrame).Init oneFrameInit :=
  ⟨⟨fun _ => ⟨rfl, rfl, rfl⟩, fun _ => (by decide : isLatched 0b100 = false), fun _ => ⟨rfl, rfl⟩,
    by decide, fun _ => rfl⟩, fun _ => rfl⟩

/-- A thread inserts the PID 4. -/
def insertFour : List (Bool × Act Nat (Fin 1)) :=
  [(true, .table (.insert 4))] ++ List.replicate 6 (true, .table .go)

/-- Another one looks it up and gets as far as the functor. -/
def findFour : List (Bool × Act Nat (Fin 1)) :=
  [(false, .table (.start ⟨4, false, false⟩))] ++ List.replicate 6 (false, .table .go)

/-- The functor finds the frame latched by the first thread, which then latches the bucket to remove
the frame. -/
def undoRefused : List (Bool × Act Nat (Fin 1)) :=
  insertFour ++ findFour ++
  [(false, .call .exclusive ⟨false, false, false, false, false⟩), (true, .table .remove),
    (true, .table .go), (false, .check), (false, .undo)]

/-- The functor gets the latch, and then the first thread latches the bucket to insert the PID 5. -/
def undoLatched : List (Bool × Act Nat (Fin 1)) :=
  insertFour ++ [(true, .table .release)] ++ findFour ++
  [(false, .call .exclusive ⟨true, false, true, true, true⟩), (true, .table (.insert 5)),
    (true, .table .go), (false, .check), (false, .undo)]

theorem refused_undo_throws : ∃ s : State Nat (Fin 1) Bool,
    (nonBlocking oneFrame).Reachable s ∧ ¬ Sound s := by
  have hrun : (System.runActs (act oneFrame) oneFrameInit undoRefused).any (fun s =>
      decide (s.phase false = .thrown)) = true := by
    decide +kernel
  obtain ⟨s, hs, hp⟩ := System.reachable_of_acts act_sound oneFrame_init hrun
  exact ⟨s, hs, fun h => h.quiet false (of_decide_eq_true hp)⟩

/-- `UndoesRefused` for one thread. -/
def undoesRefused (s s' : State Nat (Fin 1) Bool) (t : Bool) : Bool :=
  match s.phase t, s'.phase t with
  | .answered .exclusive g, .undoing .exclusive g' => decide (g = g' ∧ g.state = .retry)
  | _, _ => false

theorem undoesRefused_iff {s s' : State Nat (Fin 1) Bool} :
    (∃ t, undoesRefused s s' t = true) ↔ UndoesRefused s s' := by
  constructor
  · rintro ⟨t, h⟩
    unfold undoesRefused at h
    split at h
    case h_1 g g' hph hph' =>
      obtain ⟨rfl, hst⟩ := of_decide_eq_true h
      exact ⟨t, g, hph, hst, hph'⟩
    case h_2 => cases h
  · rintro ⟨t, g, hph, hst, hph'⟩
    exact ⟨t, by simp [undoesRefused, hph, hph', hst]⟩

instance (s s' : State Nat (Fin 1) Bool) : Decidable (UndoesRefused s s') :=
  decidable_of_iff _ undoesRefused_iff

/-- A latch that `Exclusive` has got is given back. -/
theorem sound_latched : ∃ s : State Nat (Fin 1) Bool,
    s.phase false = .returned .exclusive ⟨.uninitialized, none⟩ true ∧ Sound s := by
  have hrun : (System.runActs (fun a s => (act oneFrame a s).filter fun s' =>
      decide (¬ UndoesRefused s s')) oneFrameInit undoLatched).any (fun s =>
        decide (s.phase false = .returned .exclusive ⟨.uninitialized, none⟩ true)) = true := by
    decide +kernel
  obtain ⟨s, hs, hp⟩ := System.reachable_of_good_acts act_sound oneFrame_init hrun
  exact ⟨s, of_decide_eq_true hp, sound_unless_undoesRefused hs⟩

end NonBlocking

end ScaleStore.PageTable
