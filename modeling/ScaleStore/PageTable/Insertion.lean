/-
# What `insertFrame` returns

A frame that is chained is named by the field that points to it: `insertFrame`
keeps the address of its predecessor's `next` field and reads it again for the
final `ensure` and for the reference it returns.  At that time the bucket is
unlatched, and the predecessor may be removed.

The page table goes on as before; a thread that has unlatched its bucket first
makes these two reads.
-/

import ScaleStore.PageTable.Acts
import ScaleStore.PageTable.Map

namespace ScaleStore.PageTable

variable {K F T : Type} [DecidableEq F] [DecidableEq T] {L : Layout K F}
  {chain : F → List F} {s s' : State K F T} {t t' : T}

/-! ## Writes of pointers -/

/-- A pointer changes when a frame is linked behind the last one, when the next frame is unlinked,
and when a frame that is in hand is reset. -/
theorem Ok.next_written (h : Ok L chain s) (hstep : Step L t s s') {x : F}
    (hx : s'.next x ≠ s.next x) :
    (∃ og, s.pc t = .take og x ∧ x ∈ cells chain (L.bucket og.pid) ∧ s.next x = none) ∨
    (∃ f b tmp next, s.pc t = .unlink f b x tmp next ∧ L.isHtBucket b = true ∧
      x ∈ cells chain b ∧ s.next x = some f ∧ s.holder f = some t) ∨
    (s'.next x = none ∧ InHand L chain s x) := by
  have hself := h.own t
  rcases hstep.fields with ⟨_, hnext⟩ | ⟨og, slot, f, hp, hf, rfl⟩ | ⟨og, f, st, hp, rfl⟩ |
    ⟨f, b, slot, tmp, next, hp, rfl⟩ | ⟨f, b, p', hp, rfl⟩ | ⟨f, b, hp, rfl⟩
  · exact absurd (congrFun hnext x) hx
  · have hslot : x = slot := by
      by_contra hne
      exact hx (Function.update_of_ne hne _ _)
    subst hslot
    rw [hp] at hself
    obtain ⟨hown, _, pre, hl, hlast, _⟩ := hself
    rw [List.append_nil] at hl
    obtain ⟨pre, rfl⟩ := List.getLast?_eq_some_iff.mp hlast.symm
    refine .inl ⟨og, hp, by simp [hl], ?_⟩
    exact (hl ▸ h.shape.spells _ hown.1).next_eq
  · exact absurd rfl hx
  · have hslot : x = slot := by
      by_contra hne
      exact hx (Function.update_of_ne hne _ _)
    subst hslot
    rw [hp] at hself
    obtain ⟨hholder, _, _, hown, _, _, pre, suf, hl, hlast, _⟩ := hself
    obtain ⟨pre, rfl⟩ := List.getLast?_eq_some_iff.mp hlast
    refine .inr (.inl ⟨f, b, tmp, next, hp, hown.1, by simp [hl], ?_, hholder⟩)
    rw [List.append_assoc] at hl
    exact (hl ▸ h.shape.spells _ hown.1).next_eq
  · exact absurd rfl hx
  · have hslot : x = f := by
      by_contra hne
      exact hx (Function.update_of_ne hne _ _)
    subst hslot
    rw [hp] at hself
    exact .inr (.inr ⟨Function.update_self .., hself.2.2.1⟩)

/-- In a bucket that a thread has latched, the others change no pointer. -/
theorem Ok.held_next (h : Ok L chain s) (hstep : Step L t' s s') (ht : t ≠ t') {b x : F}
    (hb : (s.pc t).bucketHeld L = some b) (hx : x ∈ cells chain b) : s'.next x = s.next x := by
  have hbucket := ((h.own t).owns hb).1
  by_contra hne
  rcases h.next_written hstep hne with ⟨og, hp, hmem, _⟩ | ⟨f, b', tmp, next, hp, hb', hmem, _, _⟩ |
    ⟨_, hhand⟩
  · obtain rfl := h.shape.cells_disjoint hbucket (L.isHtBucket_bucket _) hx hmem
    exact ht (h.together.bucket_once t t' _ hb (by rw [hp]; rfl))
  · obtain rfl := h.shape.cells_disjoint hbucket hb' hx hmem
    exact ht (h.together.bucket_once t t' _ hb (by rw [hp]; rfl))
  · exact hhand.not_linked hbucket hx

/-- Nor do they unlink a frame of it. -/
theorem Ok.held_onChain (h : Ok L chain s) (hstep : Step L t' s s') (ht : t ≠ t') {b x : F}
    (hb : (s.pc t).bucketHeld L = some b) (hx : OnChain s b x) : OnChain s' b x := by
  have hbucket := ((h.own t).owns hb).1
  induction hx with
  | refl => exact .refl
  | @tail y z hy hyz ih =>
    have hmem := (h.shape.onChain_iff hbucket).mp hy
    exact ih.tail ((h.held_next hstep ht hb hmem).trans hyz)

/-- A pointer to a frame whose latch another thread has is only ever reset. -/
theorem Ok.next_of_latched (h : Ok L chain s) (hstep : Step L t' s s') (ht : t ≠ t') {x f : F}
    (hf : s.holder f = some t) (hx : s.next x = some f) :
    s'.next x = some f ∨ s'.next x = none := by
  by_cases hne : s'.next x = s.next x
  · exact .inl (hne.trans hx)
  · rcases h.next_written hstep hne with ⟨og, _, _, hnone⟩ | ⟨g, b, tmp, next, _, _, _, hg, hg'⟩ |
      ⟨hnone, _⟩
    · cases hnone.symm.trans hx
    · obtain rfl := Option.some.inj (hg.symm.trans hx)
      exact absurd (Option.some.inj (hf.symm.trans hg')) ht
    · exact .inr hnone

namespace Insertion

/-- How far `insertFrame` is once it has unlatched the bucket; `f` is the frame that
`init_bf_func` ran on. -/
inductive Phase (K F : Type) where
  | none
  /-- `ensure((**f).latch.isLatched())`. -/
  | ensure (pid : K) (f : F)
  /-- `return **f`. -/
  | ret (pid : K) (f : F)
  | returned (f result : F)
  /-- The `ensure` has failed, or a null pointer was read. -/
  | crashed
deriving DecidableEq

/-- The page table and, for every thread, the frame whose `next` field its `insertFrame` has the
address of; `none` on the way over the inline frame. -/
structure State (K F T : Type) where
  table : PageTable.State K F T
  slot : T → Option F
  phase : T → Phase K F

/-- What thread `t` remembers as its slot when the table goes on. -/
def slotAfter (s : PageTable.State K F T) (t : T) (slot : T → Option F) : T → Option F :=
  match s.pc t with
  | .take (.insertFrame _) x => Function.update slot t (some x)
  | .decideNew _ => Function.update slot t none
  | _ => slot

namespace State

variable (s : State K F T)

def setPhase (t : T) (p : Phase K F) : State K F T :=
  { s with phase := Function.update s.phase t p }

/-- Thread `t` has taken a step in the table. -/
def goTable (t : T) (s' : PageTable.State K F T) : State K F T :=
  { s with table := s', slot := slotAfter s.table t s.slot }

omit [DecidableEq F] in
@[simp] theorem setPhase_self (t : T) (p : Phase K F) : (s.setPhase t p).phase t = p :=
  Function.update_self ..

omit [DecidableEq F] in
theorem setPhase_of_ne {t t' : T} (ht : t ≠ t') (p : Phase K F) :
    (s.setPhase t' p).phase t = s.phase t :=
  Function.update_of_ne ht _ _

end State

variable (L)

/-- What thread `t` does next. -/
inductive Step (t : T) (s : State K F T) : State K F T → Prop where
  | table {s' : PageTable.State K F T} : s.phase t = .none →
    (∀ k f, s.table.pc t ≠ .fill (.insertFrame k) f true true) →
    PageTable.Step L t s.table s' → Step t s (s.goTable t s')
  /-- `insertFrame` unlatches the bucket. -/
  | unlatched {k : K} {f : F} {s' : PageTable.State K F T} : s.phase t = .none →
    s.table.pc t = .fill (.insertFrame k) f true true → PageTable.Step L t s.table s' →
    Step t s ((s.goTable t s').setPhase t (.ensure k f))
  | ensureOk {k f g} : s.phase t = .ensure k f → s.table.deref L k (s.slot t) = some g →
    s.table.holder g ≠ none →
    Step t s (s.setPhase t (.ret k f))
  | ensureFail {k f g} : s.phase t = .ensure k f → s.table.deref L k (s.slot t) = some g →
    s.table.holder g = none →
    Step t s (s.setPhase t .crashed)
  | ensureNull {k f} : s.phase t = .ensure k f → s.table.deref L k (s.slot t) = none →
    Step t s (s.setPhase t .crashed)
  | ret {k f g} : s.phase t = .ret k f → s.table.deref L k (s.slot t) = some g →
    Step t s (s.setPhase t (.returned f g))
  | retNull {k f} : s.phase t = .ret k f → s.table.deref L k (s.slot t) = none →
    Step t s (s.setPhase t .crashed)
  /-- The caller goes on with the frame it inserted. -/
  | resume {f} : s.phase t = .returned f f →
    Step t s (s.setPhase t .none)

/-- The table begins empty. -/
structure Init (s : State K F T) : Prop where
  table : PageTable.Init L s.table
  slots : ∀ t, s.slot t = none
  phases : ∀ t, s.phase t = .none

/-- Any number of threads, in any order. -/
def insertion : System (State K F T) where
  Init := Init L
  Step s s' := ∃ t, Step L t s s'

variable {L}

def Phase.reads : Phase K F → Bool
  | .ensure _ _ | .ret _ _ => true
  | _ => false

/-- The thread is still to read the `next` field of `x`. -/
def Reads (s : State K F T) (t : T) (x : F) : Prop :=
  s.slot t = some x ∧ (s.phase t).reads = true

/-- `reset` clears the `next` field of a removed frame that some `insertFrame` is still to read. -/
def ResetsUnderRead (s s' : State K F T) : Prop :=
  ∃ t x, Reads s t x ∧ s.table.next x ≠ none ∧ s'.table.next x = none

/-- The thread has got the frame `f` for `k` and is still to unlatch the bucket. -/
def Installs (p : Pc K F) (k : K) (f : F) : Prop :=
  p = .latchFrame (.insertFrame k) f ∨ ∃ st pid, p = .fill (.insertFrame k) f st pid

omit [DecidableEq F] [DecidableEq T] in
theorem Installs.bucketHeld {p : Pc K F} {k : K} {f : F} (h : Installs p k f) :
    p.bucketHeld L = some (L.bucket k) := by
  rcases h with rfl | ⟨st, pid, rfl⟩ <;> rfl

/-- How a thread gets its frame. -/
theorem installs_of_step {s s' : PageTable.State K F T} {k : K} {f : F}
    (h : PageTable.Step L t s s') (hpc : Installs (s'.pc t) k f) :
    (s'.next = s.next ∧ Installs (s.pc t) k f) ∨
    (s'.next = s.next ∧ s.pc t = .decideNew k ∧ f = L.bucket k) ∨
    ∃ x, s.pc t = .take (.insertFrame k) x ∧ f ∈ s.frameFreeList ∧
      s' = ({ s with frameFreeList := s.frameFreeList.erase f }.setNext x (some f)).go t
        (.latchFrame (.insertFrame k) f) := by
  cases h with
  | newInline hp _ =>
    obtain ⟨rfl, rfl⟩ : _ ∧ L.bucket _ = f := by simpa [Installs] using hpc
    exact .inr (.inl ⟨rfl, hp, rfl⟩)
  | take hp hf =>
    obtain ⟨rfl, rfl⟩ : _ = Origin.insertFrame k ∧ _ = f := by simpa [Installs] using hpc
    exact .inr (.inr ⟨_, hp, hf, rfl⟩)
  | latchFrame hp _ =>
    obtain ⟨rfl, rfl⟩ : _ = Origin.insertFrame k ∧ _ = f := by simpa [Installs] using hpc
    exact .inl ⟨rfl, .inl hp⟩
  | fillState hp =>
    obtain ⟨rfl, rfl⟩ : _ = Origin.insertFrame k ∧ _ = f := by simpa [Installs] using hpc
    exact .inl ⟨rfl, .inr ⟨_, _, hp⟩⟩
  | fillPid hp =>
    obtain ⟨rfl, rfl⟩ : _ = Origin.insertFrame k ∧ _ = f := by simpa [Installs] using hpc
    exact .inl ⟨rfl, .inr ⟨_, _, hp⟩⟩
  | recheckRetry | undo | clearPid | unlatchFrame | giveUp | filled =>
    rw [State.go_pc_self] at hpc
    split at hpc <;> rcases hpc with hpc | ⟨_, _, hpc⟩ <;> cases hpc
  | _ => simp [Installs] at hpc

theorem of_filled {s s' : PageTable.State K F T} {k : K} {f : F}
    (h : PageTable.Step L t s s') (hp : s.pc t = .fill (.insertFrame k) f true true) :
    s'.next = s.next ∧ s'.pc t = .inserted k f := by
  cases h with
  | filled hp' =>
    obtain ⟨rfl, rfl⟩ : _ = Origin.insertFrame k ∧ _ = f := by simpa [hp] using hp'.symm
    exact ⟨rfl, State.go_pc_self ..⟩
  | startRemove hp' => rcases hp' with hp' | hp' <;> simp [hp] at hp'
  | start _ hp' | readVersion hp' | testMore hp' | testEnd hp' | copy hp' | checkOk hp'
  | checkFail hp' | compareEq hp' | compareNe hp' | advanceOk hp' | advanceFail hp' | foundOk hp'
  | foundFail hp' | accessRetry hp' | access _ hp' | recheckRetry hp' | recheckOk hp'
  | recheckFail hp' | undo hp' | absentFail hp' | absentOk hp' | notFound hp' | notFoundDone hp'
  | upgradeFail hp' | upgradeOk hp' | decideInline hp' | decideChain hp' | takeFail hp' | take hp'
  | giveUp hp' | latchFrame hp' | fillState hp' | fillPid hp' | startInsert _ hp' | latchBucket hp'
  | newInline hp' | newChain hp' | seekMore hp' | seekDone hp' | seekNext hp' | releaseGuard hp'
  | releaseInserted hp' | grab _ hp' | drop hp' | removeHeld hp' | removeInline hp'
  | removeChained hp' | latchHome hp' | seek hp' | matchYes hp' | matchNo hp' | unlink hp'
  | clearPid hp' | clearNext hp' | clearState hp' | unlatchBucket hp' | unlatchFrame hp'
  | push _ hp' => simp [hp] at hp'

/-- The address a thread keeps names its frame, from the link on until the last read. -/
structure Named (L : Layout K F) (s : State K F T) : Prop where
  reach : (pageTable L).Reachable s.table
  installs : ∀ t k f, Installs (s.table.pc t) k f →
    s.table.deref L k (s.slot t) = some f ∧
      ∀ x, s.slot t = some x → OnChain s.table (L.bucket k) x
  reads : ∀ t k f, s.phase t = .ensure k f ∨ s.phase t = .ret k f →
    s.table.pc t = .inserted k f ∧ s.table.deref L k (s.slot t) = some f
  returned : ∀ t f g, s.phase t = .returned f g → g = f
  sound : ∀ t, s.phase t ≠ .crashed

omit [DecidableEq F] in
theorem slotAfter_of_ne {s : PageTable.State K F T} {slot : T → Option F} (ht : t ≠ t') :
    slotAfter s t' slot t = slot t := by
  cases hp : s.pc t' with
  | take og x =>
    cases og with
    | find c => simp [slotAfter, hp]
    | insertFrame k => simp [slotAfter, hp, ht]
  | decideNew k => simp [slotAfter, hp, ht]
  | _ => simp [slotAfter, hp]

/-- A step of the table keeps the addresses of the threads that install a frame. -/
theorem Named.table_installs {s : State K F T} {s' : PageTable.State K F T} (hs : Named L s)
    (hstep : PageTable.Step L t' s.table s') {k : K} {f : F} (hpc : Installs (s'.pc t) k f) :
    s'.deref L k (slotAfter s.table t' s.slot t) = some f ∧
      ∀ x, slotAfter s.table t' s.slot t = some x → OnChain s' (L.bucket k) x := by
  obtain ⟨chain, hok⟩ := ok_of_reachable hs.reach
  by_cases ht : t = t'
  · subst ht
    rcases installs_of_step hstep hpc with ⟨hnext, hin⟩ | ⟨hnext, hp, rfl⟩ | ⟨x, hp, hf, rfl⟩
    · -- the slot and the pointers stay
      have hslot : slotAfter s.table t s.slot t = s.slot t := by
        rcases hin with hin | ⟨_, _, hin⟩ <;> simp only [slotAfter, hin]
      obtain ⟨hderef, hchain⟩ := hs.installs t k f hin
      rw [hslot]
      refine ⟨?_, fun x hx => ?_⟩
      · cases hx : s.slot t with
        | none =>
          rw [hx] at hderef
          exact hderef
        | some x =>
          rw [hx] at hderef
          exact (congrFun hnext x).trans hderef
      · rw [OnChain, hnext]
        exact hchain x hx
    · simp [slotAfter, hp, PageTable.State.deref]
    · have hok' := hok.takeStep hp hf
      have hself := hok.own t
      rw [hp] at hself
      obtain ⟨_, _, pre, hl, hlast, _⟩ := hself
      obtain ⟨pre, rfl⟩ := List.getLast?_eq_some_iff.mp hlast.symm
      have hslot : slotAfter s.table t s.slot t = some x := by simp [slotAfter, hp]
      rw [hslot]
      refine ⟨by simp [PageTable.State.deref, PageTable.State.setNext, PageTable.State.go], ?_⟩
      intro y hy
      obtain rfl := Option.some.inj hy
      rw [hok'.shape.onChain_iff (L.isHtBucket_bucket k), cells, Origin.pid, Function.update_self,
        ← List.cons_append]
      change x ∈ cells chain (L.bucket k) ++ [f]
      rw [Origin.pid] at hl
      simp [hl]
  · rw [hstep.pc_of_ne ht] at hpc
    obtain ⟨hderef, hchain⟩ := hs.installs t k f hpc
    have hheld := Installs.bucketHeld (L := L) hpc
    rw [slotAfter_of_ne ht]
    refine ⟨?_, fun x hx => hok.held_onChain hstep ht hheld (hchain x hx)⟩
    cases hx : s.slot t with
    | none =>
      rw [hx] at hderef
      exact hderef
    | some x =>
      rw [hx] at hderef
      have hmem := (hok.shape.onChain_iff (L.isHtBucket_bucket k)).mp (hchain x hx)
      exact (hok.held_next hstep ht hheld hmem).trans hderef

/-- It keeps those of the threads that are still to read theirs, unless it resets the frame. -/
theorem Named.table_reads {s : State K F T} {s' : PageTable.State K F T} (hs : Named L s)
    (ht : t ≠ t') (hstep : PageTable.Step L t' s.table s')
    (hgood : ∀ x, Reads s t x → s.table.next x ≠ none → s'.next x ≠ none) {k : K} {f : F}
    (hphase : s.phase t = .ensure k f ∨ s.phase t = .ret k f) :
    s'.pc t = .inserted k f ∧ s'.deref L k (s.slot t) = some f := by
  obtain ⟨chain, hok⟩ := ok_of_reachable hs.reach
  obtain ⟨hp, hderef⟩ := hs.reads t k f hphase
  have hself := hok.own t
  rw [hp] at hself
  refine ⟨(hstep.pc_of_ne ht).trans hp, ?_⟩
  cases hx : s.slot t with
  | none =>
    rw [hx] at hderef
    exact hderef
  | some x =>
    rw [hx] at hderef
    rcases hok.next_of_latched hstep ht hself.1 hderef with hnext | hnone
    · exact hnext
    · refine absurd hnone (hgood x ⟨hx, ?_⟩ ?_)
      · rcases hphase with hphase | hphase <;> rw [hphase] <;> rfl
      intro hnone'
      cases hnone'.symm.trans hderef

theorem Named.goTable {s : State K F T} {s' : PageTable.State K F T} (hs : Named L s)
    (hnone : s.phase t' = .none) (hstep : PageTable.Step L t' s.table s')
    (hgood : ∀ t x, t ≠ t' → Reads s t x → s.table.next x ≠ none → s'.next x ≠ none) :
    Named L (s.goTable t' s') := by
  refine ⟨hs.reach.step ⟨t', hstep⟩, fun t k f => hs.table_installs hstep, ?_, hs.returned,
    hs.sound⟩
  intro t k f hp
  have ht : t ≠ t' := by
    rintro rfl
    change s.phase t = _ ∨ s.phase t = _ at hp
    rw [hnone] at hp
    rcases hp with hp | hp <;> cases hp
  have hslot : (s.goTable t' s').slot t = s.slot t := slotAfter_of_ne ht
  rw [hslot]
  exact hs.table_reads ht hstep (fun x => hgood t x ht) hp

/-- A thread moves on in its own reads. -/
theorem Named.setPhase {s : State K F T} (hs : Named L s) {p : Phase K F}
    (hreads : ∀ k f, p = .ensure k f ∨ p = .ret k f →
      s.table.pc t' = .inserted k f ∧ s.table.deref L k (s.slot t') = some f)
    (hreturned : ∀ f g, p = .returned f g → g = f) (hsound : p ≠ .crashed) :
    Named L (s.setPhase t' p) := by
  refine ⟨hs.reach, hs.installs, ?_, ?_, ?_⟩
  · intro t k f ht
    by_cases heq : t = t'
    · subst heq
      rw [State.setPhase_self] at ht
      exact hreads k f ht
    · rw [State.setPhase_of_ne _ heq] at ht
      exact hs.reads t k f ht
  · intro t f g ht
    by_cases heq : t = t'
    · subst heq
      rw [State.setPhase_self] at ht
      exact hreturned f g ht
    · rw [State.setPhase_of_ne _ heq] at ht
      exact hs.returned t f g ht
  · intro t
    by_cases heq : t = t'
    · subst heq
      rw [State.setPhase_self]
      exact hsound
    · rw [State.setPhase_of_ne _ heq]
      exact hs.sound t

theorem Named.holder {s : State K F T} (hs : Named L s) {k : K} {f : F}
    (hp : s.phase t = .ensure k f ∨ s.phase t = .ret k f) : s.table.holder f = some t := by
  obtain ⟨chain, hok⟩ := ok_of_reachable hs.reach
  have hself := hok.own t
  rw [(hs.reads t k f hp).1] at hself
  exact hself.1

theorem Step.named {s s' : State K F T} (hs : Named L s) (hstep : Step L t' s s')
    (hgood : ¬ ResetsUnderRead s s') : Named L s' := by
  cases hstep with
  | @table s₁ hnone _ htable =>
    exact hs.goTable hnone htable fun t x _ hr hx hx' => hgood ⟨t, x, hr, hx, hx'⟩
  | @unlatched k f s₁ hnone hfill htable =>
    have htabled : Named L (s.goTable t' s₁) :=
      hs.goTable hnone htable fun t x _ hr hx hx' => hgood ⟨t, x, hr, hx, hx'⟩
    obtain ⟨hnext, hpc⟩ := of_filled htable hfill
    refine htabled.setPhase ?_ (by simp) (by simp)
    intro k' f' heq
    obtain ⟨rfl, rfl⟩ : k = k' ∧ f = f' := by simpa using heq
    refine ⟨hpc, ?_⟩
    have hderef := (hs.installs t' k f (.inr ⟨_, _, hfill⟩)).1
    have hslot : (s.goTable t' s₁).slot = s.slot := by
      simp only [State.goTable, slotAfter, hfill]
    rw [hslot]
    cases hx : s.slot t' with
    | none =>
      rw [hx] at hderef
      exact hderef
    | some x =>
      rw [hx] at hderef
      exact (congrFun hnext x).trans hderef
  | @ensureOk k f g hp hderef hg =>
    refine hs.setPhase ?_ (by simp) (by simp)
    intro k' f' heq
    obtain ⟨rfl, rfl⟩ : k = k' ∧ f = f' := by simpa using heq
    exact hs.reads t' k f (.inl hp)
  | @ensureFail k f g hp hderef hg =>
    obtain rfl := Option.some.inj ((hs.reads t' k f (.inl hp)).2.symm.trans hderef)
    cases hg.symm.trans (hs.holder (.inl hp))
  | @ensureNull k f hp hderef => cases (hs.reads t' k f (.inl hp)).2.symm.trans hderef
  | @ret k f g hp hderef =>
    obtain rfl := Option.some.inj ((hs.reads t' k f (.inr hp)).2.symm.trans hderef)
    refine hs.setPhase (by simp) ?_ (by simp)
    intro f' g' heq
    obtain ⟨rfl, rfl⟩ : f = f' ∧ f = g' := by simpa using heq
    rfl
  | @retNull k f hp hderef => cases (hs.reads t' k f (.inr hp)).2.symm.trans hderef
  | resume hp => exact hs.setPhase (by simp) (by simp) (by simp)

/-- As long as no frame is reset whose `next` field an insertion is still to read, every insertion
returns the frame that it has initialised. -/
theorem returns_its_frame {s : State K F T}
    (hs : ((insertion L).restrict fun s s' => ¬ ResetsUnderRead s s').Reachable s) (t : T) :
    s.phase t ≠ .crashed ∧ ∀ f g, s.phase t = .returned f g → g = f := by
  have hnamed : Named L s := by
    refine hs.invariant ?_ fun s s' _ ih h => ?_
    · intro s hinit
      refine ⟨.init hinit.table, ?_, ?_, ?_, ?_⟩
      · intro t k f hp
        rw [hinit.table.pc] at hp
        rcases hp with hp | ⟨_, _, hp⟩ <;> cases hp
      · intro t k f hp
        rw [hinit.phases] at hp
        rcases hp with hp | hp <;> cases hp
      · intro t f g hp
        rw [hinit.phases] at hp
        cases hp
      · intro t
        rw [hinit.phases]
        exact fun h => nomatch h
    · obtain ⟨⟨t', hstep⟩, hgood⟩ := h
      exact hstep.named ih hgood
  exact ⟨hnamed.sound t, hnamed.returned t⟩

/-! ## A run that goes wrong -/

section Runs

variable [DecidableEq K] [Fintype F] [Fintype T]

/-- What the thread does in its own reads, and else what it does in the table. -/
def act (L : Layout K F) (t : T) (s : State K F T) (a : Act K F) : Option (State K F T) :=
  match s.phase t with
  | .none =>
    match PageTable.act L t s.table a with
    | none => none
    | some s' =>
      match s.table.pc t with
      | .fill (.insertFrame k) f true true => some ((s.goTable t s').setPhase t (.ensure k f))
      | _ => some (s.goTable t s')
  | .ensure k f =>
    match s.table.deref L k (s.slot t) with
    | some g => some (s.setPhase t (if s.table.holder g = none then .crashed else .ret k f))
    | none => some (s.setPhase t .crashed)
  | .ret k f =>
    match s.table.deref L k (s.slot t) with
    | some g => some (s.setPhase t (.returned f g))
    | none => some (s.setPhase t .crashed)
  | .returned f g => if f = g then some (s.setPhase t .none) else none
  | .crashed => none

instance (s : State K F T) (t : T) (x : F) : Decidable (Reads s t x) :=
  inferInstanceAs (Decidable (_ ∧ _))

instance (s s' : State K F T) : Decidable (ResetsUnderRead s s') :=
  inferInstanceAs
    (Decidable (∃ t x, Reads s t x ∧ s.table.next x ≠ none ∧ s'.table.next x = none))

theorem act_sound (a : T × Act K F) (s s' : State K F T) (h : act L a.1 s a.2 = some s') :
    (insertion L).Step s s' := by
  refine ⟨a.1, ?_⟩
  obtain ⟨t, a⟩ := a
  unfold act at h
  split at h
  case h_1 hnone =>
    split at h
    case h_1 => cases h
    case h_2 s₁ htable =>
      split at h
      case h_1 k f hp =>
        obtain rfl := Option.some.inj h
        exact .unlatched hnone hp (PageTable.act_sound htable)
      case h_2 hp =>
        obtain rfl := Option.some.inj h
        exact .table hnone hp (PageTable.act_sound htable)
  case h_2 k f hp =>
    split at h
    case h_1 g hderef =>
      obtain rfl := Option.some.inj h
      split
      · exact .ensureFail hp hderef ‹_›
      · exact .ensureOk hp hderef ‹_›
    case h_2 hderef =>
      obtain rfl := Option.some.inj h
      exact .ensureNull hp hderef
  case h_3 k f hp =>
    split at h
    case h_1 g hderef =>
      obtain rfl := Option.some.inj h
      exact .ret hp hderef
    case h_2 hderef =>
      obtain rfl := Option.some.inj h
      exact .retNull hp hderef
  case h_4 f g hp =>
    obtain ⟨rfl, rfl⟩ := by simpa using h
    exact .resume hp
  case h_5 => cases h

end Runs

local instance instNeZeroThree : NeZero 3 := ⟨by decide⟩

/-- One bucket with two frames behind it. -/
def threeFrames : Layout Nat (Fin 3) := ⟨fun _ => 0, fun f => f == 0, fun _ => rfl⟩

/-- Two threads on the empty table. -/
def threeFramesInit : State Nat (Fin 3) Bool where
  table := {
    pid _ := none
    next _ := none
    free _ := true
    version _ := 0b100
    holder _ := none
    readers _ := ∅
    frameFreeList := [1, 2]
    pc _ := .idle }
  slot _ := none
  phase _ := .none

theorem threeFrames_init : Init threeFrames threeFramesInit :=
  ⟨⟨fun _ => ⟨rfl, rfl, rfl⟩, fun _ => (by decide : isLatched 0b100 = false), fun _ => ⟨rfl, rfl⟩,
    by decide, fun _ => rfl⟩, fun _ => rfl, fun _ => rfl⟩

/-- One thread inserts the PIDs 4 and 5, which take the frames `0` and `1`; the other chains the
PID 6 behind the frame `1`.  The first removes the frame `1` before the second reads its `next`
field again. -/
def resetUnderRead : List (Bool × Act Nat (Fin 3)) :=
  [(false, .insert 4)] ++ List.replicate 9 (false, .go) ++ [(false, .release)] ++
  [(false, .insert 5), (false, .go), (false, .go), (false, .go), (false, .take 1)] ++
  List.replicate 7 (false, .go) ++
  [(true, .insert 6), (true, .go), (true, .go), (true, .go), (true, .go), (true, .go),
    (true, .take 2)] ++ List.replicate 4 (true, .go) ++
  [(false, .remove)] ++ List.replicate 7 (false, .go) ++ [(true, .go)]

theorem null_read_after_reset : ∃ s, (insertion threeFrames).Reachable s ∧
    s.phase true = .crashed := by
  have hrun : (System.runActs (fun a s => act threeFrames a.1 s a.2) threeFramesInit
      resetUnderRead).any (fun s => decide (s.phase true = .crashed)) = true := by
    decide +kernel
  obtain ⟨s, hs, hp⟩ := System.reachable_of_acts act_sound threeFrames_init hrun
  exact ⟨s, hs, of_decide_eq_true hp⟩

/-- If the frame `1` stays, the insertion returns the frame `2`. -/
theorem returns_its_frame_chained :
    ∃ s : State Nat (Fin 3) Bool, s.phase true = .returned 2 2 ∧ s.slot true = some 1 ∧
      (s.phase true ≠ .crashed ∧ ∀ f g, s.phase true = .returned f g → g = f) := by
  have hrun : (System.runActs (fun a s => (act threeFrames a.1 s a.2).filter fun s' =>
      decide (¬ ResetsUnderRead s s')) threeFramesInit
      (resetUnderRead.take 34 ++ [(true, .go), (true, .go)])).any (fun s =>
        decide (s.phase true = .returned 2 2 ∧ s.slot true = some 1)) = true := by
    decide +kernel
  obtain ⟨s, hs, hp⟩ := System.reachable_of_good_acts act_sound threeFrames_init hrun
  obtain ⟨hret, hslot⟩ := of_decide_eq_true hp
  exact ⟨s, hret, hslot, returns_its_frame hs true⟩

end Insertion

end ScaleStore.PageTable
