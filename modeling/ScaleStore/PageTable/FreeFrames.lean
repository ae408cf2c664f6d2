/-
# Where the frames of the page table are

The page table takes its frames from `frameFreeList` and gives them back to it,
and that list is a `PartitionedQueue`.  Here the two run together: a thread that
is about to link a frame or has just removed one goes through the steps of
`try_pop` and `try_push` with its own handle.

The list of free frames that the table's own model keeps is what the batches of
the queue contain.
-/

import ScaleStore.Buffers.PartitionedQueue
import ScaleStore.PageTable.Acts
import ScaleStore.PageTable.Map

namespace ScaleStore.PageTable

variable {K F T : Type} [DecidableEq F] [DecidableEq T] {L : Layout K F}

/-! ## Frames that are somewhere -/

section Table

variable {chain : F → List F} {s s' : State K F T} {t : T}

/-- Every chained frame is in the free list, in a chain, or in the hands of a thread. -/
def Covered (L : Layout K F) (s : State K F T) : Prop :=
  ∀ f, L.isHtBucket f = false → f ∈ s.frameFreeList ∨
    (∃ b, L.isHtBucket b = true ∧ OnChain s b f) ∨ ∃ t, (s.pc t).hand L = some f

/-- The free list changes where a frame is linked or pushed. -/
theorem Step.frameFreeList (h : Step L t s s') : s'.frameFreeList = s.frameFreeList ∨
    (∃ og slot f, s.pc t = .take og slot ∧ f ∈ s.frameFreeList ∧
      s' = ({ s with frameFreeList := s.frameFreeList.erase f }.setNext slot (some f)).go t
        (.latchFrame og f)) ∨
    ∃ f, ∃ pushed : Bool, s.pc t = .push f ∧
      s'.frameFreeList = if pushed then f :: s.frameFreeList else s.frameFreeList := by
  cases h with
  | take hp hf => exact .inr (.inl ⟨_, _, _, hp, hf, rfl⟩)
  | push pushed hp => exact .inr (.inr ⟨_, pushed, hp, rfl⟩)
  | access g => cases g <;> exact .inl rfl
  | @undo _ _ g => cases g <;> exact .inl rfl
  | @releaseGuard _ _ g => cases g <;> exact .inl rfl
  | _ => exact .inl rfl

/-- A frame in hand stays there until it is pushed. -/
theorem Step.hand (h : Step L t s s') {f : F} (hf : (s.pc t).hand L = some f) :
    (s'.pc t).hand L = some f ∨ s.pc t = .push f := by
  cases h with
  | @push g _ hp =>
    rw [hp] at hf ⊢
    obtain ⟨_, rfl⟩ : L.isHtBucket g = false ∧ g = f := by simpa [Pc.hand] using hf
    exact .inr rfl
  | clearPid hp | clearNext hp | clearState hp | unlatchBucket hp | unlatchFrame hp =>
    rw [hp] at hf
    obtain ⟨hchained, rfl⟩ : L.isHtBucket _ = false ∧ _ = f := by simpa [Pc.hand] using hf
    exact .inl (by simp [Pc.hand, hchained])
  | startRemove hp => rcases hp with hp | hp <;> simp [hp, Pc.hand] at hf
  | start _ hp | readVersion hp | testMore hp | testEnd hp | copy hp | checkOk hp | checkFail hp
  | compareEq hp | compareNe hp | advanceOk hp | advanceFail hp | foundOk hp | foundFail hp
  | accessRetry hp | access _ hp | recheckRetry hp | recheckOk hp | recheckFail hp | undo hp
  | absentFail hp | absentOk hp | notFound hp | notFoundDone hp | upgradeFail hp | upgradeOk hp
  | decideInline hp | decideChain hp | takeFail hp | take hp | giveUp hp | startInsert _ hp
  | latchBucket hp | newInline hp | newChain hp | seekMore hp | seekDone hp | seekNext hp
  | releaseGuard hp | releaseInserted hp | grab _ hp | drop hp | removeHeld hp | removeInline hp
  | removeChained hp | latchHome hp | seek hp | matchYes hp | matchNo hp | unlink hp
  | latchFrame hp | fillState hp | fillPid hp | filled hp => simp [hp, Pc.hand] at hf

/-- A frame stays in its chain until a thread unlinks it. -/
theorem Ok.onChain_or_hand (h : Ok L chain s) (hstep : Step L t s s') {b f : F}
    (hb : L.isHtBucket b = true) (hf : OnChain s b f) :
    OnChain s' b f ∨ (s'.pc t).hand L = some f := by
  have hmem := (h.shape.onChain_iff hb).mp hf
  rcases hstep.fields with ⟨_, hnext⟩ | ⟨og, slot, g, hp, hg, rfl⟩ | ⟨og, g, st, hp, rfl⟩ |
    ⟨g, b', slot, tmp, next, hp, rfl⟩ | ⟨g, b', p', hp, rfl⟩ | ⟨g, b', hp, rfl⟩
  · rw [OnChain, hnext]
    exact .inl hf
  · left
    rw [(h.takeStep hp hg).shape.onChain_iff hb]
    by_cases hbucket : b = L.bucket og.pid
    · subst hbucket
      rw [cells, Function.update_self, ← List.cons_append]
      exact List.mem_append_left _ hmem
    · rw [cells, Function.update_of_ne hbucket]
      exact hmem
  · exact .inl hf
  · rw [(h.unlinkStep hp).shape.onChain_iff hb]
    have hself := h.own t
    rw [hp] at hself
    by_cases hfg : f = g
    · subst hfg
      exact .inr (by simp [Pc.hand, hself.2.1])
    · left
      by_cases hbucket : b = b'
      · subst hbucket
        rw [cells, Function.update_self]
        rcases List.mem_cons.mp hmem with heq | hin
        · exact List.mem_cons.mpr (.inl heq)
        · exact List.mem_cons_of_mem _ ((List.mem_erase_of_ne hfg).mpr hin)
      · rw [cells, Function.update_of_ne hbucket]
        exact hmem
  · exact .inl hf
  · left
    rw [(h.clearNextStep hp).shape.onChain_iff hb]
    exact hmem

/-- No step loses a frame but a push that fails. -/
theorem Ok.covered (h : Ok L chain s) (hstep : Step L t s s') (hs : Covered L s)
    (hpush : ∀ f, s.pc t = .push f → s'.frameFreeList = f :: s.frameFreeList) :
    Covered L s' := by
  intro f hf
  rcases hs f hf with hlist | ⟨b, hb, hchain⟩ | ⟨t', hhand⟩
  · rcases hstep.frameFreeList with heq | ⟨og, slot, g, hp, hg, rfl⟩ | ⟨g, pushed, hp, _⟩
    · exact .inl (heq ▸ hlist)
    · by_cases hfg : f = g
      · subst hfg
        refine .inr (.inl ⟨L.bucket og.pid, L.isHtBucket_bucket _, ?_⟩)
        rw [(h.takeStep hp hg).shape.onChain_iff (L.isHtBucket_bucket _), cells,
          Function.update_self]
        simp
      · exact .inl ((List.mem_erase_of_ne hfg).mpr hlist)
    · rw [hpush g hp]
      exact .inl (List.mem_cons_of_mem _ hlist)
  · rcases h.onChain_or_hand hstep hb hchain with hchain | hhand
    · exact .inr (.inl ⟨b, hb, hchain⟩)
    · exact .inr (.inr ⟨t, hhand⟩)
  · by_cases ht : t' = t
    · subst ht
      rcases hstep.hand hhand with hhand | hp
      · exact .inr (.inr ⟨t', hhand⟩)
      · rw [hpush f hp]
        exact .inl List.mem_cons_self
    · refine .inr (.inr ⟨t', ?_⟩)
      rw [hstep.pc_of_ne ht]
      exact hhand

end Table

namespace FreeFrames

/-! ## The table and its free list -/

/-- The page table and `frameFreeList`, with one handle for each thread. -/
structure State (K F T : Type) (partitions size capacity : Nat) where
  table : PageTable.State K F T
  list : PartitionedQueue.State partitions size capacity F T

variable {partitions size capacity : Nat}

/-- The table with the frame `f` linked behind `slot`. -/
def linked (s : PageTable.State K F T) (t : T) (og : Origin K) (slot f : F) :
    PageTable.State K F T :=
  ({ s with frameFreeList := s.frameFreeList.erase f }.setNext slot (some f)).go t
    (.latchFrame og f)

/-- The table once the frame `f` has been pushed or not. -/
def returned (s : PageTable.State K F T) (t : T) (f : F) (pushed : Bool) : PageTable.State K F T :=
  { s with frameFreeList := if pushed then f :: s.frameFreeList else s.frameFreeList }.go t .idle

variable (L)

/-- What thread `t` does next. -/
inductive Step (t : T) (s : State K F T partitions size capacity) :
    State K F T partitions size capacity → Prop where
  | table {s' : PageTable.State K F T} : (∀ og slot, s.table.pc t ≠ .take og slot) →
    (∀ f, s.table.pc t ≠ .push f) → PageTable.Step L t s.table s' →
    Step t s { s with table := s' }
  /- `frameFreeList.try_pop(*slot, bf_handle)`. -/
  | popping {og slot l} : s.table.pc t = .take og slot → PartitionedQueue.Step t s.list l →
    (l.pc t).pops = true → Step t s { s with list := l }
  | popped {og slot f l} : s.table.pc t = .take og slot → (s.list.pc t).pops = true →
    PartitionedQueue.Step t s.list l → l.pc t = .idle → l.popped = f ::ₘ s.list.popped →
    Step t s ⟨linked s.table t og slot f, l⟩
  | notPopped {og slot l} : s.table.pc t = .take og slot → (s.list.pc t).pops = true →
    PartitionedQueue.Step t s.list l → l.pc t = .idle → l.popped = s.list.popped →
    Step t s ⟨s.table.go t (.giveUp og), l⟩
  /- `frameFreeList.try_push(&frame, bf_handle)`. -/
  | pushing {f l} : s.table.pc t = .push f → PartitionedQueue.Step t s.list l →
    (l.pc t).pushes = some f → Step t s { s with list := l }
  | pushed {f l} : s.table.pc t = .push f → (s.list.pc t).pushes = some f →
    PartitionedQueue.Step t s.list l → l.pc t = .idle → l.pushed = f ::ₘ s.list.pushed →
    Step t s ⟨returned s.table t f true, l⟩
  | notPushed {f l} : s.table.pc t = .push f → (s.list.pc t).pushes = some f →
    PartitionedQueue.Step t s.list l → l.pc t = .idle → l.pushed = s.list.pushed →
    Step t s ⟨returned s.table t f false, l⟩
  /-- The thread ends, and its handle with it. -/
  | destroy {l} : s.table.pc t = .idle → s.list.pc t = .idle →
    PartitionedQueue.Step t s.list l → l.pc t = .idle → Step t s { s with list := l }

/-- The constructor has pushed every frame that is not an inline one. -/
structure Init (s : State K F T partitions size capacity) : Prop where
  table : PageTable.Init L s.table
  list : PartitionedQueue.partitionedQueue.Reachable s.list
  calls : ∀ t, s.list.pc t = .idle
  stored : (s.table.frameFreeList : Multiset F) = s.list.stored
  frames : ∀ f, L.isHtBucket f = false → f ∈ s.table.frameFreeList

/-- Any number of threads, in any order. -/
def freeFrames : System (State K F T partitions size capacity) where
  Init := Init L
  Step s s' := ∃ t, Step L t s s'

variable {L}

/-- A `try_push` of `removeFrame` that is looking for an empty batch ends without one. -/
def FindsNoBatch (s s' : State K F T partitions size capacity) : Prop :=
  ∃ t f, s.table.pc t = .push f ∧ (s.list.pc t).seeks = true ∧ s'.table.pc t = .idle

/-- Where a frame may be. -/
inductive FramePlace (F T : Type) where
  | freeList
  | chain (b : F)
  | hands (t : T)

/-- The free list is what the batches contain, those in the handles of the threads included. -/
def At (L : Layout K F) (s : State K F T partitions size capacity) (f : F) :
    FramePlace F T → Prop
  | .freeList => f ∈ s.list.stored
  | .chain b => L.isHtBucket b = true ∧ OnChain s.table b f
  | .hands t => (s.table.pc t).hand L = some f

/-- Every chained frame is in one place, and in the free list once. -/
structure FramesConserved (L : Layout K F) (s : State K F T partitions size capacity) : Prop where
  once : s.list.stored.Nodup
  placed : ∀ f, L.isHtBucket f = false → ∃! p, At L s f p

/-! ## The list of the table is what the batches contain -/

section Runs

variable {s s' : State K F T partitions size capacity} {t : T}

/-- The two layers fit together. -/
structure Coupled (L : Layout K F) (s : State K F T partitions size capacity) : Prop where
  table : (pageTable L).Reachable s.table
  list : PartitionedQueue.partitionedQueue.Reachable s.list
  stored : (s.table.frameFreeList : Multiset F) = s.list.stored
  pops : ∀ t, (s.list.pc t).pops = true → ∃ og slot, s.table.pc t = .take og slot
  pushes : ∀ t f, (s.list.pc t).pushes = some f → s.table.pc t = .push f

omit [DecidableEq F] in
/-- What the batches contain once elements have been popped and pushed. -/
theorem stored_eq (hcapacity : 0 < capacity)
    {l l' : PartitionedQueue.State partitions size capacity F T}
    (hl : PartitionedQueue.partitionedQueue.Reachable l)
    (hl' : PartitionedQueue.partitionedQueue.Reachable l') (popped pushed : Multiset F)
    (hpopped : l'.popped = popped + l.popped) (hpushed : l'.pushed = pushed + l.pushed) :
    popped + l'.stored = pushed + l.stored := by
  have hbalance := (PartitionedQueue.run_conserved hcapacity hl).balance
  have hbalance' := (PartitionedQueue.run_conserved hcapacity hl').balance
  rw [hpopped, hpushed, ← hbalance] at hbalance'
  refine add_right_cancel (b := l.popped) ?_
  calc popped + l'.stored + l.popped = popped + l.popped + l'.stored := by abel
    _ = pushed + (l.popped + l.stored) := hbalance'
    _ = pushed + l.stored + l.popped := by abel

namespace Coupled

/-- The thread is in no call of the list unless it is at one. -/
theorem idle (hs : Coupled L s) (htake : ∀ og slot, s.table.pc t ≠ .take og slot)
    (hpush : ∀ f, s.table.pc t ≠ .push f) :
    (s.list.pc t).pops = false ∧ (s.list.pc t).pushes = none := by
  constructor
  · by_contra hne
    obtain ⟨og, slot, hp⟩ := hs.pops t (by simpa using hne)
    exact htake og slot hp
  · by_contra hne
    obtain ⟨f, hf⟩ := Option.ne_none_iff_exists'.mp hne
    exact hpush f (hs.pushes t f hf)

/-- Only the calls of other threads are looked at. -/
theorem others {table : PageTable.State K F T}
    {list : PartitionedQueue.State partitions size capacity F T} (hs : Coupled L s)
    (htable : ∀ t', t' ≠ t → table.pc t' = s.table.pc t')
    (hlist : ∀ t', t' ≠ t → list.pc t' = s.list.pc t')
    (hreach : (pageTable L).Reachable table)
    (hreach' : PartitionedQueue.partitionedQueue.Reachable list)
    (hstored : (table.frameFreeList : Multiset F) = list.stored)
    (hpops : (list.pc t).pops = true → ∃ og slot, table.pc t = .take og slot)
    (hpushes : ∀ f, (list.pc t).pushes = some f → table.pc t = .push f) :
    Coupled L ⟨table, list⟩ := by
  refine ⟨hreach, hreach', hstored, ?_, ?_⟩
  · intro t' hp
    by_cases ht : t' = t
    · subst ht
      exact hpops hp
    · rw [hlist t' ht] at hp
      rw [htable t' ht]
      exact hs.pops t' hp
  · intro t' f hp
    by_cases ht : t' = t
    · subst ht
      exact hpushes f hp
    · rw [hlist t' ht] at hp
      rw [htable t' ht]
      exact hs.pushes t' f hp

/-- The batches contain the same when nothing has been popped or pushed. -/
theorem stored_of_same (hcapacity : 0 < capacity) (hs : Coupled L s)
    {l : PartitionedQueue.State partitions size capacity F T}
    (hl : PartitionedQueue.partitionedQueue.Reachable l) (hpushed : l.pushed = s.list.pushed)
    (hpopped : l.popped = s.list.popped) : (s.table.frameFreeList : Multiset F) = l.stored := by
  have hstored := stored_eq hcapacity hs.list hl 0 0
    (by rw [hpopped, zero_add]) (by rw [hpushed, zero_add])
  rw [zero_add, zero_add, ← hs.stored] at hstored
  exact hstored.symm

end Coupled

/-- A step of the two layers is a step of the table or leaves the table as it is; the table's push
fails only where no batch was found. -/
theorem Step.coupled (hcapacity : 0 < capacity) (hs : Coupled L s) (hstep : Step L t s s') :
    Coupled L s' ∧ (s'.table = s.table ∨ PageTable.Step L t s.table s'.table ∧
      (¬ FindsNoBatch s s' → ∀ f, s.table.pc t = .push f →
        s'.table.frameFreeList = f :: s.table.frameFreeList)) := by
  cases hstep with
  | @table table htake hpush htable =>
    have hlist : table.frameFreeList = s.table.frameFreeList := by
      rcases htable.frameFreeList with heq | ⟨og, slot, _, hp, _⟩ | ⟨f, _, hp, _⟩
      · exact heq
      · exact absurd hp (htake og slot)
      · exact absurd hp (hpush f)
    obtain ⟨hpops, hpushes⟩ := hs.idle htake hpush
    refine ⟨?_, .inr ⟨htable, fun _ f hp => absurd hp (hpush f)⟩⟩
    refine hs.others (fun t' ht => htable.pc_of_ne ht) (fun _ _ => rfl)
      (hs.table.step ⟨t, htable⟩) hs.list (hlist ▸ hs.stored) ?_ ?_
    · intro hp
      rw [hpops] at hp
      cases hp
    · intro f hp
      rw [hpushes] at hp
      cases hp
  | @popping og slot l hp hl hpops =>
    have hreach := hs.list.step ⟨t, hl⟩
    obtain ⟨hpushed, hpopped⟩ := hl.running (by rintro h; rw [h] at hpops; cases hpops)
    refine ⟨?_, .inl rfl⟩
    refine hs.others (fun _ _ => rfl) (fun t' ht => hl.pc_of_ne ht) hs.table hreach
      (hs.stored_of_same hcapacity hreach hpushed hpopped) (fun _ => ⟨og, slot, hp⟩) ?_
    · intro f hf
      cases hpc : l.pc t <;> simp [hpc, PartitionedQueue.Pc.pops, PartitionedQueue.Pc.pushes]
        at hpops hf
  | @popped og slot f l hp hpops hl hidle hpopped =>
    have hreach := hs.list.step ⟨t, hl⟩
    have hstored := stored_eq hcapacity hs.list hreach {f} 0
      (by rw [hpopped, Multiset.singleton_add]) (by rw [hl.of_pops hpops, zero_add])
    rw [zero_add, ← hs.stored, Multiset.singleton_add] at hstored
    have hmem : f ∈ s.table.frameFreeList := by
      rw [← Multiset.mem_coe, ← hstored]
      exact Multiset.mem_cons_self f _
    have htable : PageTable.Step L t s.table (linked s.table t og slot f) := .take hp hmem
    refine ⟨?_, .inr ⟨htable, fun _ g hg => nomatch hg.symm.trans hp⟩⟩
    refine hs.others (fun t' ht => htable.pc_of_ne ht) (fun t' ht => hl.pc_of_ne ht)
      (hs.table.step ⟨t, htable⟩) hreach ?_ ?_ ?_
    · change ((s.table.frameFreeList.erase f : List F) : Multiset F) = _
      rw [← Multiset.coe_erase, ← hstored, Multiset.erase_cons_head]
    · rw [hidle]
      exact fun h => nomatch h
    · rw [hidle]
      exact fun _ h => nomatch h
  | @notPopped og slot l hp hpops hl hidle hpopped =>
    have hreach := hs.list.step ⟨t, hl⟩
    have htable : PageTable.Step L t s.table (s.table.go t (.giveUp og)) := .takeFail hp
    refine ⟨?_, .inr ⟨htable, fun _ g hg => nomatch hg.symm.trans hp⟩⟩
    refine hs.others (fun t' ht => htable.pc_of_ne ht) (fun t' ht => hl.pc_of_ne ht)
      (hs.table.step ⟨t, htable⟩) hreach
      (hs.stored_of_same hcapacity hreach (hl.of_pops hpops) hpopped) ?_ ?_
    · rw [hidle]
      exact fun h => nomatch h
    · rw [hidle]
      exact fun _ h => nomatch h
  | @pushing f l hp hl hpushes =>
    have hreach := hs.list.step ⟨t, hl⟩
    obtain ⟨hpushed, hpopped⟩ := hl.running (by rintro h; rw [h] at hpushes; cases hpushes)
    refine ⟨?_, .inl rfl⟩
    refine hs.others (fun _ _ => rfl) (fun t' ht => hl.pc_of_ne ht) hs.table hreach
      (hs.stored_of_same hcapacity hreach hpushed hpopped) ?_ ?_
    · intro hpops
      cases hpc : l.pc t <;> simp [hpc, PartitionedQueue.Pc.pops, PartitionedQueue.Pc.pushes]
        at hpops hpushes
    · intro g hg
      obtain rfl := Option.some.inj (hpushes.symm.trans hg)
      exact hp
  | @pushed f l hp hpushes hl hidle hpushed =>
    have hreach := hs.list.step ⟨t, hl⟩
    have hstored := stored_eq hcapacity hs.list hreach 0 {f}
      (by rw [(hl.of_pushes hpushes).1, zero_add]) (by rw [hpushed, Multiset.singleton_add])
    have htable : PageTable.Step L t s.table (returned s.table t f true) := .push true hp
    refine ⟨?_, .inr ⟨htable, fun _ g hg => ?_⟩⟩
    · refine hs.others (fun t' ht => htable.pc_of_ne ht) (fun t' ht => hl.pc_of_ne ht)
        (hs.table.step ⟨t, htable⟩) hreach ?_ ?_ ?_
      · rw [zero_add, ← hs.stored, Multiset.singleton_add] at hstored
        exact hstored.symm
      · rw [hidle]
        exact fun h => nomatch h
      · rw [hidle]
        exact fun _ h => nomatch h
    · obtain rfl : f = g := by simpa [hp] using hg
      rfl
  | @notPushed f l hp hpushes hl hidle hpushed =>
    have hreach := hs.list.step ⟨t, hl⟩
    have htable : PageTable.Step L t s.table (returned s.table t f false) := .push false hp
    refine ⟨?_, .inr ⟨htable, fun hfinds _ _ => absurd ?_ hfinds⟩⟩
    · refine hs.others (fun t' ht => htable.pc_of_ne ht) (fun t' ht => hl.pc_of_ne ht)
        (hs.table.step ⟨t, htable⟩) hreach
        (hs.stored_of_same hcapacity hreach hpushed (hl.of_pushes hpushes).1) ?_ ?_
      · rw [hidle]
        exact fun h => nomatch h
      · rw [hidle]
        exact fun _ h => nomatch h
    · -- a batch that was found would have had room
      refine ⟨t, f, hp, ?_, State.go_pc_self ..⟩
      rcases (hl.of_pushes hpushes).2 hpushed hidle with hseeks | ⟨b, hpc, hb, hfull⟩
      · exact hseeks
      · have hfresh := PartitionedQueue.freshBatch_of_reachable hcapacity hs.list t f b hpc hb
        exact absurd hfresh (PartitionedQueue.Stack.nonempty_of_tryPush hcapacity hfull)
  | @destroy l hp hpc hl hidle =>
    have hreach := hs.list.step ⟨t, hl⟩
    obtain ⟨hpushed, hpopped⟩ := hl.of_idle hpc
    refine ⟨?_, .inl rfl⟩
    refine hs.others (fun _ _ => rfl) (fun t' ht => hl.pc_of_ne ht) hs.table hreach
      (hs.stored_of_same hcapacity hreach hpushed hpopped) ?_ ?_
    · rw [hidle]
      exact fun h => nomatch h
    · rw [hidle]
      exact fun _ h => nomatch h

/-- What covers the chained frames puts each of them in one place. -/
theorem Coupled.frames (hs : Coupled L s) (hcovered : Covered L s.table) :
    FramesConserved L s := by
  obtain ⟨chain, hok⟩ := ok_of_reachable hs.table
  have hlist : ∀ f, f ∈ s.list.stored ↔ f ∈ s.table.frameFreeList := by
    intro f
    rw [← hs.stored, Multiset.mem_coe]
  refine ⟨?_, fun f hf => ?_⟩
  · rw [← hs.stored]
    exact Multiset.coe_nodup.mpr hok.shape.listed_nodup
  · have hchain : ∀ b, L.isHtBucket b = true → OnChain s.table b f → f ∈ chain b := by
      intro b hb hon
      rcases List.mem_cons.mp ((hok.shape.onChain_iff hb).mp hon) with rfl | hmem
      · cases hb.symm.trans hf
      · exact hmem
    rcases hcovered f hf with hfree | ⟨b, hb, hon⟩ | ⟨t, hhand⟩
    · obtain ⟨_, hnot, _⟩ := hok.shape.listed f hfree
      refine ⟨.freeList, (hlist f).mpr hfree, ?_⟩
      rintro (_ | b | t) hat
      · rfl
      · exact absurd (hchain b hat.1 hat.2) (hnot b)
      · exact absurd hfree ((hok.own t).inHand hat).2.2
    · have hmem := hchain b hb hon
      refine ⟨.chain b, ⟨hb, hon⟩, ?_⟩
      rintro (_ | b' | t) hat
      · exact absurd hmem ((hok.shape.listed f ((hlist f).mp hat)).2.1 b)
      · rw [hok.shape.disjoint b' b f (hchain b' hat.1 hat.2) hmem]
      · exact absurd hmem (((hok.own t).inHand hat).2.1 b)
    · have hin := (hok.own t).inHand hhand
      refine ⟨.hands t, hhand, ?_⟩
      rintro (_ | b' | t') hat
      · exact absurd ((hlist f).mp hat) hin.2.2
      · exact absurd (hchain b' hat.1 hat.2) (hin.2.1 b')
      · rw [hok.together.hand_once t' t f hat hhand]

/-- As long as every `removeFrame` finds a batch for its frame, no frame is lost: every chained
frame is in the free list, in one chain or in the hands of one thread. -/
theorem frames_conserved (hcapacity : 0 < capacity)
    (hs : ((freeFrames L).restrict fun s s' => ¬ FindsNoBatch s s').Reachable s) :
    FramesConserved L s := by
  have hinv : Coupled L s ∧ Covered L s.table := by
    refine hs.invariant (P := fun s => Coupled L s ∧ Covered L s.table) ?_
      fun s s' _ ⟨ih, hcovered⟩ ⟨⟨t, hstep⟩, hfinds⟩ => ?_
    · intro s hinit
      refine ⟨⟨.init hinit.table, hinit.list, hinit.stored, ?_, ?_⟩, ?_⟩
      · intro t hp
        rw [hinit.calls] at hp
        cases hp
      · intro t f hp
        rw [hinit.calls] at hp
        cases hp
      · exact fun f hf => .inl (hinit.frames f hf)
    · obtain ⟨hcoupled, hsame | ⟨htable, hpush⟩⟩ := hstep.coupled hcapacity ih
      · exact ⟨hcoupled, hsame ▸ hcovered⟩
      · obtain ⟨chain, hok⟩ := ok_of_reachable ih.table
        exact ⟨hcoupled, hok.covered htable hcovered (hpush hfinds)⟩
  exact hinv.1.frames hinv.2

end Runs

/-! ## A frame that is lost -/

section Acts

variable [DecidableEq K] [Fintype F] [Fintype T]
  {s s' : State K F T partitions size capacity} {t : T}

/-- What a thread chooses; a step of the list comes with the frame that it pops, if it does. -/
inductive Act (partitions : Nat) (K F : Type) where
  | table (a : PageTable.Act K F)
  | list (a : PartitionedQueue.Act partitions F) (popped : Option F)

/-- A step of the list in the call of the table that is made. -/
def actList (t : T) (s : State K F T partitions size capacity)
    (l : PartitionedQueue.State partitions size capacity F T) (popped : Option F) :
    Option (State K F T partitions size capacity) :=
  match s.table.pc t, l.pc t with
  | .take og slot, .idle =>
    if (s.list.pc t).pops = true then
      match popped with
      | some f =>
        if l.popped = f ::ₘ s.list.popped then some ⟨linked s.table t og slot f, l⟩ else none
      | none =>
        if l.popped = s.list.popped then some ⟨s.table.go t (.giveUp og), l⟩ else none
    else none
  | .push f, .idle =>
    if (s.list.pc t).pushes = some f then
      if l.pushed = f ::ₘ s.list.pushed then some ⟨returned s.table t f true, l⟩
      else if l.pushed = s.list.pushed then some ⟨returned s.table t f false, l⟩
      else none
    else none
  | .take _ _, _ => if (l.pc t).pops = true then some { s with list := l } else none
  | .push f, _ => if (l.pc t).pushes = some f then some { s with list := l } else none
  | _, _ => none

def act (L : Layout K F) (a : T × Act partitions K F) (s : State K F T partitions size capacity) :
    Option (State K F T partitions size capacity) :=
  match a with
  | (t, .table a) =>
    match s.table.pc t with
    | .take _ _ | .push _ => none
    | _ => (PageTable.act L t s.table a).map fun s' => { s with table := s' }
  | (t, .list a popped) =>
    (PartitionedQueue.act t s.list a).bind fun l => actList t s l popped

omit [DecidableEq K] [Fintype F] [Fintype T] in
theorem actList_sound {l : PartitionedQueue.State partitions size capacity F T} {p : Option F}
    (hl : PartitionedQueue.Step t s.list l) (h : actList t s l p = some s') : Step L t s s' := by
  unfold actList at h
  split at h
  case h_1 og slot hp hidle =>
    split at h
    case isTrue hpops =>
      split at h
      case h_1 f =>
        obtain ⟨hpopped, rfl⟩ := by simpa using h
        exact .popped hp hpops hl hidle hpopped
      case h_2 =>
        obtain ⟨hpopped, rfl⟩ := by simpa using h
        exact .notPopped hp hpops hl hidle hpopped
    case isFalse => cases h
  case h_2 f hp hidle =>
    split at h
    case isTrue hpushes =>
      split at h
      case isTrue hpushed =>
        obtain rfl := Option.some.inj h
        exact .pushed hp hpushes hl hidle hpushed
      case isFalse =>
        obtain ⟨hpushed, rfl⟩ := by simpa using h
        exact .notPushed hp hpushes hl hidle hpushed
    case isFalse => cases h
  case h_3 og slot _ hp _ =>
    obtain ⟨hpops, rfl⟩ := by simpa using h
    exact .popping hp hl hpops
  case h_4 f _ hp _ =>
    obtain ⟨hpushes, rfl⟩ := by simpa using h
    exact .pushing hp hl hpushes
  case h_5 => cases h

theorem act_sound (a : T × Act partitions K F) (s s' : State K F T partitions size capacity)
    (h : act L a s = some s') : (freeFrames L).Step s s' := by
  unfold act at h
  split at h
  case h_1 t a =>
    split at h
    case h_1 | h_2 => cases h
    case h_3 htake hpush =>
      obtain ⟨s', htable, rfl⟩ := Option.map_eq_some_iff.mp h
      exact ⟨t, .table htake hpush (PageTable.act_sound htable)⟩
  case h_2 t a popped =>
    obtain ⟨l, hl, hact⟩ := Option.bind_eq_some_iff.mp h
    exact ⟨t, actList_sound (PartitionedQueue.act_sound hl) hact⟩

end Acts

local instance instNeZeroOne : NeZero 1 := ⟨Nat.one_ne_zero⟩

local instance instNeZeroThree : NeZero 3 := ⟨by decide⟩

/-- One bucket with two frames to chain. -/
def twoChained : Layout Nat (Fin 3) := ⟨fun _ => 0, fun f => f == 0, fun _ => rfl⟩

/-- One queue with one batch for two frames. -/
def oneBatch : PartitionedQueue.State 1 1 2 (Fin 3) Bool where
  queues q := ⟨0, [], [(q, 0)]⟩
  container _ := ⟨[], Nat.zero_le _⟩
  handle _ := ⟨none, none⟩
  pc _ := .idle
  pushed := 0
  popped := 0

/-- The constructor pushes the frames `1` and `2` with a handle of its own. -/
def fillBatch : List (PartitionedQueue.Act 1 (Fin 3)) :=
  [.push 1, .ask 0, .go, .push 2, .go, .destroy]

/-- The free list once the constructor is done. -/
def filledBatch : PartitionedQueue.State 1 1 2 (Fin 3) Bool :=
  (System.runActs (fun a s => PartitionedQueue.act true s a) oneBatch fillBatch).get
    (by decide +kernel)

/-- The empty table with its free list. -/
def twoChainedInit : State Nat (Fin 3) Bool 1 1 2 where
  table := {
    pid _ := none
    next _ := none
    free _ := true
    version _ := 0b100
    holder _ := none
    readers _ := ∅
    frameFreeList := [1, 2]
    pc _ := .idle }
  list := filledBatch

theorem filledBatch_reachable : PartitionedQueue.partitionedQueue.Reachable filledBatch := by
  have hrun : System.runActs (fun a s => PartitionedQueue.act true s a) oneBatch fillBatch =
      some filledBatch := (Option.some_get _).symm
  refine System.Reachable.acts (fun a s s' h => ⟨true, PartitionedQueue.act_sound h⟩) (.init ?_)
    hrun
  exact ⟨fun q => by rfl, fun _ => rfl, fun _ => rfl, fun _ => rfl, rfl, rfl⟩

theorem twoChained_init : Init twoChained twoChainedInit where
  table := ⟨fun _ => ⟨rfl, rfl, rfl⟩, fun _ => (by decide : isLatched 0b100 = false),
    fun _ => ⟨rfl, rfl⟩, by decide, fun _ => rfl⟩
  list := filledBatch_reachable
  calls := by decide +kernel
  stored := by decide +kernel
  frames := by decide

/-- One thread inserts the PIDs 4 and 5, which take the frames `0` and `2`, and keeps the batch. -/
def chainTwo : List (Bool × Act 1 Nat (Fin 3)) :=
  [(false, .table (.insert 4))] ++ List.replicate 6 (false, .table .go) ++
  [(false, .table .release), (false, .table (.insert 5)), (false, .table .go),
    (false, .table .go), (false, .table .go), (false, .list .pop none),
    (false, .list (.ask 0) none), (false, .list (.lock false) none),
    (false, .list .go (some 2))] ++ List.replicate 4 (false, .table .go) ++
  [(false, .table .release)]

/-- Thread `t` removes the frame `2`. -/
def removeTwo (t : Bool) : List (Bool × Act 1 Nat (Fin 3)) :=
  [(t, .table (.grab 2)), (t, .table .remove)] ++ List.replicate 10 (t, .table .go) ++
  [(t, .list (.push 2) none)]

/-- The other thread has no batch for the frame that it has removed, and the queue has none. -/
theorem lost_without_batch : ∃ s : State Nat (Fin 3) Bool 1 1 2,
    (freeFrames twoChained).Reachable s ∧ ¬ FramesConserved twoChained s := by
  have hrun : (System.runActs (act twoChained) twoChainedInit
      (chainTwo ++ removeTwo true ++ [(true, .list (.ask 0) none)])).any (fun s =>
        decide (2 ∉ s.list.stored ∧ (∀ f, s.table.next f = none) ∧
          ∀ t, (s.table.pc t).hand twoChained ≠ some 2)) = true := by
    decide +kernel
  obtain ⟨s, hs, hp⟩ := System.reachable_of_acts act_sound twoChained_init hrun
  obtain ⟨hfree, hnext, hhand⟩ := of_decide_eq_true hp
  refine ⟨s, hs, fun hconserved => ?_⟩
  obtain ⟨place, hat, _⟩ := hconserved.placed 2 rfl
  cases place with
  | freeList => exact hfree hat
  | chain b =>
    obtain ⟨hb, hchain⟩ := hat
    rcases hchain.cases_tail with rfl | ⟨f, _, hf⟩
    · cases hb
    · cases (hnext f).symm.trans hf
  | hands t => exact hhand t hat

instance {partitions size capacity : Nat} (s s' : State Nat (Fin 3) Bool partitions size capacity) :
    Decidable (FindsNoBatch s s') :=
  inferInstanceAs (Decidable (∃ _ _, _ ∧ _ ∧ _))

/-- The thread that has the batch puts the frame back into it. -/
theorem frames_conserved_put_back : ∃ s : State Nat (Fin 3) Bool 1 1 2,
    s.list.popped = {2} ∧ s.list.pushed = {2, 2, 1} ∧ FramesConserved twoChained s := by
  have hrun : (System.runActs (fun a s => (act twoChained a s).filter fun s' =>
      decide (¬ FindsNoBatch s s')) twoChainedInit
      (chainTwo ++ removeTwo false ++ [(false, .list .go none)])).any (fun s =>
        decide (s.list.popped = {2} ∧ s.list.pushed = {2, 2, 1})) = true := by
    decide +kernel
  obtain ⟨s, hs, hp⟩ := System.reachable_of_good_acts act_sound twoChained_init hrun
  obtain ⟨hpopped, hpushed⟩ := of_decide_eq_true hp
  exact ⟨s, hpopped, hpushed, frames_conserved Nat.two_pos hs⟩

end FreeFrames

end ScaleStore.PageTable
