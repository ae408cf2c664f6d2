/-
# The page table is a map

What the invariant says in terms of the frames alone: which frame has a PID, what
lookups return, and what steps do to it.
-/

import ScaleStore.PageTable.Steps

namespace ScaleStore.PageTable

variable {K F T : Type} [DecidableEq F] [DecidableEq T] {L : Layout K F}
  {chain : F → List F} {s s' : State K F T} {t : T}

/-- The frame is the inline one of the bucket `b` or in the chain behind it. -/
def OnChain (s : State K F T) (b f : F) : Prop :=
  Relation.ReflTransGen (fun x y => s.next x = some y) b f

/-- The table has `f` for `k`. -/
def Maps (L : Layout K F) (s : State K F T) (k : K) (f : F) : Prop :=
  OnChain s (L.bucket k) f ∧ s.pid f = some k

/-- A thread is inserting `k`: it has got a frame. -/
def Inserting (p : Pc K F) (k : K) : Prop :=
  ∃ og f, og.pid = k ∧ (p = .latchFrame og f ∨ ∃ st pid, p = .fill og f st pid)

/-- The thread writes the PID `k` next. -/
def Writes (p : Pc K F) (k : K) (f : F) : Prop :=
  ∃ og st, og.pid = k ∧ p = .fill og f st false

/-- The thread takes a frame of `k` out of its chain next, or resets its PID. -/
def Erases (s : State K F T) (p : Pc K F) (k : K) (f : F) : Prop :=
  s.pid f = some k ∧ ((∃ b slot next, p = .unlink f b slot f next) ∨ ∃ b, p = .clearPid f b)

/-- What makes the table a map: of a state, and of every step that begins there. -/
structure IsMap (L : Layout K F) (s : State K F T) : Prop where
  /-- A PID is on one linked frame at most. -/
  unique : ∀ b b' f g k, L.isHtBucket b = true → L.isHtBucket b' = true → OnChain s b f →
    OnChain s b' g → s.pid f = some k → s.pid g = some k → f = g
  /-- A guard with a latch has the latch of the frame of its PID. -/
  latched : ∀ t k f g, s.pc t = .guard k f g → g ≠ .optimistic → Has s t f g ∧ Maps L s k f
  /-- A guard, optimistic or not, has the frame of its PID when it is returned. -/
  returned : ∀ t s' k f g, Step L t s s' → s'.pc t = .guard k f g → Maps L s' k f
  /-- `NOT_FOUND` is returned when the PID is absent. -/
  not_found : ∀ t s' k, Step L t s s' → s'.pc t = .notFound k → ∀ f, ¬ Maps L s k f
  /-- One thread at a time inserts a PID, and only one that is absent; when it is done the PID is
  there. -/
  insert_alone : ∀ t t' k, Inserting (s.pc t) k → Inserting (s.pc t') k → t = t'
  insert_absent : ∀ t s' k, Step L t s s' → ¬ Inserting (s.pc t) k → Inserting (s'.pc t) k →
    ∀ f, ¬ Maps L s k f
  insert_done : ∀ t s' k, Step L t s s' → Inserting (s.pc t) k → ¬ Inserting (s'.pc t) k →
    ∃ f, Maps L s' k f
  /-- A PID comes and goes with the write of the thread that inserts or removes it. -/
  frame : ∀ t s' k f, Step L t s s' → ¬ (Maps L s' k f ↔ Maps L s k f) →
    Writes (s.pc t) k f ∨ Erases s (s.pc t) k f

/-! ## Steps by what they lead to -/

omit [DecidableEq F] in
@[simp] theorem State.go_pc_self (s : State K F T) (p : Pc K F) : (s.go t p).pc t = p :=
  Function.update_self ..

theorem Step.to_guard {k : K} {f : F} {g : LatchState} (h : Step L t s s')
    (hpc : s'.pc t = .guard k f g) :
    s'.pid = s.pid ∧ s'.next = s.next ∧
    ((∃ c v, c.pid = k ∧ s.pc t = .recheck c v f (some g) ∧ s.version (L.bucket c.pid) = v) ∨
    (∃ c, c.pid = k ∧ s.pc t = .fill (.find c) f true true)) := by
  cases h with
  | recheckOk hp hv =>
    obtain ⟨rfl, rfl, rfl⟩ := by simpa using hpc
    exact ⟨rfl, rfl, .inl ⟨_, _, rfl, hp, hv⟩⟩
  | @filled og f' hp =>
    cases og with
    | find c =>
      obtain ⟨rfl, rfl, _⟩ := by simpa using hpc
      exact ⟨rfl, rfl, .inr ⟨c, rfl, hp⟩⟩
    | insertFrame k' => simp at hpc
  | recheckRetry | undo | clearPid | unlatchFrame | giveUp =>
    rw [State.go_pc_self] at hpc
    split at hpc <;> cases hpc
  | _ => simp at hpc

theorem Step.to_notFound {k : K} (h : Step L t s s') (hpc : s'.pc t = .notFound k) :
    ∃ c v slot, c.pid = k ∧ s.pc t = .absent c v slot ∧ s.version (L.bucket c.pid) = v := by
  cases h with
  | notFound hp hv _ =>
    obtain rfl := by simpa using hpc
    exact ⟨_, _, _, rfl, hp, hv⟩
  | recheckRetry | undo | clearPid | unlatchFrame | giveUp | filled =>
    rw [State.go_pc_self] at hpc
    split at hpc <;> cases hpc
  | _ => simp at hpc

/-- How an insertion gets its frame. -/
theorem Step.to_inserting {k : K} (h : Step L t s s') (hpc : Inserting (s'.pc t) k) :
    Inserting (s.pc t) k ∨ (∃ c slot, c.pid = k ∧ s.pc t = .decide c slot) ∨
    s.pc t = .decideNew k ∨ ∃ og slot, og.pid = k ∧ s.pc t = .take og slot := by
  obtain ⟨og, f, rfl, hpc⟩ := hpc
  cases h with
  | decideInline hp _ =>
    obtain ⟨rfl, _⟩ := by simpa using hpc
    exact .inr (.inl ⟨_, _, rfl, hp⟩)
  | newInline hp _ =>
    obtain ⟨rfl, _⟩ := by simpa using hpc
    exact .inr (.inr (.inl hp))
  | take hp _ =>
    obtain ⟨rfl, _⟩ := by simpa using hpc
    exact .inr (.inr (.inr ⟨_, _, rfl, hp⟩))
  | latchFrame hp _ =>
    obtain ⟨rfl, _⟩ := by simpa using hpc
    exact .inl ⟨_, _, rfl, .inl hp⟩
  | fillState hp =>
    obtain ⟨rfl, _⟩ := by simpa using hpc
    exact .inl ⟨_, _, rfl, .inr ⟨_, _, hp⟩⟩
  | fillPid hp =>
    obtain ⟨rfl, _⟩ := by simpa using hpc
    exact .inl ⟨_, _, rfl, .inr ⟨_, _, hp⟩⟩
  | recheckRetry | undo | clearPid | unlatchFrame | giveUp | filled =>
    rw [State.go_pc_self] at hpc
    split at hpc <;> rcases hpc with hpc | ⟨_, _, hpc⟩ <;> cases hpc
  | _ => simp at hpc

/-- How an insertion is done. -/
theorem Step.of_inserting {k : K} (h : Step L t s s') (hpc : Inserting (s.pc t) k)
    (hpc' : ¬ Inserting (s'.pc t) k) :
    s'.pid = s.pid ∧ s'.next = s.next ∧
      ∃ og f, og.pid = k ∧ s.pc t = .fill og f true true := by
  obtain ⟨og, f, rfl, hpc⟩ := hpc
  cases h with
  | latchFrame hp _ =>
    refine absurd ⟨og, f, rfl, ?_⟩ hpc'
    simp_all
  | fillState hp =>
    refine absurd ⟨og, f, rfl, ?_⟩ hpc'
    simp_all
  | fillPid hp =>
    refine absurd ⟨og, f, rfl, ?_⟩ hpc'
    simp_all
  | filled hp =>
    obtain ⟨rfl, rfl, _⟩ := by simpa [hp] using hpc
    exact ⟨rfl, rfl, _, _, rfl, hp⟩
  | startRemove hp => rcases hp with hp | hp <;> simp [hp] at hpc
  | start _ hp | readVersion hp | testMore hp | testEnd hp | copy hp | checkOk hp | checkFail hp
  | compareEq hp | compareNe hp | advanceOk hp | advanceFail hp | foundOk hp | foundFail hp
  | accessRetry hp | access _ hp | recheckRetry hp | recheckOk hp | recheckFail hp | undo hp
  | absentFail hp | absentOk hp | notFound hp | notFoundDone hp | upgradeFail hp | upgradeOk hp
  | decideInline hp | decideChain hp | takeFail hp | take hp | giveUp hp | startInsert _ hp
  | latchBucket hp | newInline hp | newChain hp | seekMore hp | seekDone hp | seekNext hp
  | releaseGuard hp | releaseInserted hp | grab _ hp | drop hp | removeHeld hp | removeInline hp
  | removeChained hp | latchHome hp | seek hp | matchYes hp | matchNo hp | unlink hp | clearPid hp
  | clearNext hp | clearState hp | unlatchBucket hp | unlatchFrame hp | push _ hp =>
    simp [hp] at hpc

omit [DecidableEq F] [DecidableEq T] in
theorem Maps.congr (hpid : s'.pid = s.pid) (hnext : s'.next = s.next) {k : K} {f : F} :
    Maps L s' k f ↔ Maps L s k f := by
  rw [Maps, Maps, OnChain, OnChain, hpid, hnext]

/-- A step of one thread leaves the others where they are. -/
theorem Step.pc_of_ne {t' : T} (h : Step L t' s s') (ht : t ≠ t') : s'.pc t = s.pc t := by
  cases h with
  | access g => cases g <;> exact Function.update_of_ne ht _ _
  | @undo _ _ g => cases g <;> exact Function.update_of_ne ht _ _
  | @releaseGuard _ _ g => cases g <;> exact Function.update_of_ne ht _ _
  | _ => exact Function.update_of_ne ht _ _

/-- The steps that write a PID or a pointer. -/
theorem Step.fields (h : Step L t s s') : (s'.pid = s.pid ∧ s'.next = s.next) ∨
    (∃ og slot f, s.pc t = .take og slot ∧ f ∈ s.frameFreeList ∧
      s' = ({ s with frameFreeList := s.frameFreeList.erase f }.setNext slot (some f)).go t
        (.latchFrame og f)) ∨
    (∃ og f st, s.pc t = .fill og f st false ∧
      s' = (s.setPid f (some og.pid)).go t (.fill og f st true)) ∨
    (∃ f b slot tmp next, s.pc t = .unlink f b slot tmp next ∧
      s' = (s.setNext slot next).go t (.clearPid f b)) ∨
    (∃ f b p', s.pc t = .clearPid f b ∧ s' = (s.setPid f none).go t p') ∨
    (∃ f b, s.pc t = .clearNext f b ∧ s' = (s.setNext f none).go t (.clearState f b)) := by
  cases h with
  | take hp hf => exact .inr (.inl ⟨_, _, _, hp, hf, rfl⟩)
  | fillPid hp => exact .inr (.inr (.inl ⟨_, _, _, hp, rfl⟩))
  | unlink hp => exact .inr (.inr (.inr (.inl ⟨_, _, _, _, _, hp, rfl⟩)))
  | clearPid hp => exact .inr (.inr (.inr (.inr (.inl ⟨_, _, _, hp, rfl⟩))))
  | clearNext hp => exact .inr (.inr (.inr (.inr (.inr ⟨_, _, hp, rfl⟩))))
  | access g => cases g <;> exact .inl ⟨rfl, rfl⟩
  | @undo _ _ g => cases g <;> exact .inl ⟨rfl, rfl⟩
  | @releaseGuard _ _ g => cases g <;> exact .inl ⟨rfl, rfl⟩
  | _ => exact .inl ⟨rfl, rfl⟩

/-! ## The map -/

omit [DecidableEq F] [DecidableEq T] in
theorem Shape.onChain_iff (h : Shape L chain s) {b f : F} (hb : L.isHtBucket b = true) :
    OnChain s b f ↔ f ∈ cells chain b :=
  (h.spells b hb).mem_iff_reaches.symm

omit [DecidableEq F] [DecidableEq T] in
theorem Shape.maps_iff (h : Shape L chain s) {k : K} {f : F} :
    Maps L s k f ↔ Linked L chain s k f :=
  and_congr_left fun _ => h.onChain_iff (L.isHtBucket_bucket k)

omit [DecidableEq F] [DecidableEq T] in
theorem Shape.unique (h : Shape L chain s) {b b' f g : F} {k : K} (hb : L.isHtBucket b = true)
    (hb' : L.isHtBucket b' = true) (hf : OnChain s b f) (hg : OnChain s b' g)
    (hkf : s.pid f = some k) (hkg : s.pid g = some k) : f = g := by
  rw [h.onChain_iff hb] at hf
  rw [h.onChain_iff hb'] at hg
  obtain rfl := h.home b f k hb hf hkf
  obtain rfl := h.home b' g k hb' hg hkg
  exact h.once k f g hf hg hkf hkg

/-- The frame of a PID is found by lookups of other PIDs as before. -/
theorem Ok.maps_frame (h : Ok L chain s) (hstep : Step L t s s') {k : K} {f : F}
    (hchange : ¬ (Maps L s' k f ↔ Maps L s k f)) :
    Writes (s.pc t) k f ∨ Erases s (s.pc t) k f := by
  have hself := h.own t
  rcases hstep.fields with ⟨hpid, hnext⟩ | ⟨og, slot, f', hp, hf', rfl⟩ | ⟨og, f', st, hp, rfl⟩ |
    ⟨f', b, slot, tmp, next, hp, rfl⟩ | ⟨f', b, p', hp, rfl⟩ | ⟨f', b, hp, rfl⟩
  · exact absurd (Maps.congr hpid hnext) hchange
  · -- the frame that is linked has no PID yet
    refine absurd ?_ hchange
    rw [(h.takeStep hp hf').shape.maps_iff, h.shape.maps_iff]
    refine and_congr_left fun (hk : s.pid f = some k) => ?_
    have hne : f ≠ f' := by
      rintro rfl
      cases (h.shape.listed f hf').2.2.1.symm.trans hk
    by_cases hb : L.bucket k = L.bucket og.pid
    · rw [cells, cells, hb, Function.update_self]
      simp [hne]
    · rw [cells, cells, Function.update_of_ne hb]
  · by_cases hff : f = f'
    · subst hff
      by_cases hk : og.pid = k
      · exact .inl ⟨og, st, hk, hp⟩
      · refine absurd (iff_of_false ?_ ?_) hchange
        · rintro ⟨_, hpid⟩
          have hself' : (s.setPid f (some og.pid)).pid f = some og.pid := Function.update_self ..
          exact hk (Option.some.inj (hself'.symm.trans hpid))
        · rintro ⟨_, hpid⟩
          rw [hp] at hself
          obtain ⟨_, _, _, _, _, hnone, _⟩ := hself
          cases hnone.symm.trans hpid
    · refine absurd (and_congr Iff.rfl ?_) hchange
      exact iff_of_eq (congrArg (· = some k) (Function.update_of_ne hff _ _))
  · have hok := h.unlinkStep hp
    rw [hp] at hself
    obtain ⟨hholder, hht, ⟨k', hlinked, rfl⟩, hown, htidy, rfl, _⟩ := hself
    by_cases hff : f = tmp
    · subst hff
      by_cases hk : s.pid f = some k
      · exact .inr ⟨hk, .inl ⟨_, _, _, hp⟩⟩
      · exact absurd (iff_of_false (fun hm => hk hm.2) fun hm => hk hm.2) hchange
    · refine absurd ?_ hchange
      rw [hok.shape.maps_iff, h.shape.maps_iff]
      refine and_congr_left fun _ => ?_
      by_cases hb : L.bucket k = L.bucket k'
      · rw [cells, cells, hb, Function.update_self]
        simp [List.mem_erase_of_ne hff]
      · rw [cells, cells, Function.update_of_ne hb]
  · by_cases hff : f = f'
    · subst hff
      by_cases hk : s.pid f = some k
      · exact .inr ⟨hk, .inr ⟨_, hp⟩⟩
      · refine absurd (iff_of_false ?_ fun hm => hk hm.2) hchange
        rintro ⟨_, hpid⟩
        have hself' : (s.setPid f none).pid f = none := Function.update_self ..
        cases hself'.symm.trans hpid
    · refine absurd (and_congr Iff.rfl ?_) hchange
      exact iff_of_eq (congrArg (· = some k) (Function.update_of_ne hff _ _))
  · refine absurd ?_ hchange
    rw [(h.clearNextStep hp).shape.maps_iff, h.shape.maps_iff]
    exact Iff.rfl

omit [DecidableEq F] [DecidableEq T] in
/-- A thread that is inserting has latched the bucket. -/
theorem Inserting.bucketHeld {p : Pc K F} {k : K} (h : Inserting p k) :
    p.bucketHeld L = some (L.bucket k) := by
  obtain ⟨og, f, rfl, rfl | ⟨st, pid, rfl⟩⟩ := h <;> rfl

/-- The PID that an insertion gets a frame for is in no frame of the table. -/
theorem Ok.insert_absent (h : Ok L chain s) (hstep : Step L t s s') {k : K}
    (hbefore : ¬ Inserting (s.pc t) k) (hafter : Inserting (s'.pc t) k) (f : F) :
    ¬ Maps L s k f := by
  have hself := h.own t
  have habsent : ∀ g ∈ cells chain (L.bucket k), s.pid g ≠ some k := by
    rcases hstep.to_inserting hafter with hin | ⟨c, slot, rfl, hp⟩ | hp | ⟨og, slot, rfl, hp⟩
    · exact absurd hin hbefore
    · rw [hp] at hself
      exact hself.2.2.absent
    · exact fun g _ => h.together.unknown t k (by rw [hp]; rfl) g
    · rw [hp] at hself
      exact hself.2.2.absent
  intro hmaps
  rw [h.shape.maps_iff] at hmaps
  exact habsent f hmaps.1 hmaps.2

theorem Ok.returned (h : Ok L chain s) (hstep : Step L t s s') {k : K} {f : F} {g : LatchState}
    (hpc : s'.pc t = .guard k f g) : Maps L s' k f := by
  have hself := h.own t
  obtain ⟨hpid, hnext, hp⟩ := hstep.to_guard hpc
  rw [Maps.congr hpid hnext, h.shape.maps_iff]
  rcases hp with ⟨c, v, rfl, hp, hv⟩ | ⟨c, rfl, hp⟩ <;> rw [hp] at hself
  · exact hself.1.2.2 hv
  · obtain ⟨_, _, _, hmem, _, hk⟩ := hself
    exact ⟨hmem, hk⟩

theorem Ok.not_found (h : Ok L chain s) (hstep : Step L t s s') {k : K}
    (hpc : s'.pc t = .notFound k) (f : F) : ¬ Maps L s k f := by
  have hself := h.own t
  obtain ⟨c, v, slot, rfl, hp, hv⟩ := hstep.to_notFound hpc
  rw [hp] at hself
  intro hmaps
  rw [h.shape.maps_iff] at hmaps
  exact (hself.2.2 hv).absent f hmaps.1 hmaps.2

theorem Ok.insert_done (h : Ok L chain s) (hstep : Step L t s s') {k : K}
    (hbefore : Inserting (s.pc t) k) (hafter : ¬ Inserting (s'.pc t) k) : ∃ f, Maps L s' k f := by
  have hself := h.own t
  obtain ⟨hpid, hnext, og, f, rfl, hp⟩ := hstep.of_inserting hbefore hafter
  rw [hp] at hself
  obtain ⟨_, _, _, hmem, _, hk⟩ := hself
  refine ⟨f, ?_⟩
  rw [Maps.congr hpid hnext, h.shape.maps_iff]
  exact ⟨hmem, hk⟩

/-- Whatever the threads do and in whatever order, the table is a map. -/
theorem is_map (hs : (pageTable L).Reachable s) : IsMap L s := by
  obtain ⟨chain, h⟩ := ok_of_reachable hs
  constructor
  case unique => exact fun b b' f g k hb hb' hf hg hkf hkg => h.shape.unique hb hb' hf hg hkf hkg
  case latched =>
    intro t k f g hp hg
    have hself := h.own t
    rw [hp] at hself
    exact ⟨hself.1, h.shape.maps_iff.mpr (hself.2 hg)⟩
  case returned => exact fun t s' k f g hstep hpc => h.returned hstep hpc
  case not_found => exact fun t s' k hstep hpc => h.not_found hstep hpc
  case insert_alone =>
    intro t t' k ht ht'
    exact h.together.bucket_once t t' _ ht.bucketHeld ht'.bucketHeld
  case insert_absent => exact fun t s' k hstep hb ha => h.insert_absent hstep hb ha
  case insert_done => exact fun t s' k hstep hb ha => h.insert_done hstep hb ha
  case frame => exact fun t s' k f hstep hchange => h.maps_frame hstep hchange

/-- Two threads and one bucket with the frame `1` behind it. -/
theorem isHtBucket_zero (_ : Nat) : ((0 : Nat) == 0) = true := rfl

def oneBucket : Layout Nat Nat := ⟨fun _ => 0, fun f => f == 0, isHtBucket_zero⟩

def oneBucketInit : State Nat Nat Nat where
  pid _ := none
  next _ := none
  free _ := true
  version _ := 0b100
  holder _ := none
  readers _ := ∅
  frameFreeList := [1]
  pc _ := .idle

/-- The call of `findFrameOrInsert` for the PID 5 finds nothing and inserts it. -/
theorem is_map_inserted : ∃ s : State Nat Nat Nat,
    s.pc 0 = .guard 5 0 .exclusive ∧ s.pid 0 = some 5 ∧ IsMap oneBucket s := by
  have h0 : (pageTable oneBucket).Reachable oneBucketInit := by
    refine .init ⟨fun _ => ⟨rfl, rfl, rfl⟩, fun _ => (by decide : isLatched 0b100 = false),
      fun _ => ⟨rfl, rfl⟩, ?_, fun _ => rfl⟩
    exact ⟨List.nodup_singleton 1, by simp [oneBucketInit, oneBucket]⟩
  have h1 := h0.step ⟨0, .start ⟨5, true, true⟩ rfl (by simp [oneBucketInit, Pc.inserts])⟩
  have h2 := h1.step ⟨0, .readVersion rfl rfl⟩
  have h3 := h2.step ⟨0, .testMore rfl (by simp [State.deref])⟩
  have h4 := h3.step ⟨0, .copy rfl⟩
  have h5 := h4.step ⟨0, .checkOk rfl rfl⟩
  have h6 := h5.step ⟨0, .compareNe rfl (by simp [State.go, oneBucketInit])⟩
  have h7 := h6.step ⟨0, .advanceOk rfl rfl⟩
  have h8 := h7.step ⟨0, .testEnd rfl rfl⟩
  have h9 := h8.step ⟨0, .absentOk rfl rfl rfl⟩
  have h10 := h9.step ⟨0, .upgradeOk rfl rfl⟩
  have h11 := h10.step ⟨0, .decideInline rfl rfl⟩
  have h12 := h11.step ⟨0, .latchFrame rfl ⟨rfl, rfl⟩⟩
  have h13 := h12.step ⟨0, .fillState rfl⟩
  have h14 := h13.step ⟨0, .fillPid rfl⟩
  have h15 := h14.step ⟨0, .filled rfl⟩
  exact ⟨_, rfl, rfl, is_map h15⟩

end ScaleStore.PageTable
