/-
# Latches and program counters

A latch is held for as long as the code says so: a bucket that is latched is
latched by a thread that is between latching and unlatching it, and the latch of
a frame by a thread that has got it and not yet given it back.  So a call that
returns a guard has no other latch.
-/

import ScaleStore.PageTable.Steps

namespace ScaleStore.PageTable

variable {K F T : Type} [DecidableEq F] [DecidableEq T] {L : Layout K F}
  {chain : F → List F} {s s' : State K F T} {t : T} {p p' : Pc K F}

/-- The frame whose latch the thread has got, and in which mode. -/
def Pc.grips : Pc K F → Option (F × LatchState)
  | .recheck _ _ f (some g) | .undo _ f g | .guard _ f g => some (f, g)
  | .fill _ f _ _ | .inserted _ f | .held f | .remove f => some (f, .exclusive)
  | .latchHome f _ | .seek f _ _ | .matchPid f _ _ _ | .unlink f _ _ _ _ => some (f, .exclusive)
  | .clearPid f _ | .clearNext f _ | .clearState f _ => some (f, .exclusive)
  | .unlatchBucket f _ | .unlatchFrame f => some (f, .exclusive)
  | _ => none

/-- Whoever has a latch is where the code has it. -/
structure Accounted (L : Layout K F) (s : State K F T) : Prop where
  bucket : ∀ b, isLatched (s.version b) = true → ∃ t, (s.pc t).bucketHeld L = some b
  holder : ∀ f t, s.holder f = some t → (s.pc t).grips = some (f, .exclusive)
  readers : ∀ f t, t ∈ s.readers f → (s.pc t).grips = some (f, .shared)

/-! ## Frames that are latched -/

section Frames

variable {f f' : F} {g : LatchState} {t' : T}

theorem holder_of_acquire (h : (s.acquire f t g).holder f' = some t') :
    (t' = t ∧ f' = f ∧ g = .exclusive) ∨ s.holder f' = some t' := by
  cases g with
  | exclusive =>
    by_cases hf : f' = f
    · subst hf
      simp only [State.acquire, State.latchExclusive, Function.update_self] at h
      exact .inl ⟨(Option.some.inj h).symm, rfl, rfl⟩
    · simp only [State.acquire, State.latchExclusive, Function.update_of_ne hf] at h
      exact .inr h
  | shared | optimistic => exact .inr h

theorem readers_of_acquire (h : t' ∈ (s.acquire f t g).readers f') :
    (t' = t ∧ f' = f ∧ g = .shared) ∨ t' ∈ s.readers f' := by
  cases g with
  | shared =>
    by_cases hf : f' = f
    · subst hf
      simp only [State.acquire, State.latchShared, Function.update_self, Finset.mem_insert] at h
      exact h.imp_left fun ht => ⟨ht, rfl, rfl⟩
    · simp only [State.acquire, State.latchShared, Function.update_of_ne hf] at h
      exact .inr h
  | exclusive | optimistic => exact .inr h

theorem holder_of_release (h : (s.release f t g).holder f' = some t') :
    s.holder f' = some t' ∧ ¬ (f' = f ∧ g = .exclusive) := by
  cases g with
  | exclusive =>
    by_cases hf : f' = f
    · subst hf
      simp [State.release, State.unlatchExclusive] at h
    · simp only [State.release, State.unlatchExclusive, Function.update_of_ne hf] at h
      exact ⟨h, fun hff => hf hff.1⟩
  | shared | optimistic => exact ⟨h, by simp⟩

theorem readers_of_release (h : t' ∈ (s.release f t g).readers f') :
    t' ∈ s.readers f' ∧ ¬ (t' = t ∧ f' = f ∧ g = .shared) := by
  cases g with
  | shared =>
    by_cases hf : f' = f
    · subst hf
      simp only [State.release, State.unlatchShared, Function.update_self, Finset.mem_erase] at h
      exact ⟨h.2, fun ht => h.1 ht.1⟩
    · simp only [State.release, State.unlatchShared, Function.update_of_ne hf] at h
      exact ⟨h, fun hff => hf hff.2.1⟩
  | exclusive | optimistic => exact ⟨h, by simp⟩

@[simp] theorem State.acquire_version : (s.acquire f t g).version = s.version := by cases g <;> rfl

@[simp] theorem State.release_version : (s.release f t g).version = s.version := by cases g <;> rfl

end Frames

namespace Accounted

/-! ## What a step can do to the latches -/

omit [DecidableEq F] in
/-- The other threads are where they were, and `t` accounts for what it has. -/
theorem assemble (h : Accounted L s) (hpc : s'.pc = Function.update s.pc t p')
    (hb : ∀ b, isLatched (s'.version b) = true →
      p'.bucketHeld L = some b ∨ ∃ t', t' ≠ t ∧ (s.pc t').bucketHeld L = some b)
    (hh : ∀ f t', s'.holder f = some t' → if t' = t then p'.grips = some (f, .exclusive)
      else s.holder f = some t')
    (hr : ∀ f t', t' ∈ s'.readers f → if t' = t then p'.grips = some (f, .shared)
      else t' ∈ s.readers f) : Accounted L s' := by
  have hself : s'.pc t = p' := by rw [hpc, Function.update_self]
  have hother : ∀ t', t' ≠ t → s'.pc t' = s.pc t' := by
    intro t' ht
    rw [hpc, Function.update_of_ne ht]
  constructor
  case bucket =>
    intro b hlatched
    rcases hb b hlatched with hb | ⟨t', ht, hb⟩
    · exact ⟨t, hself ▸ hb⟩
    · exact ⟨t', (hother t' ht).symm ▸ hb⟩
  case holder =>
    intro f t' hf
    have hf := hh f t' hf
    split at hf
    case isTrue ht =>
      subst ht
      rw [hself, hf]
    case isFalse ht =>
      rw [hother t' ht]
      exact h.holder f t' hf
  case readers =>
    intro f t' hf
    have hf := hr f t' hf
    split at hf
    case isTrue ht =>
      subst ht
      rw [hself, hf]
    case isFalse ht =>
      rw [hother t' ht]
      exact h.readers f t' hf

omit [DecidableEq F] in
/-- No bucket is latched or unlatched. -/
theorem bucket_kept (h : Accounted L s) (hp : s.pc t = p)
    (hb : p'.bucketHeld L = p.bucketHeld L) {b : F} (hlatched : isLatched (s.version b) = true) :
    p'.bucketHeld L = some b ∨ ∃ t', t' ≠ t ∧ (s.pc t').bucketHeld L = some b := by
  obtain ⟨t', ht'⟩ := h.bucket b hlatched
  by_cases ht : t' = t
  · subst ht
    exact .inl (by rw [hb, ← hp, ht'])
  · exact .inr ⟨t', ht, ht'⟩

omit [DecidableEq F] in
/-- No latch is taken or given back. -/
theorem quiet (h : Accounted L s) (hp : s.pc t = p) (hpc : s'.pc = Function.update s.pc t p')
    (hv : s'.version = s.version) (hh : s'.holder = s.holder) (hr : s'.readers = s.readers)
    (hb : p'.bucketHeld L = p.bucketHeld L) (hg : p'.grips = p.grips) : Accounted L s' := by
  apply h.assemble hpc
  · intro b hlatched
    exact h.bucket_kept hp hb (hv ▸ hlatched)
  · intro f t' hf
    rw [hh] at hf
    split
    case isTrue ht => rw [hg, ← hp, ← ht, h.holder f t' hf]
    case isFalse => exact hf
  · intro f t' hf
    rw [hr] at hf
    split
    case isTrue ht => rw [hg, ← hp, ← ht, h.readers f t' hf]
    case isFalse => exact hf

omit [DecidableEq F] [DecidableEq T] in
/-- What a thread has, it is said to have. -/
theorem frames (h : Accounted L s) (hp : s.pc t = p) :
    (∀ f, s.holder f = some t → p.grips = some (f, .exclusive)) ∧
    ∀ f, t ∈ s.readers f → p.grips = some (f, .shared) := by
  subst hp
  exact ⟨fun f => h.holder f t, fun f => h.readers f t⟩

/-- A thread that has no latch of a frame gets one. -/
theorem acquire (h : Accounted L s) (hp : s.pc t = p) {f : F} {g : LatchState}
    (hnone : p.grips = none) (hsome : p'.grips = some (f, g))
    (hb : p'.bucketHeld L = p.bucketHeld L) : Accounted L ((s.acquire f t g).go t p') := by
  obtain ⟨hholder, hreaders⟩ := h.frames hp
  have hpc : ((s.acquire f t g).go t p').pc = Function.update s.pc t p' := by cases g <;> rfl
  apply h.assemble hpc
  · intro b hlatched
    exact h.bucket_kept hp hb (by simpa [State.go] using hlatched)
  · intro f' t' hf
    split
    case isTrue ht =>
      subst ht
      rcases holder_of_acquire hf with ⟨_, rfl, rfl⟩ | hf
      · exact hsome
      · cases hnone.symm.trans (hholder f' hf)
    case isFalse ht => exact (holder_of_acquire hf).resolve_left fun h => ht h.1
  · intro f' t' hf
    split
    case isTrue ht =>
      subst ht
      rcases readers_of_acquire hf with ⟨_, rfl, rfl⟩ | hf
      · exact hsome
      · cases hnone.symm.trans (hreaders f' hf)
    case isFalse ht => exact (readers_of_acquire hf).resolve_left fun h => ht h.1

/-- A thread gives its latch of a frame back. -/
theorem release (h : Accounted L s) (hp : s.pc t = p) {f : F} {g : LatchState}
    (hsome : p.grips = some (f, g)) (hb : p'.bucketHeld L = p.bucketHeld L) :
    Accounted L ((s.release f t g).go t p') := by
  obtain ⟨hholder, hreaders⟩ := h.frames hp
  have hpc : ((s.release f t g).go t p').pc = Function.update s.pc t p' := by cases g <;> rfl
  apply h.assemble hpc
  · intro b hlatched
    exact h.bucket_kept hp hb (by simpa [State.go] using hlatched)
  · intro f' t' (hf : (s.release f t g).holder f' = some t')
    obtain ⟨hold, hne⟩ := holder_of_release hf
    have ht : t' ≠ t := by
      rintro rfl
      obtain ⟨rfl, rfl⟩ := by simpa using hsome.symm.trans (hholder f' hold)
      exact hne ⟨rfl, rfl⟩
    rwa [if_neg ht]
  · intro f' t' (hf : t' ∈ (s.release f t g).readers f')
    obtain ⟨hold, hne⟩ := readers_of_release hf
    have ht : t' ≠ t := by
      rintro rfl
      obtain ⟨rfl, rfl⟩ := by simpa using hsome.symm.trans (hreaders f' hold)
      exact hne ⟨rfl, rfl, rfl⟩
    rwa [if_neg ht]

/-- The frames' latches of a thread that only changes the version of a bucket. -/
theorem bump (h : Accounted L s) (hp : s.pc t = p) {b : F} (hg : p'.grips = p.grips)
    (hb : ∀ b', b' ≠ b ∨ isLatched (s.version b + 0b10) = true → isLatched
      (Function.update s.version b (s.version b + 0b10) b') = true → p'.bucketHeld L = some b' ∨
        ∃ t', t' ≠ t ∧ (s.pc t').bucketHeld L = some b') :
    Accounted L ((s.bump b).go t p') := by
  obtain ⟨hholder, hreaders⟩ := h.frames hp
  apply h.assemble rfl
  · intro b' hlatched
    refine hb b' ?_ hlatched
    by_cases hbb : b' = b
    · subst hbb
      exact .inr (by simpa [State.go, State.bump] using hlatched)
    · exact .inl hbb
  · intro f' t' hf
    split
    case isTrue ht =>
      subst ht
      rw [hg, hholder f' hf]
    case isFalse => exact hf
  · intro f' t' hf
    split
    case isTrue ht =>
      subst ht
      rw [hg, hreaders f' hf]
    case isFalse => exact hf

/-- A bucket is latched. -/
theorem latch (h : Accounted L s) (hp : s.pc t = p) {b : F} (hnone : p.bucketHeld L = none)
    (hsome : p'.bucketHeld L = some b) (hg : p'.grips = p.grips) :
    Accounted L ((s.bump b).go t p') := by
  refine h.bump hp hg fun b' _ hlatched => ?_
  by_cases hbb : b' = b
  · exact .inl (hbb ▸ hsome)
  · rw [Function.update_of_ne hbb] at hlatched
    obtain ⟨t', ht'⟩ := h.bucket b' hlatched
    refine .inr ⟨t', ?_, ht'⟩
    rintro rfl
    rw [hp, hnone] at ht'
    cases ht'

/-- A bucket is unlatched. -/
theorem unlatch (h : Accounted L s) (hp : s.pc t = p) {b : F} (hsome : p.bucketHeld L = some b)
    (hlatched : isLatched (s.version b) = true) (hg : p'.grips = p.grips) :
    Accounted L ((s.bump b).go t p') := by
  refine h.bump hp hg fun b' hne hb' => ?_
  have hbb : b' ≠ b := hne.resolve_right (by simp [isLatched_add_two, hlatched])
  rw [Function.update_of_ne hbb] at hb'
  obtain ⟨t', ht'⟩ := h.bucket b' hb'
  refine .inr ⟨t', ?_, ht'⟩
  rintro rfl
  rw [hp, hsome] at ht'
  exact hbb (Option.some.inj ht').symm

end Accounted

/-! ## Runs -/

theorem Step.accounted (hok : Ok L chain s) (h : Accounted L s) (hstep : Step L t s s') :
    Accounted L s' := by
  have hlatched : ∀ {p b}, s.pc t = p → p.bucketHeld L = some b →
      isLatched (s.version b) = true := by
    rintro p b rfl hb
    exact ((hok.own t).owns hb).2
  cases hstep with
  | start _ hp | readVersion hp | testMore hp | testEnd hp | copy hp | checkOk hp | checkFail hp
  | compareEq hp | compareNe hp | advanceOk hp | advanceFail hp | foundOk hp | foundFail hp
  | accessRetry hp | recheckOk hp | recheckFail hp | absentFail hp | absentOk hp | notFound hp
  | notFoundDone hp | upgradeFail hp | decideInline hp | decideChain hp | takeFail hp | take hp
  | fillState hp | fillPid hp | startInsert _ hp | newInline hp | newChain hp | seekMore hp
  | seekDone hp | seekNext hp | removeHeld hp | removeChained hp | seek hp | matchYes hp
  | matchNo hp | unlink hp | clearNext hp | clearState hp | push _ hp =>
    exact h.quiet hp rfl rfl rfl rfl rfl rfl
  | startRemove hp =>
    rcases hp with hp | hp
    · exact h.quiet hp rfl rfl rfl rfl rfl rfl
    · exact h.quiet hp rfl rfl rfl rfl rfl rfl
  | recheckRetry hp => exact h.quiet hp rfl rfl rfl rfl (by split <;> rfl) (by split <;> rfl)
  | clearPid hp => exact h.quiet hp rfl rfl rfl rfl (by split <;> rfl) (by split <;> rfl)
  | access g hp => exact h.acquire hp rfl rfl rfl
  | latchFrame hp => exact h.acquire (g := .exclusive) hp rfl rfl rfl
  | grab _ hp => exact h.acquire (g := .exclusive) hp rfl rfl rfl
  | undo hp => exact h.release hp rfl (by split <;> rfl)
  | releaseGuard hp => exact h.release hp rfl rfl
  | releaseInserted hp => exact h.release (g := .exclusive) hp rfl rfl
  | drop hp => exact h.release (g := .exclusive) hp rfl rfl
  | unlatchFrame hp =>
    exact h.release (g := .exclusive) hp rfl (by split <;> rfl)
  | upgradeOk hp => exact h.latch hp rfl rfl rfl
  | latchBucket hp => exact h.latch hp rfl rfl rfl
  | removeInline hp => exact h.latch hp rfl rfl rfl
  | latchHome hp => exact h.latch hp rfl rfl rfl
  | giveUp hp => exact h.unlatch hp rfl (hlatched hp rfl) (by split <;> rfl)
  | filled hp => exact h.unlatch hp rfl (hlatched hp rfl) (by split <;> rfl)
  | unlatchBucket hp => exact h.unlatch hp rfl (hlatched hp rfl) rfl

omit [DecidableEq F] [DecidableEq T] in
theorem Init.accounted (h : Init L s) : Accounted L s where
  bucket b hb := by simp [h.buckets b] at hb
  holder f t hf := by simp [(h.latches f).1] at hf
  readers f t hf := by simp [(h.latches f).2] at hf

theorem accounted_of_reachable (hs : (pageTable L).Reachable s) : Accounted L s := by
  refine hs.invariant (P := Accounted L) (fun s h => Init.accounted h) ?_
  rintro s s' hs h ⟨t, hstep⟩
  obtain ⟨chain, hok⟩ := ok_of_reachable hs
  exact hstep.accounted hok h

/-- The thread has no latch of the table but the one of a guard for `k`, if it has such a guard:
every bucket that is latched is latched by another one. -/
structure OnlyGuard (L : Layout K F) (s : State K F T) (t : T) (k : K) : Prop where
  pc : s.pc t = .idle ∨ ∃ f g, s.pc t = .guard k f g
  bucket : ∀ b, isLatched (s.version b) = true →
    ∃ t', t' ≠ t ∧ (s.pc t').bucketHeld L = some b
  holder : ∀ f, s.holder f = some t → s.pc t = .guard k f .exclusive
  readers : ∀ f, t ∈ s.readers f → s.pc t = .guard k f .shared

/-- A lookup that has returned has given its other latches back. -/
theorem onlyGuard (hs : (pageTable L).Reachable s) {k : K}
    (hpc : s.pc t = .idle ∨ ∃ f g, s.pc t = .guard k f g) : OnlyGuard L s t k := by
  have h := accounted_of_reachable hs
  have hnone : (s.pc t).bucketHeld L = none := by
    rcases hpc with hpc | ⟨f, g, hpc⟩
    · rw [hpc]
      rfl
    · rw [hpc]
      rfl
  have hgrips : ∀ f g, (s.pc t).grips = some (f, g) → s.pc t = .guard k f g := by
    intro f g hg
    rcases hpc with hpc | ⟨f', g', hpc⟩
    · rw [hpc] at hg
      cases hg
    · rw [hpc] at hg ⊢
      cases hg
      rfl
  refine ⟨hpc, fun b hb => ?_, fun f hf => hgrips f _ (h.holder f t hf),
    fun f hf => hgrips f _ (h.readers f t hf)⟩
  obtain ⟨t', ht'⟩ := h.bucket b hb
  refine ⟨t', ?_, ht'⟩
  rintro rfl
  cases hnone.symm.trans ht'

end ScaleStore.PageTable
