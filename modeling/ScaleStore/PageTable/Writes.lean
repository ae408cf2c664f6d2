/-
# The writes to the page table

One lemma for each kind of write: what it needs from the thread that does it,
and that the table stays in order.  The other threads are not disturbed: what
they rely on is in buckets that they have latched themselves or that nobody has
latched, or in frames whose latch they have.
-/

import ScaleStore.PageTable.Invariant

namespace ScaleStore.PageTable

variable {K F T : Type} [DecidableEq F] [DecidableEq T] {L : Layout K F}
  {chain chain' : F → List F} {s s' : State K F T} {t : T} {p p' : Pc K F}

/-! ## What the invariant gives at once -/

section Reading

omit [DecidableEq F] [DecidableEq T]

theorem Own.owns (h : Own L chain s t p) {b : F} (hb : p.bucketHeld L = some b) : Owns L s b := by
  cases p <;> simp only [Pc.bucketHeld, reduceCtorEq, Option.some.injEq] at hb <;> subst hb <;>
    simp only [Own] at h <;> tauto

theorem Own.inHand (h : Own L chain s t p) {f : F} (hf : p.hand L = some f) :
    InHand L chain s f := by
  cases p <;> simp only [Pc.hand, reduceCtorEq, Option.ite_none_left_eq_some, Option.some.injEq,
    Bool.not_eq_true] at hf <;> obtain ⟨hchained, rfl⟩ := hf <;>
    simp only [Own, hchained, if_false, Bool.false_eq_true, forall_const] at h <;> tauto

theorem Pc.inserts_of_unwritten {k : K} (h : p.unwritten = some k) : p.inserts = some k := by
  unfold Pc.unwritten at h
  split at h
  · cases h
  · exact h

theorem Pc.calls_of_inserts {k : K} (h : p.inserts = some k) : p.calls = some k := by
  unfold Pc.inserts at h
  split at h <;> first | exact h | cases h

/-- A frame is in one bucket only. -/
theorem Shape.cells_disjoint (h : Shape L chain s) {b b' f : F} (hb : L.isHtBucket b = true)
    (hb' : L.isHtBucket b' = true) (hf : f ∈ cells chain b) (hf' : f ∈ cells chain b') :
    b = b' := by
  rcases List.mem_cons.mp hf with rfl | hf
  · rcases List.mem_cons.mp hf' with rfl | hf'
    · rfl
    · exact absurd (h.chained b' f hf').2 (by simp [hb])
  · rcases List.mem_cons.mp hf' with rfl | hf'
    · exact absurd (h.chained b f hf).2 (by simp [hb'])
    · exact h.disjoint b b' f hf hf'

/-- A frame that is linked is in nobody's hands. -/
theorem InHand.not_linked {f b : F} (h : InHand L chain s f) (hb : L.isHtBucket b = true) :
    f ∉ cells chain b := by
  intro hf
  rcases List.mem_cons.mp hf with rfl | hf
  · simp [h.1] at hb
  · exact h.2.1 b hf

theorem Shape.not_listed (h : Shape L chain s) {f b : F} (hb : L.isHtBucket b = true)
    (hf : f ∈ cells chain b) : f ∉ s.frameFreeList := by
  intro hlist
  obtain ⟨hchained, hchain, _⟩ := h.listed f hlist
  rcases List.mem_cons.mp hf with rfl | hf
  · simp [hb] at hchained
  · exact hchain b hf

/-- A bucket that another thread has latched or that is not latched is not the one `t` has. -/
theorem Ok.other_bucket (h : Ok L chain s) {t' : T} (ht : t' ≠ t) {b b' : F}
    (hb : (s.pc t).bucketHeld L = some b)
    (hb' : (s.pc t').bucketHeld L = some b' ∨ isLatched (s.version b') = false) : b' ≠ b := by
  rintro rfl
  rcases hb' with hb' | hb'
  · exact ht (h.together.bucket_once t' t b' hb' hb)
  · have := ((h.own t).owns hb).2
    simp [hb'] at this

/-- A frame whose latch another thread has is not one that `t` has latched exclusively. -/
theorem Ok.other_frame (h : Ok L chain s) {t' : T} (ht : t' ≠ t) {f g : F}
    (hf : s.holder f = some t) (hg : s.holder g = some t' ∨ t' ∈ s.readers g) : g ≠ f := by
  rintro rfl
  rcases hg with hg | hg
  · exact ht (Option.some.inj (hg.symm.trans hf))
  · simp [h.shape.sole g t hf] at hg

end Reading

/-! ## Putting a step together -/

/-- What a thread may not share with the others when it goes on to `p'`. -/
structure Admits (L : Layout K F) (s : State K F T) (t : T) (p' : Pc K F) : Prop where
  hand : ∀ f, p'.hand L = some f → ∀ t', t' ≠ t → (s.pc t').hand L ≠ some f
  calls : ∀ k, p'.calls = some k → ∀ t', t' ≠ t → (s.pc t').inserts ≠ some k
  inserts : ∀ k, p'.inserts = some k → ∀ t', t' ≠ t → (s.pc t').calls ≠ some k
  unwritten : ∀ k, p'.unwritten = some k → ∀ f, s.pid f ≠ some k

/-- A thread goes on in the same call. -/
structure Continues (L : Layout K F) (p p' : Pc K F) : Prop where
  hand : ∀ f, p'.hand L = some f → p.hand L = some f
  calls : ∀ k, p'.calls = some k → p.calls = some k
  inserts : ∀ k, p'.inserts = some k → p.inserts = some k
  unwritten : ∀ k, p'.unwritten = some k → p.unwritten = some k

omit [DecidableEq F] [DecidableEq T] in
theorem Ok.admits (h : Ok L chain s) (hp : s.pc t = p) (hcont : Continues L p p') :
    Admits L s t p' := by
  subst hp
  refine ⟨?_, ?_, ?_, ?_⟩
  · intro f hf t' ht hf'
    exact ht (h.together.hand_once t' t f hf' (hcont.hand f hf))
  · intro k hk t' ht hk'
    exact h.together.alone t' t k hk' (Ne.symm ht) (hcont.calls k hk)
  · intro k hk t' ht
    exact h.together.alone t t' k (hcont.inserts k hk) ht
  · intro k hk
    exact h.together.unknown t k (hcont.unwritten k hk)

omit [DecidableEq F] in
/-- The invariant after a step of `t`, by what changes. -/
theorem Ok.assemble (h : Ok L chain s) (hpc : s'.pc = Function.update s.pc t p')
    (hadmits : Admits L s t p') (hshape : Shape L chain' s')
    (hothers : ∀ t', t' ≠ t → Undisturbed L chain chain' s s' t' (s.pc t'))
    (hown : Own L chain' s' t p')
    (hbucket : ∀ b, p'.bucketHeld L = some b → ∀ t', t' ≠ t → (s.pc t').bucketHeld L ≠ some b)
    (hmapped : ∀ f k, s'.pid f = some k → f ∈ cells chain' (L.bucket k) ∨
      ∃ t', (s'.pc t').hand L = some f ∧ s'.holder f = some t')
    (hunknown : ∀ t' k, (s'.pc t').unwritten = some k → ∀ f, s'.pid f ≠ some k) :
    Ok L chain' s' := by
  have hself : s'.pc t = p' := by rw [hpc, Function.update_self]
  have hother : ∀ t', t' ≠ t → s'.pc t' = s.pc t' := by
    intro t' ht
    rw [hpc, Function.update_of_ne ht]
  have hpair : ∀ (g : Pc K F → Option F)
      (_ : ∀ a, g p' = some a → ∀ t', t' ≠ t → g (s.pc t') ≠ some a)
      (_ : ∀ t₁ t₂ a, g (s.pc t₁) = some a → g (s.pc t₂) = some a → t₁ = t₂) (t₁ t₂ : T) (a : F),
      g (s'.pc t₁) = some a → g (s'.pc t₂) = some a → t₁ = t₂ := by
    intro g hnew hold t₁ t₂ a h₁ h₂
    by_cases ht₁ : t₁ = t
    · subst ht₁
      by_contra hne
      rw [hself] at h₁
      rw [hother t₂ (Ne.symm hne)] at h₂
      exact hnew a h₁ t₂ (Ne.symm hne) h₂
    · rw [hother t₁ ht₁] at h₁
      by_cases ht₂ : t₂ = t
      · subst ht₂
        rw [hself] at h₂
        exact absurd h₁ (hnew a h₂ t₁ ht₁)
      · rw [hother t₂ ht₂] at h₂
        exact hold t₁ t₂ a h₁ h₂
  refine ⟨hshape, ⟨?_, ?_, hmapped, ?_, hunknown⟩, ?_⟩
  · exact hpair (fun q => q.bucketHeld L) hbucket h.together.bucket_once
  · exact hpair (fun q => q.hand L) hadmits.hand h.together.hand_once
  · intro t₁ t₂ k h₁ hne h₂
    by_cases ht₁ : t₁ = t
    · subst ht₁
      rw [hself] at h₁
      rw [hother t₂ hne] at h₂
      exact hadmits.inserts k h₁ t₂ hne h₂
    · rw [hother t₁ ht₁] at h₁
      by_cases ht₂ : t₂ = t
      · subst ht₂
        rw [hself] at h₂
        exact hadmits.calls k h₂ t₁ ht₁ h₁
      · rw [hother t₂ ht₂] at h₂
        exact h.together.alone t₁ t₂ k h₁ hne h₂
  · intro t'
    by_cases ht : t' = t
    · subst ht
      rw [hself]
      exact hown
    · rw [hother t' ht]
      exact (hothers t' ht).own (h.own t')

omit [DecidableEq F] in
/-- No frame gets a PID: a PID that nobody has written stays unknown. -/
theorem Ok.unknown_of_same (h : Ok L chain s) (hpc : s'.pc = Function.update s.pc t p')
    (hadmits : Admits L s t p') (hpid : ∀ f k, s'.pid f = some k → s.pid f = some k) :
    ∀ t' k, (s'.pc t').unwritten = some k → ∀ f, s'.pid f ≠ some k := by
  intro t' k hk f hf
  rw [hpc] at hk
  by_cases ht : t' = t
  · subst ht
    rw [Function.update_self] at hk
    exact hadmits.unwritten k hk f (hpid f k hf)
  · rw [Function.update_of_ne ht] at hk
    exact h.together.unknown t' k hk f (hpid f k hf)

omit [DecidableEq F] in
/-- Frames with a PID stay linked or in somebody's hands, when none of them is in the hands of
the thread that steps. -/
theorem Ok.mapped_of_same (h : Ok L chain s) (hpc : s'.pc = Function.update s.pc t p')
    (hcells : ∀ f k, s'.pid f = some k → f ∈ cells chain (L.bucket k) →
      f ∈ cells chain' (L.bucket k))
    (hpid : ∀ f k, s'.pid f = some k → s.pid f = some k)
    (hholder : ∀ f t', t' ≠ t → s.holder f = some t' → s'.holder f = some t')
    (hself : ∀ f k, s'.pid f = some k → (s.pc t).hand L ≠ some f) :
    ∀ f k, s'.pid f = some k → f ∈ cells chain' (L.bucket k) ∨
      ∃ t', (s'.pc t').hand L = some f ∧ s'.holder f = some t' := by
  intro f k hk
  rcases h.together.mapped f k (hpid f k hk) with hmem | ⟨t', hhand, hh⟩
  · exact .inl (hcells f k hk hmem)
  · have ht : t' ≠ t := by
      rintro rfl
      exact hself f k hk hhand
    refine .inr ⟨t', ?_, hholder f t' ht hh⟩
    rw [hpc, Function.update_of_ne ht]
    exact hhand

/-! ## Latches -/

/-- A step that changes nothing but latches of frames, and those only for `t`. -/
structure Relatched (s s' : State K F T) (t : T) : Prop where
  pid : s'.pid = s.pid
  next : s'.next = s.next
  free : s'.free = s.free
  version : s'.version = s.version
  frameFreeList : s'.frameFreeList = s.frameFreeList
  holder : ∀ f t', t' ≠ t → s.holder f = some t' → s'.holder f = some t'
  readers : ∀ f t', t' ≠ t → t' ∈ s.readers f → t' ∈ s'.readers f
  sole : ∀ f t', s'.holder f = some t' → s'.readers f = ∅

namespace Relatched

omit [DecidableEq F] in
theorem go (h : Ok L chain s) : Relatched s (s.go t p') t :=
  ⟨rfl, rfl, rfl, rfl, rfl, fun _ _ _ hf => hf, fun _ _ _ hf => hf, h.shape.sole⟩

theorem acquire (h : Ok L chain s) {f : F} {g : LatchState} (hg : s.Grants f g) :
    Relatched s ((s.acquire f t g).go t p') t := by
  cases g with
  | exclusive =>
    refine ⟨rfl, rfl, rfl, rfl, rfl, ?_, fun _ _ _ hf => hf, ?_⟩
    · intro f' t' _ hf
      have hne : f' ≠ f := by
        rintro rfl
        simp [hg.1] at hf
      exact (Function.update_of_ne hne _ _).trans hf
    · intro f' t' hf
      by_cases hff : f' = f
      · exact hff ▸ hg.2
      · exact h.shape.sole f' t' ((Function.update_of_ne hff _ _).symm.trans hf)
  | shared =>
    refine ⟨rfl, rfl, rfl, rfl, rfl, fun _ _ _ hf => hf, ?_, ?_⟩
    · intro f' t' _ hf
      change t' ∈ Function.update s.readers f _ f'
      by_cases hff : f' = f
      · subst hff
        rw [Function.update_self]
        exact Finset.mem_insert_of_mem hf
      · rw [Function.update_of_ne hff]
        exact hf
    · intro f' t' hf
      have hne : f' ≠ f := by
        rintro rfl
        exact absurd (hg.symm.trans hf) (by simp)
      exact (Function.update_of_ne hne _ _).trans (h.shape.sole f' t' hf)
  | optimistic => exact go h

theorem release (h : Ok L chain s) {f : F} {g : LatchState} (hg : Has s t f g) :
    Relatched s ((s.release f t g).go t p') t := by
  cases g with
  | exclusive =>
    refine ⟨rfl, rfl, rfl, rfl, rfl, ?_, fun _ _ _ hf => hf, ?_⟩
    · intro f' t' ht hf
      have hne : f' ≠ f := by
        rintro rfl
        exact ht (Option.some.inj (hf.symm.trans hg))
      exact (Function.update_of_ne hne _ _).trans hf
    · intro f' t' hf
      have hne : f' ≠ f := by
        rintro rfl
        exact absurd ((Function.update_self ..).symm.trans hf) (by simp)
      exact h.shape.sole f' t' ((Function.update_of_ne hne _ _).symm.trans hf)
  | shared =>
    have hreaders : ∀ f' t', t' ≠ t →
        (t' ∈ Function.update s.readers f ((s.readers f).erase t) f' ↔ t' ∈ s.readers f') := by
      intro f' t' ht
      by_cases hff : f' = f
      · subst hff
        rw [Function.update_self, Finset.mem_erase]
        exact and_iff_right ht
      · rw [Function.update_of_ne hff]
    refine ⟨rfl, rfl, rfl, rfl, rfl, fun _ _ _ hf => hf, ?_, ?_⟩
    · exact fun f' t' ht hf => (hreaders f' t' ht).mpr hf
    · intro f' t' hf
      have hempty := h.shape.sole f' t' hf
      change Function.update s.readers f _ f' = ∅
      by_cases hff : f' = f
      · subst hff
        rw [Function.update_self, hempty, Finset.erase_empty]
      · rw [Function.update_of_ne hff]
        exact hempty
  | optimistic => exact go h

end Relatched

omit [DecidableEq F] in
/-- Latching and unlatching a frame, or nothing at all. -/
theorem Ok.relatched (h : Ok L chain s) (hp : s.pc t = p) (hr : Relatched s s' t)
    (hpc : s'.pc = Function.update s.pc t p') (hadmits : Admits L s t p')
    (hbucket : ∀ b, p'.bucketHeld L = some b → p.bucketHeld L = some b)
    (hhand : ∀ f, p.hand L = some f → s.pid f = none) (hown : Own L chain s' t p') :
    Ok L chain s' := by
  subst hp
  have hpid : ∀ f k, s'.pid f = some k → s.pid f = some k := fun f k hk => hr.pid ▸ hk
  refine h.assemble hpc hadmits ?_ ?_ hown ?_ ?_ (h.unknown_of_same hpc hadmits hpid)
  · obtain ⟨h1, h2, h3, h4, h5, h6, h7, h8, -, h10⟩ := h.shape
    rw [← hr.next] at h1
    rw [← hr.pid] at h5 h6
    rw [← hr.frameFreeList, ← hr.pid, ← hr.next] at h7
    rw [← hr.frameFreeList] at h8
    rw [← hr.version, ← hr.free, ← hr.pid] at h10
    exact ⟨h1, h2, h3, h4, h5, h6, h7, h8, hr.sole, h10⟩
  · intro t' ht
    refine ⟨?_, ?_, ?_, fun f => hr.holder f t' ht, fun f => hr.readers f t' ht, ?_, ?_⟩
    · exact fun b => hr.version ▸ Nat.le_refl _
    · exact fun b _ => congrFun hr.version b
    · exact fun b _ _ => ⟨rfl, fun f _ => congrFun hr.pid f, congrFun hr.free b⟩
    · exact fun f _ => ⟨congrFun hr.pid f, fun _ hf => hf⟩
    · intro f _ hf
      exact ⟨⟨hf.1, hf.2.1, hr.frameFreeList ▸ hf.2.2⟩, congrFun hr.pid f, congrFun hr.next f⟩
  · intro b hb t' ht hb'
    exact ht (h.together.bucket_once t' t b hb' (hbucket b hb))
  · refine h.mapped_of_same hpc (fun _ _ _ hf => hf) hpid hr.holder fun f k hk hf => ?_
    cases (hhand f hf).symm.trans (hpid f k hk)

/-- Latching a bucket, which nobody may have latched, and unlatching it, which leaves it tidy. -/
theorem Ok.bump (h : Ok L chain s) (hp : s.pc t = p) {b : F} (hadmits : Admits L s t p')
    (hothers : ∀ t', t' ≠ t → (s.pc t').bucketHeld L ≠ some b)
    (htidy : isLatched (s.version b) = true → Tidy s b)
    (hbucket : ∀ b', p'.bucketHeld L = some b' → b' = b)
    (hhand : ∀ f, p.hand L = some f → s.pid f = none)
    (hown : Own L chain (s.bump b) t p') : Ok L chain ((s.bump b).go t p') := by
  subst hp
  have hversion : ∀ b', b' ≠ b → (s.bump b).version b' = s.version b' :=
    fun b' hb => Function.update_of_ne hb _ _
  have hself : (s.bump b).version b = s.version b + 0b10 := Function.update_self ..
  refine h.assemble rfl hadmits ?_ ?_ ?_ ?_ ?_ (h.unknown_of_same rfl hadmits fun _ _ hk => hk)
  · obtain ⟨h1, h2, h3, h4, h5, h6, h7, h8, h9, h10⟩ := h.shape
    refine ⟨h1, h2, h3, h4, h5, h6, h7, h8, h9, fun b' hb' hlatched => ?_⟩
    by_cases hbb : b' = b
    · subst hbb
      refine htidy ?_
      have hlatched : isLatched ((s.bump b').version b') = false := hlatched
      rw [hself, isLatched_add_two] at hlatched
      simpa using hlatched
    · exact h10 b' hb' ((congrArg isLatched (hversion b' hbb)).symm.trans hlatched)
  · intro t' ht
    refine ⟨?_, ?_, fun b' _ _ => ⟨rfl, fun _ _ => rfl, rfl⟩, fun f hf => hf, fun f hf => hf,
      fun f _ => ⟨rfl, fun _ hf => hf⟩, fun f _ hf => ⟨hf, rfl, rfl⟩⟩
    · intro b'
      by_cases hbb : b' = b
      · subst hbb
        exact hself ▸ Nat.le_add_right _ _
      · exact Nat.le_of_eq (hversion b' hbb).symm
    · intro b' hb'
      refine hversion b' ?_
      rintro rfl
      exact hothers t' ht hb'
  · cases p' <;> exact hown
  · intro b' hb' t' ht
    rw [hbucket b' hb']
    exact hothers t' ht
  · refine h.mapped_of_same rfl (fun _ _ _ hf => hf) (fun _ _ hk => hk) (fun _ _ _ hf => hf) ?_
    intro f k hk hf
    cases (hhand f hf).symm.trans hk

/-! ## Fields -/

/-- A write of `t` to the bucket whose latch it has, to frames whose latch it has, or to the
frame in its hands. -/
structure Within (L : Layout K F) (chain chain' : F → List F) (s s' : State K F T) (t : T) :
    Prop where
  version : s'.version = s.version
  holder : s'.holder = s.holder
  readers : s'.readers = s.readers
  view : ∀ b, L.isHtBucket b = true → (s.pc t).bucketHeld L ≠ some b →
    chain' b = chain b ∧ (∀ f ∈ cells chain b, s'.pid f = s.pid f) ∧ s'.free b = s.free b
  gripped : ∀ f, s.holder f ≠ some t → s'.pid f = s.pid f ∧ ∀ b, f ∈ chain b → f ∈ chain' b
  hand : ∀ f, InHand L chain s f → (s.pc t).hand L ≠ some f → InHand L chain' s' f ∧
    s'.pid f = s.pid f ∧ s'.next f = s.next f

omit [DecidableEq F] [DecidableEq T] in
theorem Ok.undisturbed (h : Ok L chain s) (hw : Within L chain chain' s s' t) {t' : T}
    (ht : t' ≠ t) : Undisturbed L chain chain' s s' t' (s.pc t') := by
  refine ⟨fun b => hw.version ▸ Nat.le_refl _, fun b _ => congrFun hw.version b, ?_,
    fun f hf => hw.holder ▸ hf, fun f hf => hw.readers ▸ hf, ?_, ?_⟩
  · intro b hbucket hb
    refine hw.view b hbucket fun hheld => ?_
    rcases hb with hb | ⟨_, hb⟩
    · exact h.other_bucket ht hheld (.inl hb) rfl
    · exact h.other_bucket ht hheld (.inr hb) rfl
  · intro f hf
    exact hw.gripped f fun hholder => h.other_frame ht hholder hf rfl
  · intro f hf hin
    exact hw.hand f hin fun hf' => ht (h.together.hand_once t' t f hf hf')

omit [DecidableEq F] in
/-- A write of a field, unless it gives a frame a PID. -/
theorem Ok.write (h : Ok L chain s) (hp : s.pc t = p) (hw : Within L chain chain' s s' t)
    (hpc : s'.pc = Function.update s.pc t p') (hadmits : Admits L s t p')
    (hshape : Shape L chain' s') (hown : Own L chain' s' t p')
    (hbucket : ∀ b, p'.bucketHeld L = some b → p.bucketHeld L = some b)
    (hpid : ∀ f k, s'.pid f = some k → s.pid f = some k)
    (hmapped : ∀ f k, s'.pid f = some k → f ∈ cells chain' (L.bucket k) ∨
      ∃ t', (s'.pc t').hand L = some f ∧ s'.holder f = some t') : Ok L chain' s' := by
  subst hp
  refine h.assemble hpc hadmits hshape (fun _ => h.undisturbed hw) hown ?_ hmapped
    (h.unknown_of_same hpc hadmits hpid)
  intro b hb t' ht hb'
  exact ht (h.together.bucket_once t' t b hb' (hbucket b hb))

/-- `state` of the inline frame of the latched bucket, or of any other frame. -/
theorem Ok.setFree (h : Ok L chain s) (hp : s.pc t = p) {f : F} {x : Bool}
    (hf : L.isHtBucket f = true → p.bucketHeld L = some f)
    (hadmits : Admits L s t p')
    (hbucket : ∀ b, p'.bucketHeld L = some b → p.bucketHeld L = some b)
    (hhand : ∀ f, p.hand L = some f → s.pid f = none)
    (hown : Own L chain (s.setFree f x) t p') : Ok L chain ((s.setFree f x).go t p') := by
  have hfree : ∀ b, b ≠ f → (s.setFree f x).free b = s.free b :=
    fun b hb => Function.update_of_ne hb _ _
  have hlatched : L.isHtBucket f = true → isLatched (s.version f) = true := by
    intro hht
    exact ((h.own t).owns (hp ▸ hf hht)).2
  refine h.write hp ⟨rfl, rfl, rfl, ?_, fun f _ => ⟨rfl, fun _ hf => hf⟩,
    fun f hf _ => ⟨hf, rfl, rfl⟩⟩ rfl hadmits ?_ ?_ hbucket (fun _ _ hk => hk) ?_
  · intro b hht hb
    refine ⟨rfl, fun _ _ => rfl, hfree b ?_⟩
    rintro rfl
    exact hb (hp ▸ hf hht)
  · obtain ⟨h1, h2, h3, h4, h5, h6, h7, h8, h9, h10⟩ := h.shape
    refine ⟨h1, h2, h3, h4, h5, h6, h7, h8, h9, fun b hht hversion => ?_⟩
    have hne : b ≠ f := by
      rintro rfl
      exact absurd ((hlatched hht).symm.trans hversion) (by simp)
    exact (iff_of_eq (congrArg (· = true) (hfree b hne))).trans (h10 b hht hversion)
  · cases p' <;> exact hown
  · subst hp
    refine h.mapped_of_same rfl (fun _ _ _ hf => hf) (fun _ _ hk => hk) (fun _ _ _ hf => hf) ?_
    intro f k hk hf
    cases (hhand f hf).symm.trans hk

/-- `pid` of a frame that is linked and latched, in a bucket without that PID. -/
theorem Ok.setPid (h : Ok L chain s) (hp : s.pc t = p) {f : F} {k : K}
    (hb : p.bucketHeld L = some (L.bucket k)) (hholder : s.holder f = some t)
    (hmem : f ∈ cells chain (L.bucket k)) (habsent : ∀ g ∈ cells chain (L.bucket k),
      s.pid g ≠ some k) (hcalls : p.calls = some k) (hhand : p.hand L = none)
    (hadmits : Admits L s t p') (hwritten : p'.unwritten = none)
    (hbucket : ∀ b, p'.bucketHeld L = some b → p.bucketHeld L = some b)
    (hown : Own L chain (s.setPid f (some k)) t p') :
    Ok L chain ((s.setPid f (some k)).go t p') := by
  subst hp
  have hbht := L.isHtBucket_bucket k
  have hself : (s.setPid f (some k)).pid f = some k := Function.update_self ..
  have hother : ∀ g, g ≠ f → (s.setPid f (some k)).pid g = s.pid g :=
    fun g hg => Function.update_of_ne hg _ _
  have hlatched := ((h.own t).owns hb).2
  -- the frame is in no other bucket
  have hbuckets : ∀ b, L.isHtBucket b = true → f ∈ cells chain b → b = L.bucket k :=
    fun b hht hf => h.shape.cells_disjoint hht hbht hf hmem
  have hw : Within L chain chain s ((s.setPid f (some k)).go t p') t := by
    refine ⟨rfl, rfl, rfl, ?_, ?_, ?_⟩
    · intro b hht hne
      refine ⟨rfl, fun g hg => hother g ?_, rfl⟩
      rintro rfl
      exact hne (hbuckets b hht hg ▸ hb)
    · intro g hg
      refine ⟨hother g ?_, fun _ hf => hf⟩
      rintro rfl
      exact hg hholder
    · intro g hg _
      refine ⟨hg, hother g ?_, rfl⟩
      rintro rfl
      exact hg.not_linked hbht hmem
  have hshape : Shape L chain ((s.setPid f (some k)).go t p') := by
    obtain ⟨h1, h2, h3, h4, h5, h6, h7, h8, h9, h10⟩ := h.shape
    refine ⟨h1, h2, h3, h4, ?_, ?_, ?_, h8, h9, ?_⟩
    · intro b g k' hht hg hk'
      by_cases hgf : g = f
      · subst hgf
        obtain rfl := Option.some.inj (hself.symm.trans hk')
        exact (hbuckets b hht hg).symm
      · exact h5 b g k' hht hg ((hother g hgf).symm.trans hk')
    · intro k' g₁ g₂ hg₁ hg₂ hk₁ hk₂
      by_cases hf₁ : g₁ = f
      · subst hf₁
        obtain rfl := Option.some.inj (hself.symm.trans hk₁)
        by_contra hne
        exact habsent g₂ hg₂ ((hother g₂ (Ne.symm hne)).symm.trans hk₂)
      · by_cases hf₂ : g₂ = f
        · subst hf₂
          obtain rfl := Option.some.inj (hself.symm.trans hk₂)
          exact absurd ((hother g₁ hf₁).symm.trans hk₁) (habsent g₁ hg₁)
        · exact h6 k' g₁ g₂ hg₁ hg₂ ((hother g₁ hf₁).symm.trans hk₁)
            ((hother g₂ hf₂).symm.trans hk₂)
    · intro g hg
      have hne : g ≠ f := by
        rintro rfl
        exact h.shape.not_listed hbht hmem hg
      obtain ⟨hg1, hg2, hg3, hg4⟩ := h7 g hg
      exact ⟨hg1, hg2, (hother g hne).trans hg3, hg4⟩
    · intro b hht hversion
      have hne : b ≠ f := by
        rintro rfl
        obtain rfl := hbuckets b hht List.mem_cons_self
        exact absurd (hlatched.symm.trans hversion) (by simp)
      exact (h10 b hht hversion).trans (iff_of_eq (congrArg (· = none) (hother b hne).symm))
  refine h.assemble rfl hadmits hshape (fun _ => h.undisturbed hw) ?_ ?_ ?_ ?_
  · cases p' <;> exact hown
  · intro b hb' t' ht hb''
    exact ht (h.together.bucket_once t' t b hb'' (hbucket b hb'))
  · intro g k' hg
    by_cases hgf : g = f
    · subst hgf
      obtain rfl := Option.some.inj (hself.symm.trans hg)
      exact .inl hmem
    · rcases h.together.mapped g k' ((hother g hgf).symm.trans hg) with hin | ⟨t', hhand', hh⟩
      · exact .inl hin
      · refine .inr ⟨t', ?_, hh⟩
        have ht : t' ≠ t := by
          rintro rfl
          cases hhand.symm.trans hhand'
        exact (congrArg (Pc.hand L) (Function.update_of_ne ht _ _)).trans hhand'
  · intro t' k' hk' g hg
    by_cases ht : t' = t
    · subst ht
      have hself' : ((s.setPid f (some k)).go t' p').pc t' = p' := Function.update_self ..
      rw [hself', hwritten] at hk'
      cases hk'
    · have hpc : ((s.setPid f (some k)).go t p').pc t' = s.pc t' := Function.update_of_ne ht _ _
      rw [hpc] at hk'
      by_cases hgf : g = f
      · -- the thread would be inserting the PID that `t` calls for
        subst hgf
        obtain rfl := Option.some.inj (hself.symm.trans hg)
        exact h.together.alone t' t k (Pc.inserts_of_unwritten hk') (Ne.symm ht) hcalls
      · exact h.together.unknown t' k' hk' g ((hother g hgf).symm.trans hg)

/-- `pid` of a frame that is being reset. -/
theorem Ok.resetPid (h : Ok L chain s) (hp : s.pc t = p) {f b : F} (hholder : s.holder f = some t)
    (hb : p.bucketHeld L = some b)
    (hplace : (L.isHtBucket f = true ∧ f = b) ∨ (InHand L chain s f ∧ p.hand L = some f))
    (honly : ∀ g, p.hand L = some g → g = f) (hadmits : Admits L s t p')
    (hbucket : ∀ b, p'.bucketHeld L = some b → p.bucketHeld L = some b)
    (hown : Own L chain (s.setPid f none) t p') : Ok L chain ((s.setPid f none).go t p') := by
  have hself : (s.setPid f none).pid f = none := Function.update_self ..
  have hother : ∀ g, g ≠ f → (s.setPid f none).pid g = s.pid g :=
    fun g hg => Function.update_of_ne hg _ _
  have hpid : ∀ g k, (s.setPid f none).pid g = some k → s.pid g = some k := by
    intro g k hk
    by_cases hgf : g = f
    · subst hgf
      cases hself.symm.trans hk
    · exact (hother g hgf).symm.trans hk
  have hlatched := ((h.own t).owns (hp ▸ hb)).2
  have hw : Within L chain chain s ((s.setPid f none).go t p') t := by
    refine ⟨rfl, rfl, rfl, ?_, ?_, ?_⟩
    · intro b' hht hne
      refine ⟨rfl, fun g hg => hother g ?_, rfl⟩
      rintro rfl
      rcases hplace with ⟨hht', rfl⟩ | ⟨hhand, _⟩
      · have := h.shape.cells_disjoint hht hht' hg List.mem_cons_self
        exact hne (this ▸ hp ▸ hb)
      · exact hhand.not_linked hht hg
    · intro g hg
      refine ⟨hother g ?_, fun _ hf => hf⟩
      rintro rfl
      exact hg hholder
    · intro g hg hne
      refine ⟨hg, hother g ?_, rfl⟩
      rintro rfl
      rcases hplace with ⟨hht, _⟩ | ⟨_, hhand⟩
      · exact absurd (hg.1.symm.trans hht) (by simp)
      · exact hne (hp ▸ hhand)
  refine h.write hp hw rfl hadmits ?_ ?_ hbucket hpid ?_
  · obtain ⟨h1, h2, h3, h4, h5, h6, h7, h8, h9, h10⟩ := h.shape
    refine ⟨h1, h2, h3, h4, fun b' g k hht hg hk => h5 b' g k hht hg (hpid g k hk),
      fun k g₁ g₂ hg₁ hg₂ hk₁ hk₂ => h6 k g₁ g₂ hg₁ hg₂ (hpid _ _ hk₁) (hpid _ _ hk₂), ?_, h8, h9,
      ?_⟩
    · intro g hg
      obtain ⟨hg1, hg2, hg3, hg4⟩ := h7 g hg
      refine ⟨hg1, hg2, ?_, hg4⟩
      by_cases hgf : g = f
      · exact hgf ▸ hself
      · exact (hother g hgf).trans hg3
    · intro b' hht hversion
      have hne : b' ≠ f := by
        rintro rfl
        rcases hplace with ⟨_, rfl⟩ | ⟨hhand, _⟩
        · exact absurd (hlatched.symm.trans hversion) (by simp)
        · exact absurd (hhand.1.symm.trans hht) (by simp)
      exact (h10 b' hht hversion).trans (iff_of_eq (congrArg (· = none) (hother b' hne).symm))
  · cases p' <;> exact hown
  · subst hp
    refine h.mapped_of_same rfl (fun _ _ _ hf => hf) hpid (fun _ _ _ hf => hf) fun g k hk hg => ?_
    obtain rfl := honly g hg
    cases hself.symm.trans hk

/-- `next` of the frame in the hands of the thread. -/
theorem Ok.resetNext (h : Ok L chain s) (hp : s.pc t = p) {f : F} (hhand : InHand L chain s f)
    (hf : p.hand L = some f) (hnone : s.pid f = none) (hadmits : Admits L s t p')
    (hbucket : ∀ b, p'.bucketHeld L = some b → p.bucketHeld L = some b)
    (hown : Own L chain (s.setNext f none) t p') : Ok L chain ((s.setNext f none).go t p') := by
  have hother : ∀ g, g ≠ f → (s.setNext f none).next g = s.next g :=
    fun g hg => Function.update_of_ne hg _ _
  refine h.write hp ⟨rfl, rfl, rfl, fun _ _ _ => ⟨rfl, fun _ _ => rfl, rfl⟩,
    fun _ _ => ⟨rfl, fun _ hf => hf⟩, ?_⟩ rfl hadmits ?_ ?_ hbucket (fun _ _ hk => hk) ?_
  · intro g hg hne
    refine ⟨hg, rfl, hother g ?_⟩
    rintro rfl
    exact hne (hp ▸ hf)
  · obtain ⟨h1, h2, h3, h4, h5, h6, h7, h8, h9, h10⟩ := h.shape
    refine ⟨fun b hht => ?_, h2, h3, h4, h5, h6, fun g hg => ?_, h8, h9, h10⟩
    · exact (Chain.update_iff (hhand.not_linked hht)).mpr (h1 b hht)
    · obtain ⟨hg1, hg2, hg3, hg4⟩ := h7 g hg
      refine ⟨hg1, hg2, hg3, (hother g ?_).trans hg4⟩
      rintro rfl
      exact hhand.2.2 hg
  · cases p' <;> exact hown
  · subst hp
    refine h.mapped_of_same rfl (fun _ _ _ hf => hf) (fun _ _ hk => hk) (fun _ _ _ hf => hf) ?_
    intro g k hk hg
    obtain rfl := Option.some.inj (hf.symm.trans hg)
    cases hnone.symm.trans hk

omit [DecidableEq F] in
/-- The frame goes back to the free list, or is lost. -/
theorem Ok.push (h : Ok L chain s) {f : F} (hp : s.pc t = .push f) (pushed : Bool) :
    Ok L chain ({ s with
      frameFreeList := if pushed then f :: s.frameFreeList else s.frameFreeList }.go t .idle) := by
  obtain ⟨hhand, hpid, hnext⟩ : InHand L chain s f ∧ s.pid f = none ∧ s.next f = none :=
    (hp ▸ h.own t : Own L chain s t (.push f))
  have hf : (s.pc t).hand L = some f := by simp [hp, Pc.hand, hhand.1]
  have hlist : ∀ g, g ∈ (if pushed then f :: s.frameFreeList else s.frameFreeList) →
      g = f ∨ g ∈ s.frameFreeList := by
    intro g hg
    cases pushed with
    | true => exact List.mem_cons.mp hg
    | false => exact .inr hg
  have hadmits : Admits L s t .idle := by
    constructor <;> simp [Pc.hand, Pc.calls, Pc.inserts, Pc.unwritten]
  refine h.write hp ⟨rfl, rfl, rfl, fun _ _ _ => ⟨rfl, fun _ _ => rfl, rfl⟩,
    fun _ _ => ⟨rfl, fun _ hf => hf⟩, ?_⟩ rfl hadmits ?_ trivial ?_ (fun _ _ hk => hk) ?_
  · intro g hg hne
    refine ⟨⟨hg.1, hg.2.1, fun hin => ?_⟩, rfl, rfl⟩
    rcases hlist g hin with rfl | hin
    · exact hne hf
    · exact hg.2.2 hin
  · obtain ⟨h1, h2, h3, h4, h5, h6, h7, h8, h9, h10⟩ := h.shape
    refine ⟨h1, h2, h3, h4, h5, h6, fun g hg => ?_, ?_, h9, h10⟩
    · rcases hlist g hg with rfl | hg
      · exact ⟨hhand.1, hhand.2.1, hpid, hnext⟩
      · exact h7 g hg
    · cases pushed with
      | true => exact List.nodup_cons.mpr ⟨hhand.2.2, h8⟩
      | false => exact h8
  · simp [Pc.bucketHeld]
  · refine h.mapped_of_same rfl (fun _ _ _ hf => hf) (fun _ _ hk => hk) (fun _ _ _ hf => hf) ?_
    intro g k hk hg
    obtain rfl := Option.some.inj (hf.symm.trans hg)
    cases hpid.symm.trans hk

end ScaleStore.PageTable
