/-
# Every step keeps the page table in order

The lookups first, then the two insertions and `removeFrame`, and the run lemma at
the end.
-/

import ScaleStore.PageTable.Links

namespace ScaleStore.PageTable

variable {K F T : Type} [DecidableEq F] [DecidableEq T] {L : Layout K F}
  {chain : F → List F} {s s' : State K F T} {t : T} {p p' : Pc K F}

/-! ## Where a thread goes on -/

@[simp] theorem State.acquire_pc (s : State K F T) (f : F) (g : LatchState) :
    (s.acquire f t g).pc = s.pc := by
  cases g <;> rfl

@[simp] theorem State.release_pc (s : State K F T) (f : F) (g : LatchState) :
    (s.release f t g).pc = s.pc := by
  cases g <;> rfl

omit [DecidableEq F] [DecidableEq T] in
theorem Watch.mono {k : K} {v : Nat} {Q Q' : Prop} (h : Watch L s k v Q) (hq : Q → Q') :
    Watch L s k v Q' :=
  ⟨h.1, h.2.1, fun hv => hq (h.2.2 hv)⟩

/-- A thread goes on in the same call, with the buckets it had and nothing in its hands. -/
structure Moves (L : Layout K F) (p p' : Pc K F) : Prop where
  hand : p'.hand L = none
  calls : ∀ k, p'.calls = some k → p.calls = some k
  inserts : ∀ k, p'.inserts = some k → p.inserts = some k
  unwritten : ∀ k, p'.unwritten = some k → p.unwritten = some k
  bucket : ∀ b, p'.bucketHeld L = some b → p.bucketHeld L = some b
  empty : p.hand L = none

omit [DecidableEq F] [DecidableEq T] in
theorem Moves.continues (h : Moves L p p') : Continues L p p' :=
  ⟨by simp [h.hand], h.calls, h.inserts, h.unwritten⟩

omit [DecidableEq F] in
theorem Ok.goto (h : Ok L chain s) (hp : s.pc t = p) (hm : Moves L p p')
    (hown : Own L chain s t p') : ∃ chain', Ok L chain' (s.go t p') := by
  refine ⟨chain, h.relatched hp (.go h) rfl (h.admits hp hm.continues) hm.bucket ?_ ?_⟩
  · intro f hf
    cases hm.empty.symm.trans hf
  · cases p' <;> exact hown

omit [DecidableEq F] in
/-- A call begins. -/
theorem Ok.start (h : Ok L chain s) (hp : s.pc t = .idle) (hadmits : Admits L s t p')
    (hbucket : p'.bucketHeld L = none) (hown : Own L chain s t p') :
    ∃ chain', Ok L chain' (s.go t p') := by
  refine ⟨chain, h.relatched hp (.go h) rfl hadmits ?_ ?_ ?_⟩
  · simp [hbucket]
  · simp [Pc.hand]
  · cases p' <;> exact hown

omit [DecidableEq F] [DecidableEq T] in
/-- Nobody has latched a bucket whose version says so. -/
theorem Ok.not_held (h : Ok L chain s) {b : F} (hb : isLatched (s.version b) = false) (t' : T) :
    (s.pc t').bucketHeld L ≠ some b := by
  intro hheld
  exact absurd (((h.own t').owns hheld).2.symm.trans hb) (by simp)

/-- A bucket is latched. -/
theorem Ok.latch (h : Ok L chain s) (hp : s.pc t = p) {b : F} (hht : L.isHtBucket b = true)
    (hb : isLatched (s.version b) = false) (hcont : Continues L p p')
    (hbucket : p'.bucketHeld L = some b) (hhand : p.hand L = none)
    (hown : Owns L (s.bump b) b → Tidy s b → Own L chain (s.bump b) t p') :
    ∃ chain', Ok L chain' ((s.bump b).go t p') := by
  refine ⟨chain, h.bump hp (h.admits hp hcont) (fun t' _ => h.not_held hb t') ?_ ?_ ?_ ?_⟩
  · simp [hb]
  · intro b' hb'
    exact Option.some.inj (hb'.symm.trans hbucket)
  · simp [hhand]
  · refine hown ⟨hht, ?_⟩ (h.shape.tidy b hht hb)
    have hself : (s.bump b).version b = s.version b + 0b10 := Function.update_self ..
    rw [hself, isLatched_add_two, hb]
    rfl

/-- A bucket is unlatched. -/
theorem Ok.unlatch (h : Ok L chain s) (hp : s.pc t = p) {b : F} (hb : p.bucketHeld L = some b)
    (htidy : Tidy s b) (hcont : Continues L p p') (hbucket : p'.bucketHeld L = none)
    (hhand : ∀ f, p.hand L = some f → s.pid f = none) (hown : Own L chain (s.bump b) t p') :
    ∃ chain', Ok L chain' ((s.bump b).go t p') := by
  refine ⟨chain, h.bump hp (h.admits hp hcont) ?_ (fun _ => htidy) ?_ hhand hown⟩
  · intro t' ht hb'
    exact ht (h.together.bucket_once t' t b hb' (hp ▸ hb))
  · simp [hbucket]

/-- A guard gives its latch back. -/
theorem Ok.releaseStep (h : Ok L chain s) (hp : s.pc t = p) {f : F} {g : LatchState}
    (hg : Has s t f g) (hcont : Continues L p p') (hbucket : p'.bucketHeld L = none)
    (hhand : p.hand L = none) (hown : ∀ s', Own L chain s' t p') :
    ∃ chain', Ok L chain' ((s.release f t g).go t p') := by
  refine ⟨chain, h.relatched hp (.release h hg) (by simp [State.go]) (h.admits hp hcont) ?_ ?_
    (hown _)⟩
  · simp [hbucket]
  · simp [hhand]

/-! ## Lookups -/

attribute [local simp] Pc.bucketHeld Pc.calls Pc.inserts Pc.unwritten Pc.hand

theorem Ok.accessStep (h : Ok L chain s) {c : Call K} {v : Nat} {f : F} {g : LatchState}
    (hp : s.pc t = .access c v f) (hg : s.Grants f g) :
    ∃ chain', Ok L chain' ((s.acquire f t g).go t (.recheck c v f (some g))) := by
  have hown : Own L chain s t (.access c v f) := hp ▸ h.own t
  have hcont : Continues L (.access c v f) (.recheck c v f (some g)) := by
    constructor <;> simp
  refine ⟨chain, h.relatched hp (.acquire h hg) (by simp [State.go]) (h.admits hp hcont) ?_ ?_ ?_⟩
  · simp
  · simp
  · cases g with
    | exclusive => exact ⟨hown, Function.update_self ..⟩
    | shared =>
      refine ⟨hown, ?_⟩
      have hself : (s.latchShared f t).readers f = insert t (s.readers f) :=
        Function.update_self ..
      exact (hself ▸ Finset.mem_insert_self ..: t ∈ (s.latchShared f t).readers f)
    | optimistic => exact ⟨hown, trivial⟩

omit [DecidableEq F] [DecidableEq T] in
/-- What the pointer of a walk contains, as long as the version is the current one. -/
theorem Ok.watchDeref (h : Ok L chain s) {k : K} {v : Nat} {slot : Option F}
    (hw : Watch L s k v (∃ suf, Before (cells chain (L.bucket k)) s.pid k slot suf)) :
    Watch L s k v (∃ suf, s.deref L k slot = suf.head? ∧
      Before (cells chain (L.bucket k)) s.pid k slot suf) :=
  hw.mono fun ⟨suf, hb⟩ => ⟨suf, h.shape.deref_eq hb, hb⟩

/-! ## Insertions -/

theorem Ok.takeStep (h : Ok L chain s) {og : Origin K} {slot f : F} (hp : s.pc t = .take og slot)
    (hf : f ∈ s.frameFreeList) :
    Ok L (Function.update chain (L.bucket og.pid) (chain (L.bucket og.pid) ++ [f]))
      (({ s with frameFreeList := s.frameFreeList.erase f }.setNext slot (some f)).go t
        (.latchFrame og f)) := by
  have hself := h.own t
  rw [hp] at hself
  obtain ⟨hown, htidy, pre, hl, hslot, habsent⟩ := hself
  obtain ⟨pre, rfl⟩ : ∃ pre', pre = pre' ++ [slot] := by
    rcases List.eq_nil_or_concat pre with rfl | ⟨pre', x, rfl⟩
    · cases hslot
    · obtain rfl : slot = x := by simpa using hslot
      exact ⟨pre', by simp⟩
  rw [List.append_nil] at hl
  have hcont : Continues L (.take og slot) (.latchFrame og f) := by
    cases og <;> constructor <;> simp
  refine h.link hp hown.1 rfl hl hf rfl (h.admits hp hcont) (by simp) ⟨hown, htidy, ?_, ?_, ?_⟩
  · rw [cells, Function.update_self]
    simp
  · exact (h.shape.listed f hf).2.2.1
  · intro g hg
    rw [cells, Function.update_self, ← List.cons_append] at hg
    rcases List.mem_append.mp hg with hg | hg
    · exact habsent g (hl ▸ hg)
    · rw [List.mem_singleton.mp hg]
      intro hk
      cases (h.shape.listed f hf).2.2.1.symm.trans hk

theorem Ok.giveUpStep (h : Ok L chain s) {og : Origin K} : s.pc t = .giveUp og →
    ∃ chain', Ok L chain' ((s.bump (L.bucket og.pid)).go t
      (match og with | .find c => .restart c | .insertFrame k => .latchBucket k)) := by
  intro hp
  have hself := h.own t
  rw [hp] at hself
  refine h.unlatch hp rfl hself.2 ?_ ?_ (by simp) ?_
  · cases og <;> constructor <;> simp [Origin.pid]
  · cases og <;> rfl
  · cases og <;> trivial

theorem Ok.latchFrameStep (h : Ok L chain s) {og : Origin K} {f : F}
    (hp : s.pc t = .latchFrame og f) (hf : s.Unlatched f) :
    ∃ chain', Ok L chain' ((s.latchExclusive f t).go t (.fill og f false false)) := by
  have hself := h.own t
  rw [hp] at hself
  obtain ⟨hown, htidy, hmem, hnone, habsent⟩ := hself
  have hcont : Continues L (.latchFrame og f) (.fill og f false false) := by
    cases og <;> constructor <;> simp
  refine ⟨chain, h.relatched hp (.acquire h (g := .exclusive) hf) rfl (h.admits hp hcont)
    (by simp) (by simp) ⟨hown, ?_, fun _ => htidy, hmem, Function.update_self .., hnone, habsent⟩⟩
  rintro rfl
  exact htidy.mpr hnone

omit [DecidableEq F] [DecidableEq T] in
/-- The frame that is being filled is the inline one or is not an inline one at all. -/
theorem Shape.inline_iff {b f : F} (h : Shape L chain s) (hf : f ∈ cells chain b) :
    L.isHtBucket f = true → f = b := by
  intro hht
  rcases List.mem_cons.mp hf with rfl | hf
  · rfl
  · exact absurd ((h.chained b f hf).2.symm.trans hht) (by simp)

theorem Ok.fillStateStep (h : Ok L chain s) {og : Origin K} {f : F} {written : Bool}
    (hp : s.pc t = .fill og f false written) :
    ∃ chain', Ok L chain' ((s.setFree f false).go t (.fill og f true written)) := by
  have hself := h.own t
  rw [hp] at hself
  obtain ⟨hown, hfree, htidy, hmem, hholder, hwritten⟩ := hself
  have hcont : Continues L (.fill og f false written) (.fill og f true written) := by
    cases og <;> cases written <;> constructor <;> simp
  refine ⟨chain, h.setFree hp ?_ (h.admits hp hcont) (by simp) (by simp)
    ⟨hown, fun _ => Function.update_self .., fun hne => ?_, hmem, hholder, hwritten⟩⟩
  · intro hht
    rw [h.shape.inline_iff hmem hht]
    rfl
  · have hsame : (s.setFree f false).free (L.bucket og.pid) = s.free (L.bucket og.pid) :=
      Function.update_of_ne (Ne.symm hne) _ _
    rw [Tidy, hsame]
    exact htidy hne

theorem Ok.fillPidStep (h : Ok L chain s) {og : Origin K} {f : F} {st : Bool}
    (hp : s.pc t = .fill og f st false) :
    ∃ chain', Ok L chain' ((s.setPid f (some og.pid)).go t (.fill og f st true)) := by
  have hself := h.own t
  rw [hp] at hself
  obtain ⟨hown, hfree, htidy, hmem, hholder, hnone, habsent⟩ := hself
  have hcont : Continues L (.fill og f st false) (.fill og f st true) := by
    cases og <;> constructor <;> simp
  refine ⟨chain, h.setPid hp rfl hholder hmem habsent rfl rfl (h.admits hp hcont) rfl (by simp)
    ⟨hown, hfree, fun hne => ?_, hmem, hholder, Function.update_self ..⟩⟩
  have hsame : (s.setPid f (some og.pid)).pid (L.bucket og.pid) = s.pid (L.bucket og.pid) :=
    Function.update_of_ne (Ne.symm hne) _ _
  rw [Tidy, hsame]
  exact htidy hne

theorem Ok.filledStep (h : Ok L chain s) {og : Origin K} {f : F} :
    s.pc t = .fill og f true true → ∃ chain', Ok L chain' ((s.bump (L.bucket og.pid)).go t
      (match og with
        | .find c => .guard c.pid f .exclusive
        | .insertFrame k => .inserted k f)) := by
  intro hp
  have hself := h.own t
  rw [hp] at hself
  obtain ⟨hown, hfree, htidy, hmem, hholder, hpid⟩ := hself
  refine h.unlatch hp rfl ?_ ?_ ?_ (by simp) ?_
  · by_cases hf : f = L.bucket og.pid
    · rw [Tidy, ← hf, hfree hf, hpid]
      simp
    · exact htidy hf
  · cases og <;> constructor <;> simp
  · cases og <;> rfl
  · cases og with
    | find c => exact ⟨hholder, fun _ => ⟨hmem, hpid⟩⟩
    | insertFrame k => exact ⟨hholder, hmem, hpid⟩

/-! ## Guards and removals -/

theorem Ok.grabStep (h : Ok L chain s) {f : F} (hp : s.pc t = .idle) (hf : s.Unlatched f) :
    ∃ chain', Ok L chain' ((s.latchExclusive f t).go t (.held f)) := by
  have hcont : Continues L (.idle : Pc K F) (.held f) := by constructor <;> simp
  exact ⟨chain, h.relatched hp (.acquire h (g := .exclusive) hf) rfl (h.admits hp hcont) (by simp)
    (by simp) (Function.update_self ..)⟩

omit [DecidableEq F] in
/-- The frame that `removeFrame` is called with is linked. -/
theorem Ok.startRemoveStep (h : Ok L chain s) {k : K} {f : F}
    (hp : s.pc t = .guard k f .exclusive ∨ s.pc t = .inserted k f) :
    ∃ chain', Ok L chain' (s.go t (.remove f)) := by
  have hself := h.own t
  rcases hp with hp | hp <;> rw [hp] at hself
  · exact h.goto hp (by constructor <;> simp) ⟨hself.1, k, hself.2 (by simp)⟩
  · exact h.goto hp (by constructor <;> simp) ⟨hself.1, k, hself.2⟩

omit [DecidableEq F] in
theorem Ok.removeHeldStep (h : Ok L chain s) {f : F} (hp : s.pc t = .held f)
    (hpid : s.pid f ≠ none) : ∃ chain', Ok L chain' (s.go t (.remove f)) := by
  have hself := h.own t
  rw [hp] at hself
  obtain ⟨k, hk⟩ := Option.ne_none_iff_exists'.mp hpid
  refine h.goto hp (by constructor <;> simp) ⟨hself, k, ?_, hk⟩
  rcases h.together.mapped f k hk with hmem | ⟨t', hhand, hholder⟩
  · exact hmem
  · -- it would be in the hands of this thread
    obtain rfl : t = t' := Option.some.inj (Eq.trans (Eq.symm hself) hholder)
    rw [hp] at hhand
    cases hhand

theorem Ok.removeInlineStep (h : Ok L chain s) {f : F} (hp : s.pc t = .remove f)
    (hht : L.isHtBucket f = true) (hv : isLatched (s.version f) = false) :
    ∃ chain', Ok L chain' ((s.bump f).go t (.clearPid f f)) := by
  have hself := h.own t
  rw [hp] at hself
  obtain ⟨hholder, k, hmem, hk⟩ := hself
  refine h.latch hp hht hv (by constructor <;> simp [hht]) rfl rfl fun hown _ =>
    ⟨hholder, hown, ⟨k, hk, (h.shape.inline_iff hmem hht).symm⟩, ?_⟩
  rw [if_pos hht]

omit [DecidableEq F] in
theorem Ok.removeChainedStep (h : Ok L chain s) {f : F} {k : K} (hp : s.pc t = .remove f)
    (hht : L.isHtBucket f = false) (hk : s.pid f = some k) :
    ∃ chain', Ok L chain' (s.go t (.latchHome f (L.bucket k))) := by
  have hself := h.own t
  rw [hp] at hself
  obtain ⟨hholder, k', hmem, hk'⟩ := hself
  obtain rfl := Option.some.inj (hk.symm.trans hk')
  exact h.goto hp (by constructor <;> simp) ⟨hholder, hht, k, ⟨hmem, hk⟩, rfl⟩

theorem Ok.latchHomeStep (h : Ok L chain s) {f b : F} (hp : s.pc t = .latchHome f b)
    (hv : isLatched (s.version b) = false) :
    ∃ chain', Ok L chain' ((s.bump b).go t (.seek f b b)) := by
  have hself := h.own t
  rw [hp] at hself
  obtain ⟨hholder, hht, k, hlinked, rfl⟩ := hself
  refine h.latch hp (L.isHtBucket_bucket k) hv (by constructor <;> simp) rfl rfl
    fun hown htidy => ⟨hholder, hht, ⟨k, hlinked, rfl⟩, hown, htidy, [L.bucket k],
      chain (L.bucket k), rfl, rfl, ?_⟩
  rcases List.mem_cons.mp hlinked.1 with rfl | hmem
  · exact absurd ((L.isHtBucket_bucket k).symm.trans hht) (by simp)
  · exact hmem

omit [DecidableEq F] [DecidableEq T] in
/-- The frame behind a slot of a chain. -/
theorem Shape.next_eq {b slot : F} {pre suf : List F} (h : Shape L chain s)
    (hht : L.isHtBucket b = true) (hl : cells chain b = pre ++ suf)
    (hslot : pre.getLast? = some slot) : s.next slot = suf.head? := by
  rcases List.eq_nil_or_concat pre with rfl | ⟨pre, x, rfl⟩
  · cases hslot
  · obtain rfl : x = slot := by simpa using hslot
    rw [List.concat_eq_append, List.append_assoc] at hl
    exact (hl ▸ h.spells b hht).next_eq

omit [DecidableEq F] in
theorem Ok.seekStep (h : Ok L chain s) {f b slot tmp : F} (hp : s.pc t = .seek f b slot)
    (hnext : s.next slot = some tmp) :
    ∃ chain', Ok L chain' (s.go t (.matchPid f b slot tmp)) := by
  have hself := h.own t
  rw [hp] at hself
  obtain ⟨hholder, hht, hlinked, hown, htidy, pre, suf, hl, hslot, hmem⟩ := hself
  have hsuf := h.shape.next_eq hown.1 hl hslot
  rw [hnext] at hsuf
  obtain ⟨suf, rfl⟩ := List.head?_eq_some_iff.mp hsuf.symm
  exact h.goto hp (by constructor <;> simp)
    ⟨hholder, hht, hlinked, hown, htidy, pre, suf, hl, hslot, hmem⟩

omit [DecidableEq F] in
theorem Ok.matchYesStep (h : Ok L chain s) {f b slot tmp : F}
    (hp : s.pc t = .matchPid f b slot tmp) (heq : s.pid tmp = s.pid f) :
    ∃ chain', Ok L chain' (s.go t (.unlink f b slot tmp (s.next tmp))) := by
  have hself := h.own t
  rw [hp] at hself
  obtain ⟨hholder, hht, ⟨k, hlinked, rfl⟩, hown, htidy, pre, suf, hl, hslot, hmem⟩ := hself
  have htmp : tmp ∈ cells chain (L.bucket k) := by simp [hl]
  obtain rfl : tmp = f := h.shape.once k tmp f htmp hlinked.1 (heq.trans hlinked.2) hlinked.2
  refine h.goto hp (by constructor <;> simp) ⟨hholder, hht, ⟨k, hlinked, rfl⟩, hown, htidy, rfl,
    pre, suf, hl, hslot, ?_⟩
  have hl' : cells chain (L.bucket k) = (pre ++ [tmp]) ++ suf := by simp [hl]
  exact h.shape.next_eq hown.1 hl' (by simp)

omit [DecidableEq F] in
theorem Ok.matchNoStep (h : Ok L chain s) {f b slot tmp : F}
    (hp : s.pc t = .matchPid f b slot tmp) (hne : s.pid tmp ≠ s.pid f) :
    ∃ chain', Ok L chain' (s.go t (.seek f b tmp)) := by
  have hself := h.own t
  rw [hp] at hself
  obtain ⟨hholder, hht, hlinked, hown, htidy, pre, suf, hl, hslot, hmem⟩ := hself
  have hl' : cells chain b = (pre ++ [tmp]) ++ suf := by simp [hl]
  refine h.goto hp (by constructor <;> simp) ⟨hholder, hht, hlinked, hown, htidy, pre ++ [tmp],
    suf, hl', by simp, ?_⟩
  rcases List.mem_cons.mp hmem with rfl | hmem
  · exact absurd rfl hne
  · exact hmem

theorem Ok.unlinkStep (h : Ok L chain s) {f b slot tmp : F} {next : Option F}
    (hp : s.pc t = .unlink f b slot tmp next) :
    Ok L (Function.update chain b ((chain b).erase f))
      ((s.setNext slot next).go t (.clearPid f b)) := by
  have hself := h.own t
  rw [hp] at hself
  obtain ⟨hholder, hht, ⟨k, hlinked, rfl⟩, hown, htidy, rfl, pre, suf, hl, hslot, rfl⟩ := hself
  refine h.unlink hp hown.1 rfl hholder hht hl hslot hlinked.2 rfl (by simp [hht]) rfl rfl rfl
    (by simp) fun hinhand => ⟨hholder, hown, ⟨k, hlinked.2, rfl⟩, ?_⟩
  simp only [hht, Bool.false_eq_true, if_false]
  exact ⟨hinhand, htidy⟩

/-! ## `reset` -/

theorem Ok.clearPidStep (h : Ok L chain s) {f b : F} (hp : s.pc t = .clearPid f b) :
    ∃ chain', Ok L chain' ((s.setPid f none).go t
      (if L.isHtBucket f then .clearState f b else .clearNext f b)) := by
  have hself := h.own t
  rw [hp] at hself
  obtain ⟨hholder, hown, _, hplace⟩ := hself
  have hself' : (s.setPid f none).pid f = none := Function.update_self ..
  cases hht : L.isHtBucket f with
  | true =>
    simp only [hht, if_true] at hplace ⊢
    have hcont : Continues L (.clearPid f b) (.clearState f b) := by
      constructor <;> simp [hht]
    refine ⟨chain, h.resetPid hp hholder rfl (.inl ⟨hht, hplace⟩) (by simp [hht])
      (h.admits hp hcont) (by simp) ⟨hholder, hown, hself', ?_⟩⟩
    rw [if_pos hht]
    exact hplace
  | false =>
    simp only [hht, Bool.false_eq_true, if_false] at hplace ⊢
    have hcont : Continues L (.clearPid f b) (.clearNext f b) := by
      constructor <;> simp [hht]
    refine ⟨chain, h.resetPid hp hholder rfl (.inr ⟨hplace.1, by simp [hht]⟩) (by simp [hht])
      (h.admits hp hcont) (by simp) ⟨hholder, hown, hplace.1, hself', ?_⟩⟩
    have hne : b ≠ f := by
      rintro rfl
      exact absurd (hown.1.symm.trans hht) (by simp)
    have hsame : (s.setPid f none).pid b = s.pid b := Function.update_of_ne hne _ _
    rw [Tidy, hsame]
    exact hplace.2

theorem Ok.clearNextStep (h : Ok L chain s) {f b : F} (hp : s.pc t = .clearNext f b) :
    Ok L chain ((s.setNext f none).go t (.clearState f b)) := by
  have hself := h.own t
  rw [hp] at hself
  obtain ⟨hholder, hown, hhand, hpid, htidy⟩ := hself
  have hcont : Continues L (.clearNext f b) (.clearState f b) := by
    constructor <;> simp [hhand.1]
  refine h.resetNext hp hhand (by simp [hhand.1]) hpid (h.admits hp hcont) (by simp)
    ⟨hholder, hown, hpid, ?_⟩
  simp only [hhand.1, Bool.false_eq_true, if_false]
  exact ⟨hhand, Function.update_self .., htidy⟩

theorem Ok.clearStateStep (h : Ok L chain s) {f b : F} (hp : s.pc t = .clearState f b) :
    ∃ chain', Ok L chain' ((s.setFree f true).go t (.unlatchBucket f b)) := by
  have hself := h.own t
  rw [hp] at hself
  obtain ⟨hholder, hown, hpid, hplace⟩ := hself
  have hcont : Continues L (.clearState f b) (.unlatchBucket f b) := by
    constructor <;> simp
  have hself' : (s.setFree f true).free f = true := Function.update_self ..
  cases hht : L.isHtBucket f with
  | true =>
    simp only [hht, if_true] at hplace
    subst hplace
    refine ⟨chain, h.setFree hp (fun _ => rfl) (h.admits hp hcont) (by simp) (by simp [hht])
      ⟨hholder, hown, ?_, by simp [hht]⟩⟩
    rw [Tidy, hself']
    exact iff_of_true rfl hpid
  | false =>
    simp only [hht, Bool.false_eq_true, if_false] at hplace
    refine ⟨chain, h.setFree hp (by simp [hht]) (h.admits hp hcont) (by simp) (by simp [hpid])
      ⟨hholder, hown, ?_, fun _ => ⟨hplace.1, hpid, hplace.2.1⟩⟩⟩
    have hne : b ≠ f := by
      rintro rfl
      exact absurd (hown.1.symm.trans hht) (by simp)
    have hsame : (s.setFree f true).free b = s.free b := Function.update_of_ne hne _ _
    rw [Tidy, hsame]
    exact hplace.2.2

theorem Ok.unlatchBucketStep (h : Ok L chain s) {f b : F} (hp : s.pc t = .unlatchBucket f b) :
    ∃ chain', Ok L chain' ((s.bump b).go t (.unlatchFrame f)) := by
  have hself := h.own t
  rw [hp] at hself
  obtain ⟨hholder, hown, htidy, hplace⟩ := hself
  refine h.unlatch hp rfl htidy (by constructor <;> simp) rfl ?_ ⟨hholder, hplace⟩
  intro g hg
  obtain ⟨hht, rfl⟩ : L.isHtBucket f = false ∧ f = g := by simpa using hg
  exact (hplace hht).2.1

theorem Ok.unlatchFrameStep (h : Ok L chain s) {f : F} (hp : s.pc t = .unlatchFrame f) :
    ∃ chain', Ok L chain'
      ((s.unlatchExclusive f).go t (if L.isHtBucket f then .idle else .push f)) := by
  have hself := h.own t
  rw [hp] at hself
  obtain ⟨hholder, hplace⟩ := hself
  refine ⟨chain, h.relatched hp (.release h (g := .exclusive) hholder) rfl (h.admits hp ?_) ?_ ?_
    ?_⟩
  · split <;> constructor <;> simp_all
  · split <;> simp
  · intro g hg
    obtain ⟨hht, rfl⟩ : L.isHtBucket f = false ∧ f = g := by simpa using hg
    exact (hplace hht).2.1
  · split
    · trivial
    · rename_i hht
      exact hplace (by simpa using hht)

/-! ## The step lemma -/

theorem Step.ok (h : Ok L chain s) (hstep : Step L t s s') : ∃ chain', Ok L chain' s' := by
  have hself := h.own t
  cases hstep with
  | start c hp hc =>
    refine h.start hp ⟨by simp, ?_, by simp, by simp⟩ rfl trivial
    intro k hk t' _
    obtain rfl : c.pid = k := by simpa using hk
    exact hc t'
  | @readVersion c hp hv =>
    refine h.goto hp (by constructor <;> simp) ⟨Nat.le_refl _, hv, fun _ => ?_⟩
    exact ⟨_, [], rfl, rfl, by simp⟩
  | testMore hp hne =>
    rw [hp] at hself
    refine h.goto hp (by constructor <;> simp) ((h.watchDeref hself).mono ?_)
    rintro ⟨suf, hsuf, hb⟩
    cases suf with
    | nil => exact absurd hsuf hne
    | cons f suf => exact ⟨f, suf, hb⟩
  | testEnd hp hnone =>
    rw [hp] at hself
    refine h.goto hp (by constructor <;> simp) ((h.watchDeref hself).mono ?_)
    rintro ⟨suf, hsuf, hb⟩
    obtain rfl : suf = [] := List.head?_eq_none_iff.mp (hsuf.symm.trans hnone)
    exact hb
  | copy hp =>
    rw [hp] at hself
    refine h.goto hp (by constructor <;> simp) (Watch.mono hself ?_)
    rintro ⟨f, suf, hb⟩
    exact ⟨f, h.shape.deref_eq hb, _, suf, hb⟩
  | checkOk hp hv =>
    rw [hp] at hself
    refine h.goto hp (by constructor <;> simp) (Watch.mono hself ?_)
    rintro ⟨f, hf, slot, suf, hb⟩
    obtain rfl := Option.some.inj hf
    exact ⟨slot, suf, hb⟩
  | checkFail hp _ => exact h.goto hp (by constructor <;> simp) trivial
  | compareEq hp heq =>
    rw [hp] at hself
    refine h.goto hp (by constructor <;> simp) (Watch.mono hself ?_)
    rintro ⟨slot, suf, hb⟩
    exact ⟨hb.mem, heq⟩
  | compareNe hp hne =>
    rw [hp] at hself
    refine h.goto hp (by constructor <;> simp) (Watch.mono hself ?_)
    rintro ⟨slot, suf, hb⟩
    exact ⟨suf, hb.next hne⟩
  | advanceOk hp _ =>
    rw [hp] at hself
    exact h.goto hp (by constructor <;> simp) hself
  | advanceFail hp _ => exact h.goto hp (by constructor <;> simp) trivial
  | foundOk hp _ =>
    rw [hp] at hself
    exact h.goto hp (by constructor <;> simp) hself
  | foundFail hp _ => exact h.goto hp (by constructor <;> simp) trivial
  | accessRetry hp =>
    rw [hp] at hself
    exact h.goto hp (by constructor <;> simp) hself
  | access g hp hg => exact h.accessStep hp hg
  | recheckRetry hp =>
    refine h.goto hp ?_ ?_
    · split <;> constructor <;> simp
    · split <;> trivial
  | recheckOk hp hv =>
    rw [hp] at hself
    exact h.goto hp (by constructor <;> simp) ⟨hself.2, fun _ => hself.1.2.2 hv⟩
  | recheckFail hp _ =>
    rw [hp] at hself
    exact h.goto hp (by constructor <;> simp) hself.2
  | undo hp =>
    rw [hp] at hself
    refine h.releaseStep hp hself ?_ ?_ rfl fun s' => ?_
    · split <;> constructor <;> simp
    · split <;> rfl
    · split <;> trivial
  | absentFail hp _ => exact h.goto hp (by constructor <;> simp) trivial
  | absentOk hp _ _ =>
    rw [hp] at hself
    exact h.goto hp (by constructor <;> simp) hself
  | notFound hp _ _ => exact h.goto hp (by constructor <;> simp) trivial
  | notFoundDone hp => exact h.goto hp (by constructor <;> simp) trivial
  | upgradeFail hp _ => exact h.goto hp (by constructor <;> simp) trivial
  | upgradeOk hp hv =>
    rw [hp] at hself
    obtain ⟨_, hunlatched, habsent⟩ := hself
    refine h.latch hp (L.isHtBucket_bucket _) (hv ▸ hunlatched) (by constructor <;> simp) rfl rfl ?_
    intro hown htidy
    exact ⟨hown, htidy, habsent hv⟩
  | decideInline hp hfree =>
    rw [hp] at hself
    obtain ⟨hown, htidy, hb⟩ := hself
    exact h.goto hp (by constructor <;> simp [Origin.pid])
      ⟨hown, htidy, List.mem_cons_self, htidy.mp hfree, hb.absent⟩
  | decideChain hp _ =>
    rw [hp] at hself
    exact h.goto hp (by constructor <;> simp [Origin.pid]) hself
  | @takeFail og _ hp =>
    rw [hp] at hself
    exact h.goto hp (by cases og <;> constructor <;> simp) ⟨hself.1, hself.2.1⟩
  | take hp hf => exact ⟨_, h.takeStep hp hf⟩
  | giveUp hp => exact h.giveUpStep hp
  | latchFrame hp hf => exact h.latchFrameStep hp hf
  | fillState hp => exact h.fillStateStep hp
  | fillPid hp => exact h.fillPidStep hp
  | filled hp => exact h.filledStep hp
  | startInsert k hp hk =>
    refine h.start hp ⟨by simp, ?_, ?_, ?_⟩ rfl trivial
    · intro k' hk' t' _ hins
      obtain rfl : k = k' := by simpa using hk'
      exact hk.2 t' (Pc.calls_of_inserts hins)
    · intro k' hk' t' _
      obtain rfl : k = k' := by simpa using hk'
      exact hk.2 t'
    · intro k' hk'
      obtain rfl : k = k' := by simpa using hk'
      exact hk.1
  | latchBucket hp hv =>
    exact h.latch hp (L.isHtBucket_bucket _) hv (by constructor <;> simp) rfl rfl fun hown htidy =>
      ⟨hown, htidy⟩
  | newInline hp hfree =>
    have hunknown := h.together.unknown t _ (by rw [hp]; rfl)
    rw [hp] at hself
    exact h.goto hp (by constructor <;> simp [Origin.pid])
      ⟨hself.1, hself.2, List.mem_cons_self, hself.2.mp hfree, fun g _ => hunknown g⟩
  | newChain hp _ =>
    have hunknown := h.together.unknown t _ (by rw [hp]; rfl)
    rw [hp] at hself
    exact h.goto hp (by constructor <;> simp)
      ⟨hself.1, hself.2, _, [_], rfl, rfl, fun g _ => hunknown g⟩
  | seekMore hp hnext =>
    rw [hp] at hself
    obtain ⟨hown, htidy, suf, hb⟩ := hself
    have hsuf := h.shape.deref_eq hb
    rw [State.deref, hnext] at hsuf
    obtain ⟨suf, rfl⟩ := List.head?_eq_some_iff.mp hsuf.symm
    exact h.goto hp (by constructor <;> simp) ⟨hown, htidy, _, suf, hb⟩
  | seekDone hp hnone =>
    rw [hp] at hself
    obtain ⟨hown, htidy, suf, hb⟩ := hself
    have hsuf := h.shape.deref_eq hb
    rw [State.deref, hnone] at hsuf
    obtain rfl := List.head?_eq_none_iff.mp hsuf.symm
    exact h.goto hp (by constructor <;> simp [Origin.pid]) ⟨hown, htidy, hb⟩
  | seekNext hp hne =>
    rw [hp] at hself
    obtain ⟨hown, htidy, slot, suf, hb⟩ := hself
    exact h.goto hp (by constructor <;> simp) ⟨hown, htidy, suf, hb.next hne⟩
  | releaseGuard hp =>
    rw [hp] at hself
    exact h.releaseStep hp hself.1 (by constructor <;> simp) rfl rfl fun _ => trivial
  | releaseInserted hp =>
    rw [hp] at hself
    exact h.releaseStep (g := .exclusive) hp hself.1 (by constructor <;> simp) rfl rfl
      fun _ => trivial
  | grab f hp hf => exact h.grabStep hp hf
  | drop hp =>
    rw [hp] at hself
    exact h.releaseStep (g := .exclusive) hp hself (by constructor <;> simp) rfl rfl
      fun _ => trivial
  | startRemove hp => exact h.startRemoveStep hp
  | removeHeld hp hpid => exact h.removeHeldStep hp hpid
  | removeInline hp hht hv => exact h.removeInlineStep hp hht hv
  | removeChained hp hht hpid => exact h.removeChainedStep hp hht hpid
  | latchHome hp hv => exact h.latchHomeStep hp hv
  | seek hp hnext => exact h.seekStep hp hnext
  | matchYes hp heq => exact h.matchYesStep hp heq
  | matchNo hp hne => exact h.matchNoStep hp hne
  | unlink hp => exact ⟨_, h.unlinkStep hp⟩
  | clearPid hp => exact h.clearPidStep hp
  | clearNext hp => exact ⟨chain, h.clearNextStep hp⟩
  | clearState hp => exact h.clearStateStep hp
  | unlatchBucket hp => exact h.unlatchBucketStep hp
  | unlatchFrame hp => exact h.unlatchFrameStep hp
  | push pushed hp => exact ⟨chain, h.push hp pushed⟩

/-! ## Runs -/

omit [DecidableEq F] [DecidableEq T] in
theorem Init.ok (h : Init L s) : Ok L (fun _ => []) s := by
  refine ⟨⟨?_, fun _ => List.nodup_nil, by simp, by simp, ?_, ?_, ?_, h.frameFreeList.1, ?_, ?_⟩,
    ⟨?_, ?_, ?_, ?_, ?_⟩, ?_⟩
  · intro b _
    exact ⟨rfl, (h.frames b).2.1⟩
  · intro b f k _ _ hk
    cases (h.frames f).1.symm.trans hk
  · intro k f g _ _ hk
    cases (h.frames f).1.symm.trans hk
  · intro f hf
    exact ⟨h.frameFreeList.2 f hf, by simp, (h.frames f).1, (h.frames f).2.1⟩
  · intro f t hf
    exact (h.latches f).2
  · intro b _ _
    exact iff_of_true (h.frames b).2.2 (h.frames b).1
  · simp [h.pc]
  · simp [h.pc]
  · intro f k hk
    cases (h.frames f).1.symm.trans hk
  · simp [h.pc]
  · simp [h.pc]
  · intro t
    rw [h.pc]
    trivial

/-- The page table is in order in every reachable state. -/
theorem ok_of_reachable {s : State K F T} (hs : (pageTable L).Reachable s) :
    ∃ chain, Ok L chain s := by
  refine hs.invariant (P := fun s => ∃ chain, Ok L chain s) ?_ ?_
  · exact fun s h => ⟨_, Init.ok h⟩
  · rintro s s' _ ⟨chain, h⟩ ⟨t, hstep⟩
    exact hstep.ok h

end ScaleStore.PageTable
