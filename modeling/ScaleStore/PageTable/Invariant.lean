/-
# What holds between threads in the page table

The frames of a bucket form a chain.  A thread that holds the bucket latch is the
only one to write the chain, the PIDs of its frames and the state of the inline
frame.  A lookup that remembers an unlatched version knows something about the
bucket as long as that version is the current one; it never matters what it has
read after that.
-/

import ScaleStore.PageTable.Machine
import Mathlib.Data.Nat.Bitwise

namespace ScaleStore.PageTable

variable {K F T : Type}

/-! ## Versions -/

theorem isLatched_add_two (v : Nat) : isLatched (v + 0b10) = !isLatched v := by
  have hbit : ∀ n, isLatched n = n.testBit 1 := by
    intro n
    rw [isLatched, show (0b10 : Nat) = 2 ^ 1 from rfl, Nat.and_two_pow]
    cases n.testBit 1 <;> rfl
  rw [hbit, hbit, Nat.testBit_eq_decide_div_mod_eq, Nat.testBit_eq_decide_div_mod_eq]
  by_cases h : v / 2 ^ 1 % 2 = 1
  · simp only [h, decide_true, Bool.not_true, decide_eq_false_iff_not]
    omega
  · simp only [h, decide_false, Bool.not_false, decide_eq_true_eq]
    omega

/-! ## Buckets -/

/-- The frames of a bucket: the inline one and those behind it. -/
def cells (chain : F → List F) (b : F) : List F := b :: chain b

/-- Behind the cell `slot` comes `suf`, and `k` is not in front of it. -/
def Before (l : List F) (pid : F → Option K) (k : K) (slot : Option F) (suf : List F) : Prop :=
  ∃ pre, l = pre ++ suf ∧ slot = pre.getLast? ∧ ∀ g ∈ pre, pid g ≠ some k

theorem Before.congr {l : List F} {pid pid' : F → Option K} {k : K} {slot : Option F}
    {suf : List F} (h : Before l pid k slot suf) (hpid : ∀ f ∈ l, pid' f = pid f) :
    Before l pid' k slot suf := by
  obtain ⟨pre, hl, hslot, hk⟩ := h
  refine ⟨pre, hl, hslot, fun g hg => ?_⟩
  rw [hpid g (hl ▸ List.mem_append_left _ hg)]
  exact hk g hg

/-- At the end of the chain the PID is known to be absent. -/
theorem Before.absent {l : List F} {pid : F → Option K} {k : K} {slot : Option F}
    (h : Before l pid k slot []) : ∀ g ∈ l, pid g ≠ some k := by
  obtain ⟨pre, hl, _, hk⟩ := h
  rw [hl, List.append_nil]
  exact hk

/-- One cell further. -/
theorem Before.next {l : List F} {pid : F → Option K} {k : K} {slot : Option F} {f : F}
    {suf : List F} (h : Before l pid k slot (f :: suf)) (hf : pid f ≠ some k) :
    Before l pid k (some f) suf := by
  obtain ⟨pre, hl, _, hk⟩ := h
  refine ⟨pre ++ [f], by simpa using hl, by simp, fun g hg => ?_⟩
  rcases List.mem_append.mp hg with hg | hg
  · exact hk g hg
  · rw [List.mem_singleton] at hg
    exact hg ▸ hf

theorem Before.mem {l : List F} {pid : F → Option K} {k : K} {slot : Option F} {f : F}
    {suf : List F} (h : Before l pid k slot (f :: suf)) : f ∈ l := by
  obtain ⟨pre, hl, _, _⟩ := h
  rw [hl]
  simp

/-! ## The frames -/

/-- The chains, the PIDs in them and the free list.  A bucket that is not latched is `FREE` when
its inline frame has no PID. -/
structure Shape (L : Layout K F) (chain : F → List F) (s : State K F T) : Prop where
  spells : ∀ b, L.isHtBucket b = true → Chain s.next (some b) (cells chain b) none
  nodup : ∀ b, (chain b).Nodup
  chained : ∀ b f, f ∈ chain b → L.isHtBucket b = true ∧ L.isHtBucket f = false
  disjoint : ∀ b b' f, f ∈ chain b → f ∈ chain b' → b = b'
  home : ∀ b f k, L.isHtBucket b = true → f ∈ cells chain b → s.pid f = some k → L.bucket k = b
  once : ∀ k f g, f ∈ cells chain (L.bucket k) → g ∈ cells chain (L.bucket k) →
    s.pid f = some k → s.pid g = some k → f = g
  listed : ∀ f ∈ s.frameFreeList, L.isHtBucket f = false ∧ (∀ b, f ∉ chain b) ∧ s.pid f = none ∧
    s.next f = none
  listed_nodup : s.frameFreeList.Nodup
  sole : ∀ f t, s.holder f = some t → s.readers f = ∅
  tidy : ∀ b, L.isHtBucket b = true → isLatched (s.version b) = false →
    (s.free b = true ↔ s.pid b = none)

theorem Shape.cells_nodup {L : Layout K F} {chain : F → List F} {s : State K F T}
    (h : Shape L chain s) (b : F) : (cells chain b).Nodup := by
  refine List.nodup_cons.mpr ⟨?_, h.nodup b⟩
  intro hb
  obtain ⟨h1, h2⟩ := h.chained b b hb
  simp [h1] at h2

/-- What `*current_slot` contains. -/
theorem Shape.deref_eq {L : Layout K F} {chain : F → List F} {s : State K F T}
    (h : Shape L chain s) {k : K} {slot : Option F} {suf : List F}
    (hb : Before (cells chain (L.bucket k)) s.pid k slot suf) :
    s.deref L k slot = suf.head? := by
  obtain ⟨pre, hl, hslot, _⟩ := hb
  have hspells := h.spells (L.bucket k) (L.isHtBucket_bucket k)
  rcases List.eq_nil_or_concat pre with rfl | ⟨pre, x, rfl⟩
  · subst hslot
    rw [← List.nil_append suf, ← hl]
    rfl
  · obtain rfl : slot = some x := by simpa using hslot
    rw [List.concat_eq_append, List.append_assoc] at hl
    exact (hl ▸ hspells).next_eq

/-! ## The threads -/

/-- A frame of `k`, linked where lookups of `k` find it. -/
def Linked (L : Layout K F) (chain : F → List F) (s : State K F T) (k : K) (f : F) : Prop :=
  f ∈ cells chain (L.bucket k) ∧ s.pid f = some k

/-- The thread remembers the version `v`; while it is current, `Q` holds of the bucket. -/
def Watch (L : Layout K F) (s : State K F T) (k : K) (v : Nat) (Q : Prop) : Prop :=
  v ≤ s.version (L.bucket k) ∧ isLatched v = false ∧ (s.version (L.bucket k) = v → Q)

/-- The bucket is latched, by the thread this is said of. -/
def Owns (L : Layout K F) (s : State K F T) (b : F) : Prop :=
  L.isHtBucket b = true ∧ isLatched (s.version b) = true

def Tidy (s : State K F T) (b : F) : Prop := s.free b = true ↔ s.pid b = none

/-- The latch that a functor has got. -/
def Has (s : State K F T) (t : T) (f : F) : LatchState → Prop
  | .exclusive => s.holder f = some t
  | .shared => t ∈ s.readers f
  | .optimistic => True

/-- A frame that is neither linked nor in the free list. -/
def InHand (L : Layout K F) (chain : F → List F) (s : State K F T) (f : F) : Prop :=
  L.isHtBucket f = false ∧ (∀ b, f ∉ chain b) ∧ f ∉ s.frameFreeList

/-- What a thread knows, depending on where it is. -/
def Own (L : Layout K F) (chain : F → List F) (s : State K F T) (t : T) : Pc K F → Prop
  | .idle | .restart _ | .notFound _ | .latchBucket _ => True
  | .test c v slot =>
    Watch L s c.pid v (∃ suf, Before (cells chain (L.bucket c.pid)) s.pid c.pid slot suf)
  | .copy c v slot => Watch L s c.pid v
      (∃ f suf, Before (cells chain (L.bucket c.pid)) s.pid c.pid slot (f :: suf))
  | .check c v tmp => Watch L s c.pid v (∃ f, tmp = some f ∧
      ∃ slot suf, Before (cells chain (L.bucket c.pid)) s.pid c.pid slot (f :: suf))
  | .compare c v f => Watch L s c.pid v
      (∃ slot suf, Before (cells chain (L.bucket c.pid)) s.pid c.pid slot (f :: suf))
  | .advance c v f =>
    Watch L s c.pid v (∃ suf, Before (cells chain (L.bucket c.pid)) s.pid c.pid (some f) suf)
  | .found c v f | .access c v f | .recheck c v f none =>
    Watch L s c.pid v (Linked L chain s c.pid f)
  | .recheck c v f (some g) => Watch L s c.pid v (Linked L chain s c.pid f) ∧ Has s t f g
  | .undo _ f g => Has s t f g
  | .absent c v slot | .upgrade c v slot =>
    Watch L s c.pid v (Before (cells chain (L.bucket c.pid)) s.pid c.pid slot [])
  | .decide c slot => Owns L s (L.bucket c.pid) ∧ Tidy s (L.bucket c.pid) ∧
      Before (cells chain (L.bucket c.pid)) s.pid c.pid slot []
  | .decideNew k => Owns L s (L.bucket k) ∧ Tidy s (L.bucket k)
  | .seekEnd k slot => Owns L s (L.bucket k) ∧ Tidy s (L.bucket k) ∧
      ∃ suf, Before (cells chain (L.bucket k)) s.pid k (some slot) suf
  | .seekDuplicate k tmp => Owns L s (L.bucket k) ∧ Tidy s (L.bucket k) ∧
      ∃ slot suf, Before (cells chain (L.bucket k)) s.pid k slot (tmp :: suf)
  | .take og slot => Owns L s (L.bucket og.pid) ∧ Tidy s (L.bucket og.pid) ∧
      Before (cells chain (L.bucket og.pid)) s.pid og.pid (some slot) []
  | .giveUp og => Owns L s (L.bucket og.pid) ∧ Tidy s (L.bucket og.pid)
  | .latchFrame og f => Owns L s (L.bucket og.pid) ∧ Tidy s (L.bucket og.pid) ∧
      f ∈ cells chain (L.bucket og.pid) ∧ s.pid f = none ∧
      ∀ g ∈ cells chain (L.bucket og.pid), s.pid g ≠ some og.pid
  | .fill og f st pid => Owns L s (L.bucket og.pid) ∧
      (f = L.bucket og.pid → s.free f = !st) ∧ (f ≠ L.bucket og.pid → Tidy s (L.bucket og.pid)) ∧
      f ∈ cells chain (L.bucket og.pid) ∧ s.holder f = some t ∧
      if pid then s.pid f = some og.pid
      else s.pid f = none ∧ ∀ g ∈ cells chain (L.bucket og.pid), s.pid g ≠ some og.pid
  | .guard k f g => Has s t f g ∧ (g ≠ .optimistic → Linked L chain s k f)
  | .inserted k f => s.holder f = some t ∧ Linked L chain s k f
  | .held f => s.holder f = some t
  | .remove f => s.holder f = some t ∧ ∃ k, Linked L chain s k f
  | .latchHome f b => s.holder f = some t ∧ L.isHtBucket f = false ∧
      ∃ k, Linked L chain s k f ∧ L.bucket k = b
  | .seek f b slot => s.holder f = some t ∧ L.isHtBucket f = false ∧
      (∃ k, Linked L chain s k f ∧ L.bucket k = b) ∧ Owns L s b ∧ Tidy s b ∧
      ∃ pre suf, cells chain b = pre ++ suf ∧ pre.getLast? = some slot ∧ f ∈ suf
  | .matchPid f b slot tmp => s.holder f = some t ∧ L.isHtBucket f = false ∧
      (∃ k, Linked L chain s k f ∧ L.bucket k = b) ∧ Owns L s b ∧ Tidy s b ∧
      ∃ pre suf, cells chain b = pre ++ tmp :: suf ∧ pre.getLast? = some slot ∧ f ∈ tmp :: suf
  | .unlink f b slot tmp next => s.holder f = some t ∧ L.isHtBucket f = false ∧
      (∃ k, Linked L chain s k f ∧ L.bucket k = b) ∧ Owns L s b ∧ Tidy s b ∧ tmp = f ∧
      ∃ pre suf, cells chain b = pre ++ f :: suf ∧ pre.getLast? = some slot ∧ next = suf.head?
  | .clearPid f b => s.holder f = some t ∧ Owns L s b ∧ (∃ k, s.pid f = some k ∧ L.bucket k = b) ∧
      if L.isHtBucket f then f = b else InHand L chain s f ∧ Tidy s b
  | .clearNext f b => s.holder f = some t ∧ Owns L s b ∧ InHand L chain s f ∧ s.pid f = none ∧
      Tidy s b
  | .clearState f b => s.holder f = some t ∧ Owns L s b ∧ s.pid f = none ∧
      if L.isHtBucket f then f = b else InHand L chain s f ∧ s.next f = none ∧ Tidy s b
  | .unlatchBucket f b => s.holder f = some t ∧ Owns L s b ∧ Tidy s b ∧
      (L.isHtBucket f = false → InHand L chain s f ∧ s.pid f = none ∧ s.next f = none)
  | .unlatchFrame f => s.holder f = some t ∧
      (L.isHtBucket f = false → InHand L chain s f ∧ s.pid f = none ∧ s.next f = none)
  | .push f => InHand L chain s f ∧ s.pid f = none ∧ s.next f = none

namespace Pc

/-- The frame that `removeFrame` has unlinked and not yet pushed. -/
def hand (L : Layout K F) : Pc K F → Option F
  | .clearPid f _ | .clearNext f _ | .clearState f _ | .unlatchBucket f _ | .unlatchFrame f
  | .push f => if L.isHtBucket f then none else some f
  | _ => none

/-- The PID that `insertFrame` has not yet written. -/
def unwritten : Pc K F → Option K
  | .fill _ _ _ true => none
  | p => p.inserts

end Pc

/-- What holds between the threads. -/
structure Together (L : Layout K F) (chain : F → List F) (s : State K F T) : Prop where
  bucket_once : ∀ t t' b, (s.pc t).bucketHeld L = some b → (s.pc t').bucketHeld L = some b → t = t'
  hand_once : ∀ t t' f, (s.pc t).hand L = some f → (s.pc t').hand L = some f → t = t'
  mapped : ∀ f k, s.pid f = some k → f ∈ cells chain (L.bucket k) ∨
    ∃ t, (s.pc t).hand L = some f ∧ s.holder f = some t
  alone : ∀ t t' k, (s.pc t).inserts = some k → t' ≠ t → (s.pc t').calls ≠ some k
  unknown : ∀ t k, (s.pc t).unwritten = some k → ∀ f, s.pid f ≠ some k

/-- The table is in order. -/
structure Ok (L : Layout K F) (chain : F → List F) (s : State K F T) : Prop where
  shape : Shape L chain s
  together : Together L chain s
  own : ∀ t, Own L chain s t (s.pc t)

/-! ## Other threads -/

/-- What a step of another thread leaves to a thread at `p`: the bucket it has latched or watches
successfully, the frames whose latch it has, and the frame in its hands. -/
structure Undisturbed (L : Layout K F) (chain chain' : F → List F) (s s' : State K F T) (t : T)
    (p : Pc K F) : Prop where
  version_le : ∀ b, s.version b ≤ s'.version b
  kept : ∀ b, p.bucketHeld L = some b → s'.version b = s.version b
  view : ∀ b, L.isHtBucket b = true →
    (p.bucketHeld L = some b ∨ (s'.version b = s.version b ∧ isLatched (s.version b) = false)) →
    chain' b = chain b ∧ (∀ f ∈ cells chain b, s'.pid f = s.pid f) ∧ s'.free b = s.free b
  holder : ∀ f, s.holder f = some t → s'.holder f = some t
  readers : ∀ f, t ∈ s.readers f → t ∈ s'.readers f
  gripped : ∀ f, s.holder f = some t ∨ t ∈ s.readers f → s'.pid f = s.pid f ∧
    ∀ b, f ∈ chain b → f ∈ chain' b
  hand : ∀ f, p.hand L = some f → InHand L chain s f → InHand L chain' s' f ∧
    s'.pid f = s.pid f ∧ s'.next f = s.next f

namespace Undisturbed

variable {L : Layout K F} {chain chain' : F → List F} {s s' : State K F T} {t : T} {p : Pc K F}
  {k : K} {b f : F}

theorem cells_eq (h : Undisturbed L chain chain' s s' t p) (hb : p.bucketHeld L = some b)
    (hbucket : L.isHtBucket b = true) : cells chain' b = cells chain b :=
  congrArg (b :: ·) (h.view b hbucket (.inl hb)).1

theorem watch (h : Undisturbed L chain chain' s s' t p) {v : Nat} {Q Q' : Prop}
    (hw : Watch L s k v Q)
    (hQ : cells chain' (L.bucket k) = cells chain (L.bucket k) →
      (∀ f ∈ cells chain (L.bucket k), s'.pid f = s.pid f) → Q → Q') : Watch L s' k v Q' := by
  obtain ⟨hle, hv, hq⟩ := hw
  refine ⟨Nat.le_trans hle (h.version_le _), hv, fun heq => ?_⟩
  -- the version can only have stayed where it was
  have hold : s.version (L.bucket k) = v :=
    Nat.le_antisymm (heq ▸ h.version_le _) hle
  obtain ⟨hchain, hpid, _⟩ := h.view (L.bucket k) (L.isHtBucket_bucket k)
    (.inr ⟨heq.trans hold.symm, hold ▸ hv⟩)
  exact hQ (congrArg (L.bucket k :: ·) hchain) hpid (hq hold)

theorem watchBefore (h : Undisturbed L chain chain' s s' t p) {v : Nat} {slot : Option F}
    {suf : List F}
    (hw : Watch L s k v (Before (cells chain (L.bucket k)) s.pid k slot suf)) :
    Watch L s' k v (Before (cells chain' (L.bucket k)) s'.pid k slot suf) := by
  refine h.watch hw fun hl hpid hb => ?_
  rw [hl]
  exact hb.congr hpid

theorem watchLinked (h : Undisturbed L chain chain' s s' t p) {v : Nat}
    (hw : Watch L s k v (Linked L chain s k f)) : Watch L s' k v (Linked L chain' s' k f) := by
  refine h.watch hw fun hl hpid hq => ?_
  rw [Linked, hl, hpid f hq.1]
  exact hq

theorem owns (h : Undisturbed L chain chain' s s' t p) (hb : p.bucketHeld L = some b)
    (ho : Owns L s b) : Owns L s' b := by
  rw [Owns, h.kept b hb]
  exact ho

theorem tidy (h : Undisturbed L chain chain' s s' t p) (hb : p.bucketHeld L = some b)
    (hbucket : L.isHtBucket b = true) (ht : Tidy s b) : Tidy s' b := by
  obtain ⟨_, hpid, hfree⟩ := h.view b hbucket (.inl hb)
  rw [Tidy, hfree, hpid b List.mem_cons_self]
  exact ht

theorem before (h : Undisturbed L chain chain' s s' t p) (hb : p.bucketHeld L = some b)
    (hbucket : L.isHtBucket b = true) {slot : Option F} {suf : List F}
    (hbef : Before (cells chain b) s.pid k slot suf) :
    Before (cells chain' b) s'.pid k slot suf := by
  rw [h.cells_eq hb hbucket]
  exact hbef.congr (h.view b hbucket (.inl hb)).2.1

theorem linked (h : Undisturbed L chain chain' s s' t p)
    (hf : s.holder f = some t ∨ t ∈ s.readers f) (hl : Linked L chain s k f) :
    Linked L chain' s' k f := by
  obtain ⟨hpid, hmem⟩ := h.gripped f hf
  refine ⟨?_, hpid.trans hl.2⟩
  rcases List.mem_cons.mp hl.1 with heq | hin
  · exact List.mem_cons.mpr (.inl heq)
  · exact List.mem_cons_of_mem _ (hmem _ hin)

theorem has (h : Undisturbed L chain chain' s s' t p) {g : LatchState} (hg : Has s t f g) :
    Has s' t f g := by
  cases g with
  | exclusive => exact h.holder f hg
  | shared => exact h.readers f hg
  | optimistic => trivial

theorem linkedGuard (h : Undisturbed L chain chain' s s' t p) {g : LatchState}
    (hg : Has s t f g) (hl : g ≠ .optimistic → Linked L chain s k f) :
    g ≠ .optimistic → Linked L chain' s' k f := by
  intro hne
  refine h.linked ?_ (hl hne)
  cases g with
  | exclusive => exact .inl hg
  | shared => exact .inr hg
  | optimistic => exact absurd rfl hne

theorem pid_eq (h : Undisturbed L chain chain' s s' t p) (hf : s.holder f = some t) :
    s'.pid f = s.pid f :=
  (h.gripped f (.inl hf)).1

/-- A thread that is not disturbed knows what it knew. -/
theorem own (h : Undisturbed L chain chain' s s' t p) (ho : Own L chain s t p) :
    Own L chain' s' t p := by
  cases p with
  | idle => trivial
  | restart => trivial
  | notFound => trivial
  | latchBucket => trivial
  | test c v slot =>
    exact h.watch ho fun hl hpid ⟨suf, hq⟩ => ⟨suf, hl ▸ hq.congr hpid⟩
  | copy c v slot =>
    exact h.watch ho fun hl hpid ⟨f, suf, hq⟩ => ⟨f, suf, hl ▸ hq.congr hpid⟩
  | check c v tmp =>
    exact h.watch ho fun hl hpid ⟨f, hf, slot, suf, hq⟩ => ⟨f, hf, slot, suf, hl ▸ hq.congr hpid⟩
  | compare c v f =>
    exact h.watch ho fun hl hpid ⟨slot, suf, hq⟩ => ⟨slot, suf, hl ▸ hq.congr hpid⟩
  | advance c v f =>
    exact h.watch ho fun hl hpid ⟨suf, hq⟩ => ⟨suf, hl ▸ hq.congr hpid⟩
  | found c v f => exact h.watchLinked ho
  | access c v f => exact h.watchLinked ho
  | recheck c v f g =>
    cases g with
    | none => exact h.watchLinked ho
    | some g => exact ⟨h.watchLinked ho.1, h.has ho.2⟩
  | undo c f g => exact h.has ho
  | absent c v slot => exact h.watchBefore ho
  | upgrade c v slot => exact h.watchBefore ho
  | decide c slot =>
    obtain ⟨hown, htidy, hbef⟩ := ho
    exact ⟨h.owns rfl hown, h.tidy rfl hown.1 htidy, h.before rfl hown.1 hbef⟩
  | decideNew k =>
    obtain ⟨hown, htidy⟩ := ho
    exact ⟨h.owns rfl hown, h.tidy rfl hown.1 htidy⟩
  | seekEnd k slot =>
    obtain ⟨hown, htidy, suf, hbef⟩ := ho
    exact ⟨h.owns rfl hown, h.tidy rfl hown.1 htidy, suf, h.before rfl hown.1 hbef⟩
  | seekDuplicate k tmp =>
    obtain ⟨hown, htidy, slot, suf, hbef⟩ := ho
    exact ⟨h.owns rfl hown, h.tidy rfl hown.1 htidy, slot, suf, h.before rfl hown.1 hbef⟩
  | take og slot =>
    obtain ⟨hown, htidy, hbef⟩ := ho
    exact ⟨h.owns rfl hown, h.tidy rfl hown.1 htidy, h.before rfl hown.1 hbef⟩
  | giveUp og =>
    obtain ⟨hown, htidy⟩ := ho
    exact ⟨h.owns rfl hown, h.tidy rfl hown.1 htidy⟩
  | latchFrame og f =>
    obtain ⟨hown, htidy, hmem, hnone, habsent⟩ := ho
    have hpid := (h.view _ hown.1 (.inl rfl)).2.1
    have hcells := h.cells_eq rfl hown.1
    refine ⟨h.owns rfl hown, h.tidy rfl hown.1 htidy, hcells ▸ hmem, (hpid f hmem).trans hnone, ?_⟩
    intro g hg
    rw [hcells] at hg
    rw [hpid g hg]
    exact habsent g hg
  | fill og f st pid =>
    obtain ⟨hown, hfree, htidy, hmem, hholder, hwritten⟩ := ho
    obtain ⟨_, hpid, hfree'⟩ := h.view _ hown.1 (.inl rfl)
    have hcells := h.cells_eq rfl hown.1
    refine ⟨h.owns rfl hown, ?_, fun hne => h.tidy rfl hown.1 (htidy hne), hcells ▸ hmem,
      h.holder f hholder, ?_⟩
    · rintro rfl
      exact hfree'.trans (hfree rfl)
    · cases pid with
      | true => exact (hpid f hmem).trans hwritten
      | false =>
        refine ⟨(hpid f hmem).trans hwritten.1, fun g hg => ?_⟩
        rw [hcells] at hg
        rw [hpid g hg]
        exact hwritten.2 g hg
  | guard k f g => exact ⟨h.has ho.1, h.linkedGuard ho.1 ho.2⟩
  | inserted k f => exact ⟨h.holder f ho.1, h.linked (.inl ho.1) ho.2⟩
  | held f => exact h.holder f ho
  | remove f =>
    obtain ⟨hholder, k, hlinked⟩ := ho
    exact ⟨h.holder f hholder, k, h.linked (.inl hholder) hlinked⟩
  | latchHome f b =>
    obtain ⟨hholder, hchained, k, hlinked, hk⟩ := ho
    exact ⟨h.holder f hholder, hchained, k, h.linked (.inl hholder) hlinked, hk⟩
  | seek f b slot =>
    obtain ⟨hholder, hchained, ⟨k, hlinked, hk⟩, hown, htidy, hahead⟩ := ho
    refine ⟨h.holder f hholder, hchained, ⟨k, h.linked (.inl hholder) hlinked, hk⟩,
      h.owns rfl hown, h.tidy rfl hown.1 htidy, ?_⟩
    rw [h.cells_eq rfl hown.1]
    exact hahead
  | matchPid f b slot tmp =>
    obtain ⟨hholder, hchained, ⟨k, hlinked, hk⟩, hown, htidy, hahead⟩ := ho
    refine ⟨h.holder f hholder, hchained, ⟨k, h.linked (.inl hholder) hlinked, hk⟩,
      h.owns rfl hown, h.tidy rfl hown.1 htidy, ?_⟩
    rw [h.cells_eq rfl hown.1]
    exact hahead
  | unlink f b slot tmp next =>
    obtain ⟨hholder, hchained, ⟨k, hlinked, hk⟩, hown, htidy, heq, hahead⟩ := ho
    refine ⟨h.holder f hholder, hchained, ⟨k, h.linked (.inl hholder) hlinked, hk⟩,
      h.owns rfl hown, h.tidy rfl hown.1 htidy, heq, ?_⟩
    rw [h.cells_eq rfl hown.1]
    exact hahead
  | clearPid f b =>
    obtain ⟨hholder, hown, ⟨k, hpid, hk⟩, hplace⟩ := ho
    refine ⟨h.holder f hholder, h.owns rfl hown, ⟨k, (h.pid_eq hholder).trans hpid, hk⟩, ?_⟩
    split at hplace
    · rw [if_pos ‹_›]
      exact hplace
    · rw [if_neg ‹_›]
      exact ⟨(h.hand f (by simp [Pc.hand, *]) hplace.1).1, h.tidy rfl hown.1 hplace.2⟩
  | clearNext f b =>
    obtain ⟨hholder, hown, hhand, hpid, htidy⟩ := ho
    exact ⟨h.holder f hholder, h.owns rfl hown, (h.hand f (by simp [Pc.hand, hhand.1]) hhand).1,
      (h.pid_eq hholder).trans hpid, h.tidy rfl hown.1 htidy⟩
  | clearState f b =>
    obtain ⟨hholder, hown, hpid, hplace⟩ := ho
    refine ⟨h.holder f hholder, h.owns rfl hown, (h.pid_eq hholder).trans hpid, ?_⟩
    split at hplace
    · rw [if_pos ‹_›]
      exact hplace
    · rw [if_neg ‹_›]
      obtain ⟨hhand, _, hnext⟩ := h.hand f (by simp [Pc.hand, *]) hplace.1
      exact ⟨hhand, hnext.trans hplace.2.1, h.tidy rfl hown.1 hplace.2.2⟩
  | unlatchBucket f b =>
    obtain ⟨hholder, hown, htidy, hplace⟩ := ho
    refine ⟨h.holder f hholder, h.owns rfl hown, h.tidy rfl hown.1 htidy, fun hf => ?_⟩
    obtain ⟨hhand, hpid, hnext⟩ := h.hand f (by simp [Pc.hand, hf]) (hplace hf).1
    exact ⟨hhand, hpid.trans (hplace hf).2.1, hnext.trans (hplace hf).2.2⟩
  | unlatchFrame f =>
    refine ⟨h.holder f ho.1, fun hf => ?_⟩
    obtain ⟨hhand, hpid, hnext⟩ := h.hand f (by simp [Pc.hand, hf]) (ho.2 hf).1
    exact ⟨hhand, hpid.trans (ho.2 hf).2.1, hnext.trans (ho.2 hf).2.2⟩
  | push f =>
    obtain ⟨hhand, hpid, hnext⟩ := h.hand f (by simp [Pc.hand, ho.1.1]) ho.1
    exact ⟨hhand, hpid.trans ho.2.1, hnext.trans ho.2.2⟩

end Undisturbed

end ScaleStore.PageTable
