/-
# Scans while others insert and remove

A scan holds no latch between two leaves.  A run alternates its leaf steps with
any number of completed inserts and removes.  The resumed step starts from the
fence key of a leaf that may be gone by then: after a merge the leaf it reaches
can start below that key, and the ascending scan, which searches it from the key
on, hands over a key it has handed over before.
-/

import ScaleStore.BTree.Refinement

namespace ScaleStore.BTree

universe u v

variable {K : Type u} {V : Type v} [LinearOrder K] [Inhabited K]

/-! ## Budgets do not change results -/

theorem scanStep_mono {entry : PID} {dir : Direction} {func : Callback K V} {fuel fuel' : Nat}
    {h : Heap K V} {first : Bool} {k : K} {seen : List (K × V)}
    {res : List (K × V) × OpResult K} (hrun : scanStep entry dir func fuel h first k seen = .ok res)
    (hle : fuel ≤ fuel') : scanStep entry dir func fuel' h first k seen = .ok res := by
  simp only [scanStep] at hrun ⊢
  split at hrun
  · split at hrun
    · rename_i hdesc
      simp only [descendType_mono hdesc hle]
      exact hrun
    · cases hrun
  · cases hrun

/-! ## Runs -/

/-- A scan between two leaf steps; `next` is the flag and key of the next
traversal, `none` once `scan` has returned. -/
structure ScanState (K : Type u) (V : Type v) where
  heap : Heap K V
  seen : List (K × V)
  next : Option (Bool × K)

def OpResult.next : OpResult K → Option (Bool × K)
  | .finished => none
  | .continue sep => some (false, sep)

/-- A completed call that writes to the tree. -/
inductive Completes (c : Capacity) (entry : PID) : Heap K V → Heap K V → Prop
  | insert {h h' : Heap K V} {k : K} {v : V} {fuel : Nat}
      (hrun : insert c entry k v fuel h = .ok h') : Completes c entry h h'
  | remove {h h' : Heap K V} {k : K} {fuel : Nat} {b : Bool}
      (hrun : remove c entry h k fuel = .ok (h', b)) : Completes c entry h h'
  | update {h h' : Heap K V} {k : K} {callback : V → V}
      (hrun : lookupAndUpdate entry h k callback = .ok h') : Completes c entry h h'

/-- One move: another worker completes a call, or the scan takes its next leaf
step, which `ok` must allow. -/
inductive ScanMove (c : Capacity) (entry : PID) (dir : Direction) (func : Callback K V)
    (ok : ScanState K V → Prop) : ScanState K V → ScanState K V → Prop
  | call {s : ScanState K V} {h' : Heap K V} (hcall : Completes c entry s.heap h') :
      ScanMove c entry dir func ok s { s with heap := h' }
  | leaf {s : ScanState K V} {first : Bool} {k : K} {fuel : Nat} {seen' : List (K × V)}
      {res : OpResult K} (hok : ok s) (hnext : s.next = some (first, k))
      (hrun : scanStep entry dir func fuel s.heap first k s.seen = .ok (seen', res)) :
      ScanMove c entry dir func ok s { s with seen := seen', next := res.next }

/-- A run of `scan` from `k₀` on any tree that calls can build: the heaps it went
through, latest first, and the state it is in. -/
inductive ScanRun (c : Capacity) (dir : Direction) (func : Callback K V)
    (ok : ScanState K V → Prop) (k₀ : K) : List (Heap K V) → ScanState K V → Prop
  | start {h : Heap K V} (hbuilt : Relation.ReflTransGen (Completes c entryPage) create h) :
      ScanRun c dir func ok k₀ [h] ⟨h, [], some (true, k₀)⟩
  | move {hs : List (Heap K V)} {s s' : ScanState K V} (hrun : ScanRun c dir func ok k₀ hs s)
      (hmove : ScanMove c entryPage dir func ok s s') :
      ScanRun c dir func ok k₀ (s'.heap :: hs) s'

/-- A key is bound when a lookup on the tree at rest finds it. -/
def BoundIn (h : Heap K V) (j : K) : Prop := ∃ v, lookup entryPage h j = .ok v

/-- Scan order on keys. -/
def Before (dir : Direction) (a b : K) : Prop :=
  match dir with
  | .asc => a < b
  | .desc => b < a

/-- Keys that the scan has behind it when it resumes from `k`. -/
def Behind (dir : Direction) (k j : K) : Prop :=
  match dir with
  | .asc => j ≤ k
  | .desc => k < j

/-- Keys a scan from `k₀` should visit. -/
def InScan (dir : Direction) (k₀ j : K) : Prop :=
  match dir with
  | .asc => k₀ ≤ j
  | .desc => j ≤ k₀

/-- What a state of a scan run should satisfy: keys are handed over in strict
scan order, and when the scan has returned without being stopped by the
callback, every key of the range that was bound all along was handed over once. -/
structure VisitsOnce (dir : Direction) (func : Callback K V) (k₀ : K) (hs : List (Heap K V))
    (s : ScanState K V) : Prop where
  ordered : (s.seen.map Prod.fst).Pairwise (Before dir)
  once : s.next = none → (s.seen = [] ∨ func s.seen = true) → ∀ j, InScan dir k₀ j →
    (∀ h ∈ hs, BoundIn h j) → (s.seen.map Prod.fst).count j = 1

/-- A resumed ascending step does not reach a leaf with the resume key in it when
that key has been handed over already. -/
def ResumesCleanly (dir : Direction) (s : ScanState K V) : Prop :=
  dir = .asc → ∀ k, s.next = some (false, k) → k ∈ s.seen.map Prod.fst →
    ∀ root height fuel parent cur l, s.heap.page entryPage = .entry root height →
      descendType s.heap (nextNode .asc false k) fuel entryPage root = .ok (parent, cur) →
      s.heap.page cur = .leaf l → l.find k = none

/-! ## The invariant of a run -/

variable {c : Capacity} {dir : Direction} {func : Callback K V} {k₀ : K}

/-- The keys a run still owes to the callback are those ahead of its resume key. -/
def Covered (dir : Direction) (func : Callback K V) (k₀ : K) (hs : List (Heap K V))
    (s : ScanState K V) : Prop :=
  match s.next with
  | some (true, k) => k = k₀ ∧ s.seen = []
  | some (false, k) => (∀ e ∈ s.seen, Behind dir k e.1) ∧
      ∀ j, InScan dir k₀ j → (∀ h ∈ hs, BoundIn h j) → Behind dir k j → j ∈ s.seen.map Prod.fst
  | none => (s.seen = [] ∨ func s.seen = true) →
      ∀ j, InScan dir k₀ j → (∀ h ∈ hs, BoundIn h j) → j ∈ s.seen.map Prod.fst

structure ScanInv (c : Capacity) (dir : Direction) (func : Callback K V) (k₀ : K)
    (hs : List (Heap K V)) (s : ScanState K V) : Prop where
  tree : ∃ G root height, TreeInv c entryPage s.heap G root height
  ordered : (s.seen.map Prod.fst).Pairwise (Before dir)
  covered : Covered dir func k₀ hs s

theorem TreeInv.boundIn_iff {h : Heap K V} {G : Layout K} {root : PID} {height : Nat}
    (inv : TreeInv c entryPage h G root height) (j : K) : BoundIn h j ↔ ∃ v, Binds h G j v := by
  rcases inv.lookup j with ⟨v, hrun, hb⟩ | ⟨hrun, hb⟩
  · exact ⟨fun _ => ⟨v, hb⟩, fun _ => ⟨v, hrun⟩⟩
  · constructor
    · rintro ⟨w, hw⟩
      rw [hrun] at hw
      cases hw
    · rintro ⟨w, hw⟩
      exact absurd hw (hb w)

/-- More heaps ask for less. -/
theorem Covered.mono {hs : List (Heap K V)} {s : ScanState K V} (hc : Covered dir func k₀ hs s)
    (h h' : Heap K V) : Covered dir func k₀ (h :: hs) { s with heap := h' } := by
  have hless : ∀ j, (∀ x ∈ h :: hs, BoundIn x j) → ∀ x ∈ hs, BoundIn x j :=
    fun j hj x hx => hj x (List.mem_cons_of_mem h hx)
  rcases s with ⟨heap, seen, _ | ⟨_ | _, k⟩⟩
  · exact fun hnot j hj hbound => hc hnot j hj (hless j hbound)
  · exact ⟨hc.1, fun j hj hbound hk => hc.2 j hj (hless j hbound) hk⟩
  · exact hc

omit [Inhabited K] in
/-- The share of a leaf is handed over in strict scan order. -/
theorem share_ordered {l : Leaf K V} (hs : l.Sorted) (dir : Direction) (k : K) :
    ((share dir k l).map Prod.fst).Pairwise (Before dir) := by
  rw [List.pairwise_map]
  cases dir with
  | asc => exact hs.filter _
  | desc => exact List.pairwise_reverse.mpr (hs.filter _)

/-- A leaf step, from what its leaf hands over: the share lies ahead of
everything handed over before, ends at the fence, and leaves no key out. -/
theorem ScanInv.leaf_step {hs : List (Heap K V)} {s : ScanState K V} {l : Leaf K V} {k : K}
    {fence : FenceKey K} (hinv : ScanInv c dir func k₀ hs s) (hsorted : l.Sorted)
    (hahead : ∀ e ∈ s.seen, ∀ x ∈ share dir k l, Before dir e.1 x.1)
    (hbehind : ∀ b ∈ fence, (∀ e ∈ s.seen, Behind dir b e.1) ∧
      ∀ x ∈ share dir k l, Behind dir b x.1)
    (hcover : ∀ j, InScan dir k₀ j → (∀ h ∈ s.heap :: hs, BoundIn h j) →
      (∀ b ∈ fence, Behind dir b j) →
      j ∈ s.seen.map Prod.fst ∨ j ∈ (share dir k l).map Prod.fst)
    {seen' : List (K × V)} {res : OpResult K}
    (hres : scanResult (feed func s.seen (share dir k l)) fence = (seen', res)) :
    ScanInv c dir func k₀ (s.heap :: hs) { s with seen := seen', next := res.next } := by
  obtain ⟨ys, hpre, hseen, hall, hstop⟩ := feed_prefix func s.seen (share dir k l)
  have hys : ∀ x ∈ ys, x ∈ share dir k l := fun x hx => hpre.subset hx
  have hordered : ((s.seen ++ ys).map Prod.fst).Pairwise (Before dir) := by
    rw [List.map_append]
    refine List.pairwise_append.mpr ⟨hinv.ordered, ?_, ?_⟩
    · exact (share_ordered hsorted dir k).sublist (hpre.sublist.map _)
    · intro a ha b hb
      obtain ⟨e, he, rfl⟩ := List.mem_map.mp ha
      obtain ⟨x, hx, rfl⟩ := List.mem_map.mp hb
      exact hahead e he x (hys x hx)
  cases hfed : (feed func s.seen (share dir k l)).2 with
  | false =>
      simp only [scanResult, hfed, Bool.false_eq_true, if_false, Prod.mk.injEq] at hres
      obtain ⟨rfl, rfl⟩ := hres
      refine ⟨hinv.tree, by rw [hseen]; exact hordered, ?_⟩
      -- the callback has stopped the scan, so nothing is owed
      intro hnot
      rcases hnot with hnil | htrue
      · rw [hseen] at hnil
        exact absurd (List.append_eq_nil_iff.mp hnil).2 (hstop hfed).2
      · rw [(hstop hfed).1] at htrue
        cases htrue
  | true =>
      simp only [scanResult, hfed, if_true, Prod.mk.injEq] at hres
      obtain ⟨rfl, rfl⟩ := hres
      rw [hall hfed] at hseen hordered
      have hmem : ∀ j, InScan dir k₀ j → (∀ h ∈ s.heap :: hs, BoundIn h j) →
          (∀ b ∈ fence, Behind dir b j) → j ∈ (s.seen ++ share dir k l).map Prod.fst := by
        intro j hj hbound hfence
        rw [List.map_append, List.mem_append]
        exact hcover j hj hbound hfence
      refine ⟨hinv.tree, by rw [hseen]; exact hordered, ?_⟩
      rw [hseen]
      cases fence with
      | none =>
          intro _ j hj hbound
          exact hmem j hj hbound (by simp)
      | some b =>
          refine ⟨?_, fun j hj hbound hb => hmem j hj hbound (by simpa using hb)⟩
          intro e he
          rcases List.mem_append.mp he with he | he
          · exact (hbehind b rfl).1 e he
          · exact (hbehind b rfl).2 e he

/-- A completed call keeps the invariant of the tree. -/
theorem Completes.inv {h h' : Heap K V} (hcall : Completes c entryPage h h')
    (hinv : ∃ G root height, TreeInv c entryPage h G root height) :
    ∃ G root height, TreeInv c entryPage h' G root height := by
  obtain ⟨G, root, height, inv⟩ := hinv
  cases hcall with
  | @insert k v fuel hrun =>
      obtain ⟨h'', G', root', height', bound, hbig, hinv', _⟩ := inv.insert k v
      have hsame := (insert_mono hrun (Nat.le_max_left fuel bound)).symm.trans
        (hbig _ (Nat.le_max_right fuel bound))
      obtain rfl := Except.ok.inj hsame
      exact ⟨G', root', height', hinv'⟩
  | @remove k fuel b hrun =>
      obtain ⟨h'', G', b', hbig, hinv', _⟩ := inv.remove k
      have hsame := (remove_mono hrun (Nat.le_max_left fuel (height + 1))).symm.trans
        (hbig _ (Nat.le_max_right fuel (height + 1)))
      obtain ⟨rfl, _⟩ := Prod.mk.inj (Except.ok.inj hsame)
      exact ⟨G', root, height, hinv'⟩
  | @update k f hrun =>
      rcases inv.lookupAndUpdate k f with ⟨v, h'', hrun', _, hinv', _⟩ | ⟨hrun', _⟩
      · obtain rfl := Except.ok.inj (hrun.symm.trans hrun')
        exact ⟨G, root, height, hinv'⟩
      · rw [hrun] at hrun'
        cases hrun'

/-- A key of a leaf's region that is bound now is in the leaf. -/
theorem TreeInv.mem_keys_of_bound {h : Heap K V} {G : Layout K} {root pid : PID} {height : Nat}
    (inv : TreeInv c entryPage h G root height) {r : Region K} {l : Leaf K V}
    (hG : G pid = some r) (hl : h.page pid = .leaf l) {j : K} (hj : r.Holds j)
    (hbound : BoundIn h j) : ∃ v, (j, v) ∈ l.entries := by
  obtain ⟨v, hv⟩ := (inv.boundIn_iff j).mp hbound
  exact ⟨v, (inv.binds_iff_mem hG hl hj v).mp hv⟩

/-- The scan's own step, in either direction. -/
theorem ScanInv.scan_step {hs : List (Heap K V)} {s : ScanState K V}
    (hinv : ScanInv c dir func k₀ hs s) (hclean : ResumesCleanly dir s) {first : Bool} {k : K}
    {fuel : Nat} {seen' : List (K × V)} {res : OpResult K} (hnext : s.next = some (first, k))
    (hrun : scanStep entryPage dir func fuel s.heap first k s.seen = .ok (seen', res)) :
    ScanInv c dir func k₀ (s.heap :: hs) { s with seen := seen', next := res.next } := by
  obtain ⟨G, root, height, inv⟩ := hinv.tree
  obtain ⟨parent, pid, r, l, hG, hl, hr, hdesc, hbig⟩ := inv.scanStep dir func first k
  have hok := inv.leafOK hG hl
  have hres : scanResult (feed func s.seen (share dir k l)) (r.fence dir) = (seen', res) :=
    Except.ok.inj ((hbig _ (Nat.le_max_right fuel (height + 1)) s.seen).symm.trans
      (scanStep_mono hrun (Nat.le_max_left fuel (height + 1))))
  have hcov := hinv.covered
  rw [Covered, hnext] at hcov
  have hin : ∀ j, r.Holds j → (∀ h ∈ s.heap :: hs, BoundIn h j) → ∃ v, (j, v) ∈ l.entries :=
    fun j hj hbound => inv.mem_keys_of_bound hG hl hj (hbound s.heap List.mem_cons_self)
  have hold : ∀ j, (∀ h ∈ s.heap :: hs, BoundIn h j) → ∀ h ∈ hs, BoundIn h j :=
    fun j hj h hh => hj h (List.mem_cons_of_mem _ hh)
  cases dir with
  | asc =>
      have hshare : ∀ j v, (j, v) ∈ l.entries → k ≤ j → j ∈ (share .asc k l).map Prod.fst :=
        fun j v hv hle =>
          List.mem_map.mpr ⟨(j, v), List.mem_filter.mpr ⟨hv, by simpa using hle⟩, rfl⟩
      have hge : ∀ x ∈ share .asc k l, x ∈ l.entries ∧ k ≤ x.1 := by
        intro x hx
        simpa [share] using hx
      cases first with
      | true =>
          obtain ⟨rfl, hnil⟩ := hcov
          refine hinv.leaf_step hok.sorted (by simp [hnil]) ?_ ?_ hres
          · intro b hb
            refine ⟨by simp [hnil], fun x hx => ?_⟩
            exact (hok.mem_region x (hge x hx).1).2 b hb
          · intro j hj hbound hfence
            have hk : r.Holds j := ⟨fun a ha => lt_of_lt_of_le (hr.1 a ha) hj, hfence⟩
            obtain ⟨v, hv⟩ := hin j hk hbound
            exact Or.inr (hshare j v hv hj)
      | false =>
          obtain ⟨hbehind, hdone⟩ := hcov
          refine hinv.leaf_step hok.sorted ?_ ?_ ?_ hres
          · -- only the resume key itself could be handed over again
            intro e he x hx
            obtain ⟨hxl, hkx⟩ := hge x hx
            refine lt_of_le_of_ne ((hbehind e he).trans hkx) fun heq => ?_
            have hek : e.1 = k := le_antisymm (hbehind e he) (heq ▸ hkx)
            have hnone := hclean rfl k hnext (List.mem_map.mpr ⟨e, he, hek⟩) root height
              (height + 1) parent pid l inv.entry_page (hdesc _ (Nat.lt_succ_self _)) hl
            refine (Leaf.find_eq_none_iff hok.sorted).mp hnone x.2 ?_
            rwa [← hek, heq]
          · intro b hb
            refine ⟨fun e he => (hbehind e he).trans (le_of_lt (hr.2 b hb)), fun x hx => ?_⟩
            exact (hok.mem_region x (hge x hx).1).2 b hb
          · intro j hj hbound hfence
            rcases le_or_gt j k with hle | hgt
            · exact Or.inl (hdone j hj (hold j hbound) hle)
            · have hk : r.Holds j := ⟨fun a ha => lt_of_le_of_lt (hr.1 a ha) hgt, hfence⟩
              obtain ⟨v, hv⟩ := hin j hk hbound
              exact Or.inr (hshare j v hv (le_of_lt hgt))
  | desc =>
      have hk : r.Holds k := hr
      have hshare : ∀ j v, (j, v) ∈ l.entries → j ≤ k → j ∈ (share .desc k l).map Prod.fst :=
        fun j v hv hle => List.mem_map.mpr ⟨(j, v), List.mem_reverse.mpr
          (List.mem_filter.mpr ⟨hv, by simpa using hle⟩), rfl⟩
      have hle : ∀ x ∈ share .desc k l, x ∈ l.entries ∧ x.1 ≤ k := by
        intro x hx
        simpa [share] using hx
      have hfence_share : ∀ b ∈ r.lower, ∀ x ∈ share .desc k l, b < x.1 :=
        fun b hb x hx => (hok.mem_region x (hle x hx).1).1 b hb
      have hahead : ∀ j, InScan .desc k₀ j → (∀ h ∈ s.heap :: hs, BoundIn h j) →
          (∀ b ∈ r.lower, b < j) → j ≤ k → j ∈ (share .desc k l).map Prod.fst := by
        intro j _ hbound hfence hjk
        obtain ⟨v, hv⟩ := hin j ⟨hfence, fun b hb => hjk.trans (hk.2 b hb)⟩ hbound
        exact hshare j v hv hjk
      cases first with
      | true =>
          obtain ⟨rfl, hnil⟩ := hcov
          refine hinv.leaf_step hok.sorted (by simp [hnil]) ?_ ?_ hres
          · intro b hb
            exact ⟨by simp [hnil], hfence_share b hb⟩
          · intro j hj hbound hfence
            exact Or.inr (hahead j hj hbound hfence hj)
      | false =>
          obtain ⟨hbehind, hdone⟩ := hcov
          refine hinv.leaf_step hok.sorted ?_ ?_ ?_ hres
          · intro e he x hx
            exact lt_of_le_of_lt (hle x hx).2 (hbehind e he)
          · intro b hb
            exact ⟨fun e he => (hk.1 b hb).trans (hbehind e he), hfence_share b hb⟩
          · intro j hj hbound hfence
            rcases le_or_gt j k with hjk | hgt
            · exact Or.inr (hahead j hj hbound hfence hjk)
            · exact Or.inl (hdone j hj (hold j hbound) hgt)

/-- Every state of a run whose resumed ascending steps are clean satisfies the
invariant. -/
theorem ScanRun.inv {hs : List (Heap K V)} {s : ScanState K V}
    (hrun : ScanRun c dir func (ResumesCleanly dir) k₀ hs s) : ScanInv c dir func k₀ hs s := by
  induction hrun with
  | start hbuilt =>
      refine ⟨?_, List.Pairwise.nil, rfl, rfl⟩
      induction hbuilt with
      | refl =>
          obtain ⟨G, inv, _⟩ : ∃ G : Layout K, TreeInv c entryPage (create : Heap K V) G 1 0 ∧ _ :=
            create_inv c
          exact ⟨G, 1, 0, inv⟩
      | tail _ hcall ih => exact hcall.inv ih
  | move _ hmove ih =>
      cases hmove with
      | call hcall => exact ⟨hcall.inv ih.tree, ih.ordered, ih.covered.mono _ _⟩
      | leaf hclean hnext hrun => exact ih.scan_step hclean hnext hrun

omit [Inhabited K] in
/-- Keys in strict scan order are there at most once. -/
theorem before_nodup {keys : List K} (h : keys.Pairwise (Before dir)) : keys.Nodup := by
  refine h.imp ?_
  intro a b hab
  cases dir with
  | asc => exact ne_of_lt hab
  | desc => exact ne_of_gt hab

/-- Whatever inserts and removes come between its leaf steps, a scan hands its
keys over in strict scan order and leaves out none that is bound all along, as
long as no ascending step resumes in a leaf that still has the resume key and
that key was handed over before. -/
theorem scan_visits_once_of_resumesCleanly (c : Capacity) (dir : Direction)
    (func : Callback K V) (k₀ : K) (hs : List (Heap K V)) (s : ScanState K V)
    (hrun : ScanRun c dir func (ResumesCleanly dir) k₀ hs s) :
    VisitsOnce dir func k₀ hs s := by
  have hinv := hrun.inv
  refine ⟨hinv.ordered, ?_⟩
  intro hnext hnot j hj hbound
  have hcov := hinv.covered
  rw [Covered, hnext] at hcov
  exact List.count_eq_one_of_mem (before_nodup hinv.ordered) (hcov hnot j hj hbound)

/-! ## Scripted runs -/

section Script

/-- Completed inserts (left) and removes (right), one after another. -/
def writes (c : Capacity) (fuel : Nat) : Heap Nat Nat → List (Nat ⊕ Nat) → Option (Heap Nat Nat)
  | h, [] => some h
  | h, .inl k :: rest =>
      match insert c entryPage k k fuel h with
      | .ok h' => writes c fuel h' rest
      | .error _ => none
  | h, .inr k :: rest =>
      match remove c entryPage h k fuel with
      | .ok (h', _) => writes c fuel h' rest
      | .error _ => none

theorem writes_completes {c : Capacity} {fuel : Nat} {h h' : Heap Nat Nat} {ops : List (Nat ⊕ Nat)}
    (hrun : writes c fuel h ops = some h') :
    Relation.ReflTransGen (Completes c entryPage) h h' := by
  induction ops generalizing h with
  | nil =>
      obtain rfl := Option.some.inj hrun
      exact .refl
  | cons op ops ih =>
      cases op with
      | inl k =>
          simp only [writes] at hrun
          split at hrun
          · rename_i hins
            exact .head (.insert hins) (ih hrun)
          · cases hrun
      | inr k =>
          simp only [writes] at hrun
          split at hrun
          · rename_i hrem
            exact .head (.remove hrem) (ih hrun)
          · cases hrun

/-- Calls that complete between two leaf steps of a run. -/
theorem ScanRun.calls {ok : ScanState K V → Prop} {hs : List (Heap K V)} {s : ScanState K V}
    (hrun : ScanRun c dir func ok k₀ hs s) {h' : Heap K V}
    (hcalls : Relation.ReflTransGen (Completes c entryPage) s.heap h') :
    ∃ hs', ScanRun c dir func ok k₀ hs' { s with heap := h' } := by
  induction hcalls with
  | refl => exact ⟨hs, hrun⟩
  | tail _ hcall ih =>
      obtain ⟨hs', hrun'⟩ := ih
      exact ⟨_, .move hrun' (.call hcall)⟩

/-- Two leaf steps of an ascending scan of the keys from `k₀`, with calls before
the first and between the two; `check` is asked before the second. -/
def twoLeaves (check : Heap Nat Nat → Nat → List (Nat × Nat) → Bool) (c : Capacity)
    (before between : List (Nat ⊕ Nat)) (k₀ : Nat) : Option (List Nat) :=
  match writes c 10 create before with
  | none => none
  | some h =>
      match scanStep entryPage .asc (fun _ => true) 10 h true k₀ [] with
      | .ok (seen, .continue sep) =>
          match writes c 10 h between with
          | none => none
          | some h' =>
              if check h' sep seen then
                match scanStep entryPage .asc (fun _ => true) 10 h' false sep seen with
                | .ok (seen', _) => some (seen'.map Prod.fst)
                | .error _ => none
              else none
      | _ => none

theorem twoLeaves_run {check : Heap Nat Nat → Nat → List (Nat × Nat) → Bool} {c : Capacity}
    {before between : List (Nat ⊕ Nat)} {k₀ : Nat} {ks : List Nat}
    (hscript : twoLeaves check c before between k₀ = some ks) (ok : ScanState Nat Nat → Prop)
    (hfirst : ∀ s k, s.next = some (true, k) → ok s)
    (hsecond : ∀ s k, s.next = some (false, k) → check s.heap k s.seen = true → ok s) :
    ∃ hs s, ScanRun c .asc (fun _ => true) ok k₀ hs s ∧ s.seen.map Prod.fst = ks := by
  unfold twoLeaves at hscript
  split at hscript
  · cases hscript
  · rename_i h hbefore
    have hstart : ScanRun c .asc (fun _ => true) ok k₀ [h] ⟨h, [], some (true, k₀)⟩ :=
      .start (writes_completes hbefore)
    split at hscript
    · rename_i seen sep hleaf
      have hone := ScanRun.move hstart (.leaf (hfirst _ k₀ rfl) rfl hleaf)
      split at hscript
      · cases hscript
      · rename_i h' hbetween
        obtain ⟨hs, htwo⟩ := hone.calls (writes_completes hbetween)
        split at hscript
        · rename_i hcheck
          split at hscript
          · rename_i seen' res hleaf'
            obtain rfl := Option.some.inj hscript
            exact ⟨_, _, .move htwo (.leaf (hsecond _ sep rfl hcheck) rfl hleaf'), rfl⟩
          · cases hscript
        · cases hscript
    · cases hscript

/-- Leaves of at most four entries. -/
def smallNodes : Capacity := ⟨4, 5, by decide, by decide⟩

/-- With seven keys in three leaves, the scan hands over 1 and 2; then key 1 is
removed, and a second remove merges the first two leaves, which takes the
resumed step back to the leaf with 2 in it. -/
theorem scan_asc_hands_over_twice :
    ¬ ∀ (c : Capacity) (dir : Direction) (func : Callback Nat Nat) (k₀ : Nat)
      (hs : List (Heap Nat Nat)) (s : ScanState Nat Nat),
      ScanRun c dir func (fun _ => True) k₀ hs s → VisitsOnce dir func k₀ hs s := by
  intro hall
  have hscript : twoLeaves (fun _ _ _ => true) smallNodes
      [.inl 1, .inl 2, .inl 3, .inl 4, .inl 5, .inl 6, .inl 7] [.inr 1, .inr 1] 1 =
      some [1, 2, 2, 3, 4] := by decide +kernel
  obtain ⟨hs, s, hrun, hseen⟩ := twoLeaves_run hscript (fun _ => True)
    (fun _ _ _ => trivial) (fun _ _ _ _ => trivial)
  have hordered := (hall _ _ _ _ _ _ hrun).ordered
  rw [hseen] at hordered
  exact absurd hordered (by simp [Before])

/-- Does the leaf above the resume key keep clear of that key? -/
def resumeCheck (h : Heap Nat Nat) (k : Nat) (_seen : List (Nat × Nat)) : Bool :=
  match h.page entryPage with
  | .entry root _ =>
      match descendType h (nextNode .asc false k) 10 entryPage root with
      | .ok (_, cur) =>
          match h.page cur with
          | .leaf l => (l.find k).isNone
          | _ => false
      | .error _ => false
  | _ => false

theorem resumesCleanly_of_check {s : ScanState Nat Nat} {k : Nat} (hnext : s.next = some (false, k))
    (hcheck : resumeCheck s.heap k s.seen = true) : ResumesCleanly .asc s := by
  intro _ k' hk' _ root height fuel parent cur l hentry hdesc hl
  obtain rfl : k' = k := by simpa [hnext] using hk'.symm
  simp only [resumeCheck, hentry] at hcheck
  split at hcheck
  · rename_i parent' cur' hdesc'
    have hsame := (descendType_mono hdesc (Nat.le_max_left fuel 10)).symm.trans
      (descendType_mono hdesc' (Nat.le_max_right fuel 10))
    obtain ⟨_, rfl⟩ := Prod.mk.inj (Except.ok.inj hsame)
    rw [hl] at hcheck
    simpa using hcheck
  · cases hcheck

/-- The same tree with an insert between the two steps: nothing is merged. -/
theorem scan_visits_once_three_leaves :
    ∃ (hs : List (Heap Nat Nat)) (s : ScanState Nat Nat),
      ScanRun smallNodes .asc (fun _ => true) (ResumesCleanly .asc) 1 hs s ∧
      s.seen.map Prod.fst = [1, 2, 3, 4] ∧ VisitsOnce .asc (fun _ => true) 1 hs s := by
  have hscript : twoLeaves resumeCheck smallNodes
      [.inl 1, .inl 2, .inl 3, .inl 4, .inl 5, .inl 6, .inl 7] [.inl 8] 1 =
      some [1, 2, 3, 4] := by decide +kernel
  obtain ⟨hs, s, hrun, hseen⟩ := twoLeaves_run hscript (ResumesCleanly .asc)
    (by intro s k hk _ k' hk'; simp [hk] at hk')
    (fun s k hk hcheck => resumesCleanly_of_check hk hcheck)
  exact ⟨hs, s, hrun, hseen, scan_visits_once_of_resumesCleanly _ _ _ _ _ _ hrun⟩

end Script

end ScaleStore.BTree
