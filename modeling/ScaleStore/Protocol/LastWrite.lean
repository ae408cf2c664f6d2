/-
# The last write

In every run in which no frame is removed against the owner's word, no READ of a
retrieved page is taken for complete before it has landed and the page is not
reclaimed, every guard shows what the latest exclusive guard has left in the page,
and the owner's frame is clean only while the SSD has it.
-/

import ScaleStore.Protocol.Retrieval

namespace ScaleStore.Protocol

variable {W C : Type} {cfg : Config} {o : NodeID} {node : W → NodeID} {s s' : PageState W C}

/-! ## Allocation -/

section Allocation

variable [DecidableEq W]

theorem Step.disk_of_fresh (h : Fresh o node s) (st : Step cfg o node s s') :
    s'.disk = s.disk := by
  have hcold : ∀ f, s.frame o = some f → f.state ≠ .hot := by
    intro f hf
    cases h with
    | unused hun => simp [(hun.owner f hf).2.2]
    | allocating w _ _ _ _ _ ho =>
      rw [ho] at hf
      obtain rfl := Option.some.inj hf
      simp [allocatedFrame]
  cases st with
  | worker st => cases st <;> rfl
  | handler st => cases st <;> rfl
  | provider st =>
    cases st with
    | writeBack _ _ hf _ hst => exact absurd hst (hcold _ hf)
    | _ => rfl

omit [DecidableEq W] in
theorem Fresh.read (h : Fresh o node s) : s.read = none := by
  cases h with
  | unused hun => exact hun.read
  | allocating _ _ _ _ _ _ _ hr => exact hr

omit [DecidableEq W] in
theorem Fresh.retrieval (h : Fresh o node s) : Retrieval o s := by
  refine .quiet h.read fun f hf => ?_
  cases h with
  | unused hun => simp [(hun.owner f hf).1.1]
  | allocating w _ _ _ _ _ ho =>
    rw [ho] at hf
    simp [← Option.some.inj hf, allocatedFrame]

/-- A page that has just been allocated is dirty on its owner, and nothing is read. -/
theorem Fresh.dirty (hk : s.known = false) (h : Fresh o node s) (st : Step cfg o node s s')
    (hk' : s'.known = true) : s'.read = none ∧ ∃ g, s'.frame o = some g ∧ g.dirty = true ∧
      g.state ≠ .ioSsd ∧ g.holder ≠ some .retriever := by
  have hread := h.read
  cases st with
  | worker st =>
    cases st with
    | @newPage w c _ _ hn _ =>
      refine ⟨hread, newFrame o w c, ?_, rfl, by simp [newFrame], by simp [newFrame]⟩
      simp
    | @allocate w c hpc hf =>
      cases h with
      | unused hun => simp [hun.pc] at hpc
      | allocating w' hn _ hidle _ _ ho =>
        obtain rfl : w = w' := by
          by_contra hne
          simp [hidle w hne] at hpc
        exact ⟨hread, allocatedFrame (node w), by simp [hn.symm, ho], rfl,
          by simp [allocatedFrame], by simp [allocatedFrame]⟩
    | _ => simp_all
  | handler st => cases st <;> simp_all
  | provider st => cases st <;> simp_all

theorem Fresh.contents (hk : s.known = false) (h : Fresh o node s) (st : Step cfg o node s s')
    (hk' : s'.known = true) : Accounted o node s' ∧ Contents o node s' := by
  obtain ⟨-, g, hg, hdirty, hst, -⟩ := h.dirty hk st hk'
  rcases h.step hk st with ⟨hk₀, -⟩ | ⟨-, hal, w, hpc, ⟨f, hf, hpage⟩, hlive, hidle⟩
  · simp [hk'] at hk₀
  · have hgdirty : ∀ g', s'.frame o = some g' → g'.dirty = true := by
      intro g' hg'
      rw [hg] at hg'
      exact Option.some.inj hg' ▸ hdirty
    refine ⟨⟨⟨hal.nodes, hal.waits, _, hal.ok⟩, _, hal.ok, hal.exact⟩, ⟨?_, ?_⟩, ?_, ?_, ?_⟩
    · -- the only copy is the one of the worker that has allocated the page
      rintro n f' hf' (⟨hl, -⟩ | ⟨w', -, ha⟩)
      · obtain ⟨c, hc, -⟩ : ∃ c, (ledger o node _).live n = some c ∧ _ := hl.live hf'
        obtain ⟨m, hm, -, hothers⟩ := hal.copy
        have hnm : n = m := by
          by_contra hne
          rw [hothers n hne] at hc
          cases hc
        have hwm : node w = m := by
          by_contra hne
          rw [hothers _ hne] at hlive
          cases hlive
        rw [hnm, ← hwm, hf] at hf'
        obtain rfl := Option.some.inj hf'
        exact hpage
      · by_cases hw : w' = w
        · subst hw
          simp [hpc, Pc.acquired] at ha
        · simp [hidle w' hw, Pc.acquired] at ha
    · intro w' v c hpc'
      by_cases hw : w' = w
      · subst hw
        simp [hpc] at hpc'
      · simp [hidle w' hw] at hpc'
    · exact fun hd => absurd (hd g hg hdirty) hst
    · exact fun _ _ g' _ _ _ hg' => hgdirty g' hg'
    · exact fun _ g' hg' _ _ => hgdirty g' hg'

end Allocation

/-! ## Runs -/

/-- What holds in the runs that remove no frame they should have kept and overlook no READ. -/
structure Intact (o : NodeID) (node : W → NodeID) (s : PageState W C) : Prop where
  known : s.known = true → Accounted o node s ∧ Contents o node s
  fresh : s.known = false → Fresh o node s ∧ s.disk = s.last
  retrieval : Retrieval o s

theorem Init.contents (h : Init s) : Contents o node s := by
  refine ⟨⟨?_, ?_⟩, fun _ => h.last.symm, ?_, ?_⟩
  · intro n f hf
    simp [h.frame n] at hf
  · intro w v c hpc
    simp [h.pc w] at hpc
  · intro n f g _ hf
    simp [h.frame n] at hf
  · intro w g hg
    simp [h.frame o] at hg

theorem Init.intact (h : Init s) : Intact o node s := by
  have hun := h.unused (o := o)
  obtain ⟨hlive, hacq, hleft⟩ : (∀ n, (ledger o node s).live n = none) ∧
      (∀ w, (ledger o node s).acq w = none) ∧ ∀ n, (ledger o node s).left n = none :=
    hun.ledger_empty
  have hdir : (ledger o node s).dir = ∅ := (ledger_none (h.frame o)).2
  refine ⟨fun _ => ⟨⟨hun.coherent, _, .empty hlive hacq, ?_⟩, h.contents⟩,
    fun _ => ⟨.unused hun (h.frame o), h.last.symm⟩, .quiet h.read (by simp [h.frame o])⟩
  exact Ledger.Exact.quiet (by simp [hdir]) hacq hleft

theorem Intact.step [DecidableEq W] (h : Intact o node s) (st : Step cfg o node s s')
    (hk : Keeps cfg node s s') (ha : s.astray = false) (hov : ¬ Overlooks s s') :
    Intact o node s' := by
  cases hkn : s.known with
  | true =>
    obtain ⟨hacc, hc⟩ := h.known hkn
    have hacc' := st.accounted hkn hacc hk.acknowledged fun hr ha => hk.claimed hr ha.reclaims
    refine ⟨fun _ => ⟨hacc', st.contents hkn hacc hc h.retrieval hk⟩,
      fun hk' => ?_, st.retrieval hkn hacc.coherent hc h.retrieval ha hov⟩
    simp [st.known hkn] at hk'
  | false =>
    obtain ⟨hf, hdisk⟩ := h.fresh hkn
    refine ⟨hf.contents hkn st, fun hk' => ?_, ?_⟩
    · rcases hf.step hkn st with ⟨-, hf', hlast⟩ | ⟨hk₁, -⟩
      · exact ⟨hf', (st.disk_of_fresh hf).trans (hdisk.trans hlast.symm)⟩
      · simp [hk'] at hk₁
    · rcases hf.step hkn st with ⟨-, hf', -⟩ | ⟨hk₁, -⟩
      · exact hf'.retrieval
      · obtain ⟨hread, g, hg, -, -, hh⟩ := hf.dirty hkn st hk₁
        refine .quiet hread fun f hf' => ?_
        rw [hg] at hf'
        exact Option.some.inj hf' ▸ hh

section World

variable {PID : Type} [DecidableEq PID] [DecidableEq W] {owner : PID → NodeID}
  {σ : PID → PageState W C}

/-- The runs of all pages that keep the frames of `p` as its owner says and do not reclaim it, and
in which no READ is overlooked. -/
def keeping (cfg : Config) (owner : PID → NodeID) (node : W → NodeID) (p : PID) :
    System (PID → PageState W C) :=
  (world cfg owner node).restrict fun σ σ' =>
    Keeps cfg node (σ p) (σ' p) ∧ ∀ q, ¬ Overlooks (σ q) (σ' q)

theorem nothing_astray {good : (PID → PageState W C) → (PID → PageState W C) → Prop}
    (h : ((world cfg owner node).restrict good).Reachable σ)
    (hgood : ∀ σ σ', good σ σ' → ∀ q, ¬ Overlooks (σ q) (σ' q)) (q : PID) :
    (σ q).astray = false := by
  refine System.Reachable.invariant (P := fun σ => (σ q).astray = false) ?_ ?_ h
  · exact fun σ hσ => (hσ q).astray
  · intro σ σ' _ hσ hst
    by_contra hne
    exact hgood σ σ' hst.2 q ⟨hσ, by simpa using hne⟩

theorem keeping_intact {p : PID} (h : (keeping cfg owner node p).Reachable σ) :
    Intact (owner p) node (σ p) := by
  apply System.Reachable.invariant _ _ h
  · exact fun σ hσ => (hσ p).intact
  · rintro σ σ' hrun hσ ⟨⟨q, s', hst, rfl⟩, hk, hov⟩
    have hastray := nothing_astray hrun fun _ _ h => h.2
    by_cases hq : p = q
    · subst hq
      cases hst with
      | step hst =>
        have hov' := hov p
        rw [Function.update_self] at hk hov' ⊢
        exact hσ.step hst hk (hastray p) hov'
      | overwritten ha => simp [hastray] at ha
    · rw [Function.update_of_ne hq]
      exact hσ

/-! ## What guards see -/

/-- Every guard of the page shows what the latest exclusive guard has left in it. -/
structure SeesLast (node : W → NodeID) (s : PageState W C) : Prop where
  exclusive : ∀ w, s.pc w = .guardX → ∃ f, s.frame (node w) = some f ∧ f.page = some s.last
  shared : ∀ w v, s.pc w = .guardS v → ∃ f, s.frame (node w) = some f ∧ f.page = some s.last
  /-- `c` has been read through the guard, and `retry` would return false. -/
  optimistic : ∀ w v c, s.pc w = .guardO v (some c) → s.version (node w) = v → c = s.last

omit [DecidableEq W] in
theorem Contents.seesLast (hn : Nodes o node s) (h : Contents o node s) : SeesLast node s := by
  constructor
  case exclusive =>
    intro w hpc
    obtain ⟨f, hf, hh⟩ := (hn (node w)).holds w rfl (by simp [hpc, Pc.latched])
    obtain ⟨-, -, hhot, -⟩ := hn.fits hpc rfl hf
    have hp := hn.provider_of_worker hf hh
    have hlive : f.Live (node w) (s.provider (node w)) := ⟨hhot.1, hhot.2.1, by simp [hp]⟩
    exact ⟨f, hf, h.pages.page _ f hf (hlive.carries (.inr ⟨w, hh⟩))⟩
  case shared =>
    intro w v hpc
    obtain ⟨f, hf, hhot⟩ := (hn (node w)).reads w rfl (by simp [hpc, Pc.shares])
    have hp : s.provider (node w) ≠ .acked := by
      intro hp
      obtain ⟨g, hg, hh⟩ := (hn (node w)).provides (by simp [hp])
      rw [hf] at hg
      obtain rfl := Option.some.inj hg
      simp [hn.free_of_reader hpc hf] at hh
    have hlive : f.Live (node w) (s.provider (node w)) := ⟨hhot.1, hhot.2.1, hp⟩
    exact ⟨f, hf, h.pages.page _ f hf (hlive.carries (.inl (hn.free_of_reader hpc hf)))⟩
  case optimistic => exact fun w v c hpc hv => h.pages.seen w v c hpc hv

omit [DecidableEq W] in
theorem Fresh.pc (h : Fresh o node s) (w : W) : s.pc w = .idle ∨ s.pc w = .allocate := by
  cases h with
  | unused hun => exact .inl (hun.pc w)
  | allocating w' _ hpc hidle =>
    by_cases hw : w = w'
    · exact .inr (hw ▸ hpc)
    · exact .inl (hidle w hw)

omit [DecidableEq W] in
theorem Fresh.seesLast (h : Fresh o node s) : SeesLast node s := by
  constructor
  · intro w hpc
    rcases h.pc w with h | h <;> simp [hpc] at h
  · intro w v hpc
    rcases h.pc w with h | h <;> simp [hpc] at h
  · intro w v c hpc
    rcases h.pc w with h | h <;> simp [hpc] at h

/-- A page just allocated on its owner. -/
def newPageState : PageState Unit Nat :=
  { ((PageState.start 0 false).setFrame 0 (some (newFrame 0 () 7)) 2).setPc () .guardX with
    known := true, last := 7 }

omit [DecidableEq W] in
theorem not_staleRemoval (h : ∀ n, s.provider n ≠ .refused) : ¬ StaleRemoval s s' := by
  rintro ⟨n, hn, -⟩
  exact h n hn

theorem newPageState_reachable {cfg : Config} : (keeping cfg (fun _ : Unit => 0)
    (fun _ : Unit => 0) ()).Reachable fun _ => newPageState := by
  refine .step (.init fun _ => PageState.start_init 0 false)
    ⟨⟨(), newPageState, .step (.worker (.newPage (w := ()) 7 rfl rfl rfl rfl)), ?_⟩, ⟨?_, ?_⟩, ?_⟩
  · funext x
    simp
  · exact not_staleRemoval (by simp [PageState.start])
  · rintro - ⟨w, hw, -⟩
    simp [PageState.start] at hw
  · rintro - ⟨-, ⟨⟩⟩

/-- Node 1 shares a page of node 0 and offers its frame; the owner refuses, and the frame is
removed nevertheless.  Node 2 wants to write and waits for node 1 to give the page up; node 3 is
to get it from node 2.  Node 1 joins again and gives up, twice, because the invalidation of node 2
is still under way; in between, node 4 moves the page from the frame that node 1 has left behind
and that never had it. -/
def garbageActs : List (Act NodeID Nat) :=
  [.start 1 .shared, .insert 1 9, .requestLoad 1, .loaded, .request 1, .receive 1 0,
    .completeShared 1, .select 1, .refuse 1, .applyStale 1,
    .start 2 .exclusive, .insert 2 9, .request 2, .receive 2 0,
    .start 3 .shared, .insert 3 9, .request 3, .receive 3 2,
    .downgradeFailed 1, .insert 1 9, .request 1, .receive 1 3,
    .invalidateRetry 2 1, .copyFailed 1, .copyAbandoned 1,
    .start 4 .exclusive, .insert 4 9, .request 4, .receive 4 1, .move 4,
    .start 5 .shared, .insert 5 9, .request 5, .receive 5 4,
    .insert 1 9, .request 1, .receive 1 5, .invalidateRetry 2 1, .copyFailed 1, .copyAbandoned 1,
    .invalidate 2 1, .completeExclusive 2, .releaseExclusive 2, .move 3, .completeShared 3,
    .invalidate 4 3, .completeExclusive 4]

/-- Node 4 has an exclusive guard on a page nobody has written. -/
def garbageSeen (s : PageState NodeID Nat) : Bool :=
  match s.pc 4, s.frame 4 with
  | .guardX, some f => f.page ≠ some s.last
  | _, _ => false

/-- Node 1 has written the page and gives it up; the owner finds no completion missing, and node 4
gets the buffer as it was. -/
example : (acts ⟨true, false, false⟩ 0 oneWorker (PageState.start 0 true)
    [.start 1 .exclusive, .insert 1 9, .requestLoad 1, .loaded, .request 1, .receive 1 0,
      .completeExclusive 1, .releaseExclusive 1, .select 1, .accept 1 9, .overlooked, .retrieved,
      .start 4 .exclusive, .insert 4 8, .request 4, .receive 4 0,
      .completeExclusive 4]).any garbageSeen = true := by decide +kernel

/-! ## The owner's frame and the SSD -/

/-- The SSD has the page whenever the owner's frame, free and complete, is clean, and whenever
the owner has no frame. -/
structure CleanSaved (o : NodeID) (s : PageState W C) : Prop where
  clean : ∀ f, s.frame o = some f → f.Latchable → (f.state = .hot ∨ f.state = .evicted) →
    f.dirty = false → s.disk = s.last
  removed : s.frame o = none → s.disk = s.last

/-- Node 5 shares the page of `garbageActs`; the owner retrieves it and writes it to the SSD. -/
def garbageWrittenActs : List (Act NodeID Nat) :=
  garbageActs ++ [.releaseExclusive 4, .move 5, .completeShared 5, .select 5, .accept 5 9, .landed,
    .retrieved, .writeBack]

/-- The owner's frame is clean, and the SSD has a page nobody has written. -/
def garbageSaved (s : PageState NodeID Nat) : Bool :=
  match s.frame 0 with
  | some f => decide (f.Latchable ∧ f.state = .hot ∧ f.dirty = false ∧ s.disk ≠ s.last)
  | none => false

end World

end ScaleStore.Protocol
