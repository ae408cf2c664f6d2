/-
# Pages reclaimed away from their owner

`Buffermanager::reclaimPage` on a node that does not own the page removes the frame
and tells nobody.  The owner's directory goes on naming that node, and with the
frame the only copy of the page is gone: the ledger of the page is dead, and it
stays dead.  Whoever calls `fix` with the old PID has to get the page from a node
that has nothing to give, or from itself, and never returns.
-/

import ScaleStore.Protocol.CircularWait

namespace ScaleStore.Protocol

variable {W C : Type} {cfg : Config} {o : NodeID} {node : W → NodeID} {s s' : PageState W C}

/-- The state after `reclaimPage` by the worker `w` on the node `n`. -/
def PageState.reclaimed [DecidableEq W] (s : PageState W C) (n : NodeID) (w : W) :
    PageState W C :=
  (s.setFrame n none 2).setPc w .idle

/-! ## Inside `fix` -/

/-- Outside `fix` nothing is being acquired. -/
theorem Pc.acquisition_of_idle {p : Pc C} {n : NodeID} (h : p.call = none) :
    p.acquisition n = none := by
  by_contra hne
  obtain ⟨q, hq⟩ := Option.ne_none_iff_exists'.mp hne
  exact Pc.acquisition_call hq h

theorem Pc.view_of_idle {p : Pc C} {f : Frame W C} (h : p.call = none) :
    p.view o f = f.entry := by
  cases p <;> first | rfl | cases h

section Steps

variable [DecidableEq W] {w w' : W} {p : Pc C}

/-- When `w` leaves `fix`, the step is its own. -/
theorem setPc_leaves (h : (s.pc w).call ≠ none) (hout : ((s.setPc w' p).pc w).call = none) :
    w' = w ∧ p.call = none := by
  by_cases hw : w' = w
  · subst hw
    rw [PageState.setPc_pc, Function.update_self] at hout
    exact ⟨rfl, hout⟩
  · rw [PageState.setPc_pc, Function.update_of_ne (Ne.symm hw)] at hout
    exact absurd hout h

/-- A step of a worker outside `fix` is not the step of one inside. -/
theorem update_call {p q : Pc C} (h : (s.pc w).call ≠ none) (hq : s.pc w' = q)
    (hout : q.call = none) : (Function.update s.pc w' p w).call ≠ none := by
  have hw : w ≠ w' := by
    rintro rfl
    exact h (hq ▸ hout)
  rwa [Function.update_of_ne hw]

/-- A worker that leaves `fix` gets a guard, or would have got one if it had not discarded the
page. -/
theorem WorkerStep.leaves_fix (h : (s.pc w).call ≠ none) (st : WorkerStep cfg o node s s')
    (hout : (s'.pc w).call = none) :
    ∃ s'', WorkerStep cfg o node s s'' ∧ ¬ Excluded node s'' (node w) := by
  have hst := st
  cases st with
  | hitExclusive =>
    obtain ⟨rfl, -⟩ := setPc_leaves h hout
    exact ⟨_, hst, fun hx => hx.exclusive _ rfl (Function.update_self ..)⟩
  | hitShared =>
    obtain ⟨rfl, -⟩ := setPc_leaves h hout
    exact ⟨_, hst, fun hx => hx.shared _ _ rfl (Function.update_self ..)⟩
  | hitOptimistic _ _ hv =>
    obtain ⟨rfl, -⟩ := setPc_leaves h hout
    exact ⟨_, hst, fun hx => hx.optimistic _ _ _ rfl (Function.update_self ..) hv.symm⟩
  | completeExclusive =>
    obtain ⟨rfl, -⟩ := setPc_leaves h hout
    exact ⟨_, hst, fun hx => hx.exclusive _ rfl (Function.update_self ..)⟩
  | completeOptimistic =>
    obtain ⟨rfl, -⟩ := setPc_leaves h hout
    exact ⟨_, hst, fun hx => hx.optimistic _ _ _ rfl (Function.update_self ..) (by simp)⟩
  | completeDiscarded hpc hf hc =>
    obtain ⟨rfl, -⟩ := setPc_leaves h hout
    exact ⟨_, .completeExclusive hpc hf hc,
      fun hx => hx.exclusive _ rfl (Function.update_self ..)⟩
  | downgraded =>
    obtain ⟨rfl, -⟩ := setPc_leaves h hout
    exact ⟨_, hst, fun hx => hx.shared _ _ rfl (Function.update_self ..)⟩
  | @downgradeFailed w' v again hpc =>
    obtain ⟨rfl, hp⟩ := setPc_leaves h hout
    rw [hpc] at h
    cases again with
    | true => cases hp
    | false => exact absurd rfl h
  | insert c hpc =>
    obtain ⟨rfl, hp⟩ := setPc_leaves h hout
    split at hp <;> cases hp
  | changeLocal c _ _ _ _ _ _ henter =>
    have hp := (setPc_leaves h hout).2
    simp [henter.call.1] at hp
  | receive _ _ _ henter | updateConflict _ _ _ henter | copyAgain _ _ _ henter =>
    have hp := (setPc_leaves h hout).2
    simp [henter.call.1] at hp
  | undo | write => exact absurd hout h
  | start _ hpc | newPage _ _ hpc | reclaimPage _ hpc =>
    exact absurd hout (update_call h hpc rfl)
  | allocate _ hpc | read _ hpc | releaseExclusive hpc | releaseShared hpc
  | releaseOptimistic hpc | exclusiveToShared hpc | exclusiveToOptimistic hpc
  | sharedToOptimistic hpc | optimisticToShared hpc =>
    exact absurd hout (update_call h hpc rfl)
  | _ =>
    have hp := (setPc_leaves h hout).2
    cases hp

/-- An answer does not end `fix`. -/
theorem HandlerStep.call (h : (s.pc w).call ≠ none) (st : HandlerStep o node s s') :
    (s'.pc w).call ≠ none := by
  intro hout
  cases st with
  | requestLoad | loaded | invalidateRetry | updateRetry => exact h hout
  | move _ _ _ _ _ henter | invalidate _ _ _ _ _ _ henter =>
    have hp := (setPc_leaves h hout).2
    simp [henter.call.1] at hp
  | allocation _ hpc => exact update_call h hpc rfl hout
  | _ =>
    have hp := (setPc_leaves h hout).2
    cases hp

theorem PageStep.leaves_fix (h : (s.pc w).call ≠ none) (st : PageStep cfg o node s s')
    (hout : (s'.pc w).call = none) :
    ∃ s'', PageStep cfg o node s s'' ∧ ¬ Excluded node s'' (node w) := by
  cases st with
  | step st =>
    cases st with
    | worker st =>
      obtain ⟨s'', st', hx⟩ := st.leaves_fix h hout
      exact ⟨s'', .step (.worker st'), hx⟩
    | handler st => exact absurd hout (st.call h)
    | provider st => cases st <;> exact absurd hout h
  | overwritten st =>
    cases st
    exact absurd hout h

/-! ## Lost pages -/

/-- Nobody has a copy of the page, and the directory does not know. -/
structure Lost (o : NodeID) (node : W → NodeID) (s : PageState W C) : Prop where
  known : s.known = true
  coherent : Coherent o node s
  dead : (ledger o node s).Dead

omit [DecidableEq W] in
theorem Lost.excluded (h : Lost o node s) (n : NodeID) : Excluded node s n :=
  h.coherent.excluded_of_none fun d hd => by rw [h.dead.live n] at hd; cases hd

theorem Lost.step (h : Lost o node s) (st : PageStep cfg o node s s') : Lost o node s' := by
  obtain ⟨l, hok⟩ := h.coherent.ordered
  exact ⟨st.known h.known, h.coherent.step h.known st,
    (st.moves h.known h.coherent.nodes h.coherent.waits hok).dead h.dead⟩

/-- Nobody gets out of `fix` any more. -/
theorem Lost.call (h : Lost o node s) (st : PageStep cfg o node s s')
    (hw : (s.pc w).call ≠ none) : (s'.pc w).call ≠ none := by
  intro hout
  obtain ⟨s'', st', hx⟩ := st.leaves_fix hw hout
  exact hx ((h.step st').excluded (node w))

/-- A page that is lost stays lost in every run, and nobody gets out of `fix`. -/
theorem Lost.run (h : Lost o node s) (hrun : Relation.ReflTransGen (PageStep cfg o node) s s') :
    Lost o node s' ∧ ∀ w, (s.pc w).call ≠ none → (s'.pc w).call ≠ none := by
  induction hrun with
  | refl => exact ⟨h, fun _ hw => hw⟩
  | tail _ st ih => exact ⟨ih.1.step st, fun w hw => ih.1.call st (ih.2 w hw)⟩

/-- `reclaimPage` away from the owner loses the page. -/
theorem Accounted.reclaimed (hk : s.known = true) (h : Accounted o node s) (hpc : s.pc w = .guardX)
    (hne : node w ≠ o) : Lost o node (s.reclaimed (node w) w) := by
  obtain ⟨f, hf, -⟩ := (h.coherent.nodes (node w)).holds w rfl (by simp [hpc, Pc.latched])
  have st : PageStep ⟨false, false, true⟩ o node s (s.reclaimed (node w) w) :=
    .step (.worker (.reclaimPage rfl hpc hf))
  obtain ⟨l, hok, hx⟩ := h.exact
  obtain ⟨c, hc, hexcl⟩ := h.coherent.copy_of_guardX hpc
  refine ⟨hk, h.coherent.step hk st, hx.dead hok hc hexcl ?_ ?_ ?_ ?_ ?_ ?_⟩
  · intro w'
    by_cases hw : w' = w
    · simp [PageState.reclaimed, hw, hpc, Pc.acquisition]
    · simp [PageState.reclaimed, hw]
  · exact h.coherent.nodes.sameDir_of_ne hne hne
  · simp [PageState.reclaimed]
  · intro m hm
    simp [PageState.reclaimed, hm]
  · intro m hm
    simp [PageState.reclaimed, hm]
  · simp [PageState.reclaimed]

/-- As long as nobody acquires the page, the directory names the node that has just given it up. -/
theorem Coherent.names_reclaimed (h : Coherent o node s) (hpc : s.pc w = .guardX)
    (hne : node w ≠ o) (hfix : ∀ w', (s.pc w').call = none) :
    ∃ f, (s.reclaimed (node w) w).frame o = some f ∧ f.isPossessor (node w) = true := by
  obtain ⟨l, hok⟩ := h.ordered
  obtain ⟨c, hc, -⟩ := h.copy_of_guardX hpc
  have hl : l = (ledger o node s).epoch := by
    by_contra hlt
    have hle := hok.le_epoch
    obtain ⟨w', q, hq, -⟩ := hok.first_of _ (by omega) (Nat.le_refl _)
    simp [Pc.acquisition_of_idle (hfix w')] at hq
  have hmem := (hok.live_dir _ c hc hl).1
  rcases hf : s.frame o with _ | f
  · simp [ledger, hf] at hmem
  · refine ⟨f, by simp [PageState.reclaimed, hne.symm, hf], ?_⟩
    have hview : f.view o s.pc = f.entry := by
      unfold Frame.view
      split
      · next w' _ => exact Pc.view_of_idle (hfix w')
      · rfl
    rw [ledger_dir hf, hview] at hmem
    simpa [Frame.entry] using hmem

/-! ## Runs -/

/-- What becomes of a page: its ledger is exact until it is lost. -/
structure Tracked (o : NodeID) (node : W → NodeID) (s : PageState W C) : Prop where
  known : s.known = true → Accounted o node s ∨ Lost o node s
  fresh : s.known = false → Fresh o node s

omit [DecidableEq W] in
theorem Init.tracked (h : Init s) : Tracked o node s :=
  ⟨fun hk => .inl (h.intact.known hk).1, fun hk => (h.intact.fresh hk).1⟩

theorem Tracked.step (h : Tracked o node s) (st : PageStep cfg o node s s')
    (hstale : ¬ StaleRemoval s s') : Tracked o node s' := by
  cases hkn : s.known with
  | false =>
    cases st with
    | overwritten st => exact absurd st (h.fresh hkn).not_overwrites
    | step st =>
      refine ⟨fun hk' => .inl ((h.fresh hkn).contents hkn st hk').1, fun hk' => ?_⟩
      rcases (h.fresh hkn).step hkn st with ⟨-, hf, -⟩ | ⟨hk₁, -⟩
      · exact hf
      · simp [hk'] at hk₁
  | true =>
    refine ⟨fun _ => ?_, fun hk' => by simp [st.known hkn] at hk'⟩
    rcases h.known hkn with ha | hlost
    · cases st with
      | overwritten st =>
        have st' : PageStep cfg o node s s' := .overwritten st
        refine .inl ⟨ha.coherent.step hkn st', ?_⟩
        rw [st.ledger_eq]
        exact ha.exact
      | step st =>
        by_cases hr : ReclaimsAway o node s s'
        · obtain ⟨w, hne, hpc, -, rfl⟩ := hr
          exact .inr (ha.reclaimed hkn hpc hne)
        · exact .inl (st.accounted hkn ha hstale fun _ => hr)
    · exact .inr (hlost.step st)

/-- A page is tracked in every run in which no page provider removes a frame against the owner's
word; without page providers that is every run. -/
theorem machine_tracked (h : ((machine cfg o node).restrict fun s s' =>
    cfg.evict = true → ¬ StaleRemoval s s').Reachable s) : Tracked o node s := by
  refine h.invariant (P := Tracked o node) (fun s hs => Init.tracked hs) ?_
  rintro s s' hs hi ⟨st, hkeep⟩
  refine hi.step st ?_
  cases hev : cfg.evict with
  | true => exact hkeep hev
  | false =>
    obtain ⟨evict, ssd, reclaim⟩ := cfg
    obtain rfl : evict = false := hev
    exact not_staleRemoval fun n => by simp [(machine_unprovided hs.of_restrict).1 n]

omit [DecidableEq W] in
theorem Tracked.accounted (hi : Tracked o node s) (hX : s.pc w = .guardX) :
    s.known = true ∧ Accounted o node s := by
  have hk : s.known = true := by
    by_contra hk
    rcases (hi.fresh (by simpa using hk)).pc w with hpc | hpc <;> simp [hX] at hpc
  exact ⟨hk, (hi.known hk).resolve_right fun hlost =>
    (hlost.excluded (node w)).exclusive w rfl hX⟩

/-- When a node reclaims a page it does not own, the page is lost.  The owner's directory names a
node without a frame, unless a call of `fix` is under way; and no call of `fix` that is under way
then, or begins later, ever returns. -/
theorem reclaimed_page_lost (h : ((machine cfg o node).restrict fun s s' =>
      cfg.evict = true → ¬ StaleRemoval s s').Reachable s)
    (hX : s.pc w = .guardX) (hne : node w ≠ o) :
    ((s.reclaimed (node w) w).frame (node w) = none ∧
      ((∀ w', (s.pc w').call = none) →
        ∃ f, (s.reclaimed (node w) w).frame o = some f ∧ f.isPossessor (node w) = true)) ∧
    ∀ s₁, Relation.ReflTransGen (PageStep cfg o node) (s.reclaimed (node w) w) s₁ →
      (∀ n, Excluded node s₁ n) ∧ ∀ w', (s₁.pc w').call ≠ none →
        ∀ s₂, Relation.ReflTransGen (PageStep cfg o node) s₁ s₂ → (s₂.pc w').call ≠ none := by
  obtain ⟨hk, ha⟩ := (machine_tracked h).accounted hX
  refine ⟨⟨by simp [PageState.reclaimed], ha.coherent.names_reclaimed hX hne⟩, fun s₁ h₁ => ?_⟩
  have hlost := ((ha.reclaimed hk hX hne).run h₁).1
  exact ⟨hlost.excluded, fun w' hw s₂ h₂ => (hlost.run h₂).2 w' hw⟩

end Steps

/-! ## Stale PIDs -/

/-- Node 1 gets a page of node 0 exclusively. -/
def claimedActs : List (Act NodeID Nat) :=
  [.start 1 .exclusive, .insert 1 9, .requestLoad 1, .loaded, .request 1, .receive 1 0,
    .completeExclusive 1]

/-- Node 1 has the exclusive guard. -/
def claimed (s : PageState NodeID Nat) : Bool :=
  match s.pc 1 with
  | .guardX => true
  | _ => false

/-- The machine of the workers and the message handlers. -/
abbrev unprovided : Config := ⟨false, true, true⟩

/-- What the acts lead to after node 1 has reclaimed the page. -/
def afterReclaim (as : List (Act NodeID Nat)) : Option (PageState NodeID Nat) :=
  ((acts unprovided 0 oneWorker (PageState.start 0 true) claimedActs).filter claimed).bind
    fun s => acts unprovided 0 oneWorker (s.reclaimed 1 1) as

theorem claimed_eq {s : PageState NodeID Nat} (h : claimed s = true) : s.pc 1 = .guardX := by
  unfold claimed at h
  split at h
  case h_1 hpc => exact hpc
  case h_2 => cases h

theorem claimed_reachable {s : PageState NodeID Nat}
    (h : acts unprovided 0 oneWorker (PageState.start 0 true) claimedActs = some s) :
    (machine unprovided 0 oneWorker).Reachable s :=
  acts_invariant (fun _ _ hs st => hs.step (.step st)) (.init (PageState.start_init 0 true)) h

/-- Without page providers no run is left out. -/
theorem machine_unprovided_tracked {s : PageState W C} [DecidableEq W]
    (h : (machine unprovided o node).Reachable s) : Tracked o node s :=
  machine_tracked (h.restrict fun _ _ _ _ he => by cases he)

theorem reclaimed_page_lost_claimed : ∃ s : PageState NodeID Nat, claimed s = true ∧
    ∀ s₁, Relation.ReflTransGen (PageStep unprovided 0 oneWorker) (s.reclaimed 1 1) s₁ →
      ∀ n, Excluded oneWorker s₁ n := by
  have hrun : (acts unprovided 0 oneWorker (PageState.start 0 true) claimedActs).any claimed =
      true := by decide +kernel
  rcases hs : acts unprovided 0 oneWorker (PageState.start 0 true) claimedActs with _ | s
  · simp [hs] at hrun
  · have hclaimed : claimed s = true := by simpa [hs] using hrun
    have hreach : ((machine unprovided 0 oneWorker).restrict fun s s' =>
        unprovided.evict = true → ¬ StaleRemoval s s').Reachable s :=
      (claimed_reachable hs).restrict fun _ _ _ _ he => by cases he
    have hlost := (reclaimed_page_lost hreach (claimed_eq hclaimed) (by decide)).2
    exact ⟨s, hclaimed, fun s₁ h₁ => (hlost s₁ h₁).1⟩

theorem afterReclaim_lost {as : List (Act NodeID Nat)} {p : PageState NodeID Nat → Bool}
    (h : (afterReclaim as).any p = true) : ∃ s, (machine unprovided 0 oneWorker).Reachable s ∧
      Lost 0 oneWorker s ∧ p s = true := by
  rcases hrun : afterReclaim as with _ | s'
  · simp [hrun] at h
  · obtain ⟨s, hs, hacts⟩ := Option.bind_eq_some_iff.mp hrun
    obtain ⟨hs, hclaimed⟩ := Option.filter_eq_some_iff.mp hs
    have hX := claimed_eq hclaimed
    have hreach := claimed_reachable hs
    obtain ⟨hk, ha⟩ := (machine_unprovided_tracked hreach).accounted hX
    obtain ⟨f, hf, -⟩ := (ha.coherent.nodes 1).holds 1 rfl (by simp [hX, Pc.latched])
    have hstart : (machine unprovided 0 oneWorker).Reachable (s.reclaimed 1 1) ∧
        Lost 0 oneWorker (s.reclaimed 1 1) :=
      ⟨hreach.step (.step (.worker (.reclaimPage rfl hX hf))), ha.reclaimed hk hX (by decide)⟩
    obtain ⟨hr, hl⟩ := acts_invariant
      (P := fun s => (machine unprovided 0 oneWorker).Reachable s ∧ Lost 0 oneWorker s)
      (fun _ _ hs st => ⟨hs.1.step (.step st), hs.2.step (.step st)⟩) hstart hacts
    exact ⟨s', hr, hl, by simpa [hrun] using h⟩

/-- The owner's directory names node 1, which has no frame. -/
def namesNowhere (s : PageState NodeID Nat) : Bool :=
  match s.frame 0, s.frame 1 with
  | some f, none => f.isPossessor 1
  | _, _ => false

/-- Node 2 has asked node 1 for the page, and node 1 has no frame. -/
def movesFromNowhere (s : PageState NodeID Nat) : Bool :=
  match s.pc 2, s.frame 1 with
  | .move _ .optimistic _ 1 _, none => true
  | _, _ => false

/-- Node 1 is told to ask itself for the page. -/
def movesFromItself (s : PageState NodeID Nat) : Bool :=
  match s.pc 1 with
  | .response .optimistic r =>
    decide (r.result = .noPageExclusiveConflict ∧ r.conflictingNodeId.toNode = 1)
  | _ => false

/-- After node 1 has reclaimed the page, the directory names a node without a frame; an optimistic
`fix` on node 2 asks that node for the page and never returns, and one on node 1 is told to ask
itself and never returns. -/
theorem stale_fix_stuck :
    (∃ s : PageState NodeID Nat, (machine unprovided 0 oneWorker).Reachable s ∧
      namesNowhere s = true) ∧
    (∃ s : PageState NodeID Nat, (machine unprovided 0 oneWorker).Reachable s ∧
      movesFromNowhere s = true ∧
        ∀ s', Relation.ReflTransGen (PageStep unprovided 0 oneWorker) s s' →
          (s'.pc 2).call ≠ none) ∧
    ∃ s : PageState NodeID Nat, (machine unprovided 0 oneWorker).Reachable s ∧
      movesFromItself s = true ∧
        ∀ s', Relation.ReflTransGen (PageStep unprovided 0 oneWorker) s s' →
          (s'.pc 1).call ≠ none := by
  have hnames : (afterReclaim []).any namesNowhere = true := by decide +kernel
  have hnowhere : (afterReclaim [.start 2 .optimistic, .insert 2 9, .request 2,
      .receive 2 1]).any movesFromNowhere = true := by decide +kernel
  have hitself : (afterReclaim [.start 1 .optimistic, .insert 1 9,
      .request 1]).any movesFromItself = true := by decide +kernel
  refine ⟨?_, ?_, ?_⟩
  · obtain ⟨s, hs, -, hp⟩ := afterReclaim_lost hnames
    exact ⟨s, hs, hp⟩
  · obtain ⟨s, hs, hlost, hp⟩ := afterReclaim_lost hnowhere
    refine ⟨s, hs, hp, fun s' hrun => (hlost.run hrun).2 2 ?_⟩
    unfold movesFromNowhere at hp
    split at hp
    case h_1 hpc _ => simp [hpc, Pc.call]
    case h_2 => cases hp
  · obtain ⟨s, hs, hlost, hp⟩ := afterReclaim_lost hitself
    refine ⟨s, hs, hp, fun s' hrun => (hlost.run hrun).2 1 ?_⟩
    unfold movesFromItself at hp
    split at hp
    case h_1 hpc => simp [hpc, Pc.call]
    case h_2 => cases hp

end ScaleStore.Protocol
