/-
# Nothing throws

Without page providers and reclaimed pages nothing in the message handlers or in the
cold path of `fix` ever throws: no `ensure` fails, and the possessors are used in the
mode that the possession names.  What each function needs of the frame it runs on
follows from the ledger, and from what the worker has been told.
-/

import ScaleStore.Protocol.Sources

namespace ScaleStore.Protocol

variable {W C : Type} {cfg : Config} {o : NodeID} {node : W → NodeID} {s s' : PageState W C}

/-! ## Handlers that do not throw -/

section Frames

variable {f : Frame W C} {n : NodeID}

theorem Frame.Settled.state (h : f.Settled o) : f.state = .hot ∨ f.state = .evicted :=
  h.hot.imp (fun hh => hh.1) fun he => he.1

theorem Frame.Settled.mode (h : f.Settled o) :
    f.possession = .exclusive ∨ f.possession = .shared := by
  cases hpos : f.possession with
  | nobody => exact absurd hpos h.possession
  | exclusive => exact .inl rfl
  | shared => exact .inr rfl

/-- Whether the owner has the page, by what the frame says. -/
theorem Frame.Settled.cases (h : f.Settled o) :
    (f.possession = .exclusive ∧ f.possessors.toNode = o ∧ f.state = .hot ∧ f.page.isSome = true) ∨
    (f.possession = .exclusive ∧ f.possessors.toNode ≠ o ∧ f.state = .evicted) ∨
    (f.possession = .shared ∧ f.state = .hot ∧ f.page.isSome = true) ∨
    (f.possession = .shared ∧ f.state = .evicted ∧ f.possessors.test o = false ∧
      (f.possessors.reset o).any = true ∧ f.possessors.any = true) := by
  rcases h.mode with hpos | hpos
  · rcases h.hot with ⟨hs, ho, hx⟩ | ⟨hs, ho, -⟩
    · exact .inl ⟨hpos, (Frame.isPossessor_exclusive hpos).mp ho, hs, hx⟩
    · exact .inr (.inl ⟨hpos, by simpa [Frame.isPossessor, hpos] using ho, hs⟩)
  · rcases h.hot with ⟨hs, -, hx⟩ | ⟨hs, ho, -⟩
    · exact .inr (.inr (.inl ⟨hpos, hs, hx⟩))
    · -- an evicted page is shared by others
      rw [Frame.isPossessor_shared hpos] at ho
      have hany := h.shared hpos
      obtain ⟨m, hm⟩ := Possessors.any_iff.mp hany
      refine .inr (.inr (.inr ⟨hpos, hs, ho, Possessors.any_iff.mpr ⟨m, ?_⟩, hany⟩))
      rw [Possessors.members_reset, Finset.mem_erase]
      refine ⟨?_, hm⟩
      rintro rfl
      rw [Possessors.mem_members, ho] at hm
      cases hm

/-- The owner answers whoever does not possess the page. -/
theorem Frame.Settled.handleShared (h : f.Settled o) (n : NodeID) :
    ∃ x, f.handleShared o n = .ok x := by
  simp only [Frame.handleShared, Frame.answerWithPage, Frame.setPossessor, Frame.isPossessor,
    Frame.getExclusive, Frame.getShared, Frame.putExclusive, Frame.putShared, Bind.bind,
    Except.bind, Pure.pure, Except.pure, ensure]
  rcases h.cases with ⟨hpos, hto, hs, hx⟩ | ⟨hpos, hto, hs⟩ | ⟨hpos, hs, hx⟩ | ⟨hpos, hs, ho, -⟩
  · simp [hpos, hto, hs, hx]
  · simp [hpos, hto, hs]
  · simp [hpos, hs, hx]
  · simp [hpos, hs, ho]

theorem Frame.Settled.handleExclusive (h : f.Settled o) (n : NodeID) :
    ∃ x, f.handleExclusive o n = .ok x := by
  simp only [Frame.handleExclusive, Frame.answerWithPage, Frame.setPossessor, Frame.isPossessor,
    Frame.getExclusive, Frame.putExclusive, Frame.putShared, Bind.bind, Except.bind, Pure.pure,
    Except.pure, ensure]
  rcases h.cases with ⟨hpos, hto, hs, hx⟩ | ⟨hpos, hto, hs⟩ | ⟨hpos, hs, hx⟩ |
    ⟨hpos, hs, -, hany, -⟩
  · simp [hpos, hto, hs, hx]
  · simp [hpos, hto, hs]
  · cases hany : (f.possessors.reset o).any <;> simp [hpos, hs, hx, hany]
  · simp [hpos, hs, hany]

theorem Frame.Settled.handlePossessionRequest (h : f.Settled o) (hn : f.isPossessor n = false)
    (t : Access) : ∃ x, f.handlePossessionRequest t.desired o n = .ok x := by
  have hs : (decide (f.state = .hot) || decide (f.state = .evicted)) = true := by
    simpa using h.state
  simp only [Frame.handlePossessionRequest, ensure_bind, hs, hn, ↓reduceIte, Bool.not_false,
    Bool.or_true]
  split
  · exact h.handleShared n
  · exact h.handleExclusive n

/-- The owner grants an upgrade to a node that shares the page. -/
theorem Frame.Settled.handleUpdate (h : f.Settled o) (hpos : f.possession = .shared)
    (hn : f.possessors.test n = true) : ∃ x, f.handleUpdate o n f.pVersion = .ok x := by
  simp only [Frame.handleUpdate, Frame.getShared, Frame.putShared, Frame.setPossessor,
    Frame.putExclusive, Frame.isPossessor, Bind.bind, Except.bind, Pure.pure, Except.pure, ensure]
  rcases h.hot with ⟨hs, -, hx⟩ | ⟨hs, -, -⟩
  · simp [hpos, hn, hs, hx]
  · simp [hpos, hn, hs]

theorem Frame.Settled.localChange {t : Access} (h : f.Settled o) (hmiss : t.Misses o f) (c : C) :
    ∃ plan f', f.localChange o t c = .ok (plan, f') := by
  simp only [Frame.localChange, Frame.getExclusive, Frame.getShared, Frame.putShared, Bind.bind,
    Except.bind, Pure.pure, Except.pure, ensure]
  rcases h.cases with ⟨hpos, -⟩ | ⟨hpos, -⟩ | ⟨hpos, hs, -⟩ | ⟨hpos, hs, -, hothers, hany⟩
  · by_cases hs : f.state = .evicted <;> simp [hpos, hs]
  · by_cases hs : f.state = .evicted <;> simp [hpos, hs]
  · -- who has the page misses it for exclusive access only
    have ht : t = .exclusive := by
      rcases hmiss with ho | ⟨ht, -⟩
      · simp [(h.of_hot hs).2.1] at ho
      · exact ht
    simp [hpos, hs, ht]
  · by_cases ht : t = .exclusive
    · simp [hpos, hs, ht, hothers]
    · simp [hpos, hs, ht, hany]

/-- A node that shares the page, or has given up joining, answers a copy request. -/
theorem Frame.handleCopy_hot {e : Nat} (hs : f.state = .hot) (hpos : f.possession = .shared)
    (he : f.pVersion = e) (hx : f.page.isSome = true) : ∃ x, f.handleCopy e = .ok x := by
  simp [Frame.handleCopy, hs, hpos, he, hx, Pure.pure, Except.pure]

theorem Frame.Leftover.handleCopy (h : f.Leftover) (e : Nat) : ∃ x, f.handleCopy e = .ok x := by
  obtain ⟨hs, -, -, hm⟩ := h
  simp [Frame.handleCopy, hs, hm, Pure.pure, Except.pure]

theorem Frame.handleMove_page (hx : f.page.isSome = true) : ∃ x, f.handleMove = .ok x := by
  obtain ⟨x, hx⟩ := Option.isSome_iff_exists.mp hx
  exact ⟨x, by simp [Frame.handleMove, hx]⟩

end Frames

/-! ## Runs -/

/-- What holds between the directory, the copies and the workers while nothing is evicted and
nothing reclaimed. -/
structure Aligned (o : NodeID) (node : W → NodeID) (s : PageState W C) : Prop where
  accounted : Accounted o node s
  told : ∀ w, (s.pc w).Told o (node w) (ledger o node s)
  listed : Listed o s

theorem Pc.Told.of_guard {n : NodeID} {a : Ledger NodeID W} {p : Pc C}
    (h : p = .guardX ∨ p = .idle) : p.Told o n a := by
  rcases h with rfl | rfl <;> trivial

section Runs

variable {PID : Type} [DecidableEq PID] [DecidableEq W] {owner : PID → NodeID}
  {σ : PID → PageState W C}

theorem world_accounted {ssd : Bool} (h : (world ⟨false, ssd, false⟩ owner node).Reachable σ)
    (p : PID) : ((σ p).known = true → Accounted (owner p) node (σ p)) ∧
      ((σ p).known = false → Fresh (owner p) node (σ p)) := by
  have hi := keeping_intact (keeping_of_world h p)
  exact ⟨fun hk => (hi.known hk).1, fun hk => (hi.fresh hk).1⟩

theorem Step.aligned {ssd : Bool} (hkn : s.known = true) (h : Aligned o node s)
    (hidle : Unprovided s) (ha' : Accounted o node s')
    (st : Step ⟨false, ssd, false⟩ o node s s') : Aligned o node s' := by
  obtain ⟨l, hok, -⟩ := h.accounted.exact
  have hnodes := h.accounted.coherent.nodes
  have hm : Ledger.Moves true (ledger o node s) (ledger o node s') :=
    st.moves hkn hnodes h.accounted.coherent.waits hok
      (fun _ => not_staleRemoval fun n => by simp [hidle.1 n]) (by simp)
  exact ⟨ha', st.told h.accounted ha'.coherent.nodes hm h.told, st.listed hnodes hidle h.listed⟩

/-- A page that has just been handed out has nothing under way. -/
theorem Step.aligned_fresh (hkn : s.known = false) (h : Fresh o node s)
    (ha' : Accounted o node s') (hkn' : s'.known = true) (st : Step cfg o node s s') :
    Aligned o node s' := by
  rcases h.step hkn st with ⟨hk, -⟩ | ⟨-, -, w, hpc, -, -, hidle⟩
  · simp [hkn'] at hk
  · have hall : ∀ w', s'.pc w' = .guardX ∨ s'.pc w' = .idle := by
      intro w'
      by_cases hw : w' = w
      · exact .inl (hw ▸ hpc)
      · exact .inr (hidle w' hw)
    refine ⟨ha', fun w' => .of_guard (hall w'), fun w' f _ _ => ?_⟩
    rcases hall w' with hp | hp <;> rw [hp] <;> trivial

theorem world_aligned {ssd : Bool} (h : (world ⟨false, ssd, false⟩ owner node).Reachable σ)
    (p : PID) (hkn : (σ p).known = true) : Aligned (owner p) node (σ p) := by
  revert hkn
  induction h with
  | @init σ hinit =>
    intro hkn
    have hpc : ∀ w, (σ p).pc w = .idle := (hinit p).pc
    refine ⟨(world_accounted (.init hinit) p).1 hkn, fun w => .of_guard (.inr (hpc w)), ?_⟩
    intro w f hf
    simp [(hinit p).frame] at hf
  | @step σ σ' hσ hst ih =>
    have hacc := world_accounted (hσ.step hst) p
    obtain ⟨q, s', hstep, rfl⟩ := hst
    by_cases hq : p = q
    · subst hq
      rw [Function.update_self] at hacc ⊢
      intro hkn
      cases hstep with
      | step hstep =>
        cases hk : (σ p).known with
        | true => exact hstep.aligned hk (ih hk) (world_unprovided hσ p) (hacc.1 hkn)
        | false => exact hstep.aligned_fresh hk ((world_accounted hσ p).2 hk) (hacc.1 hkn) hkn
      | @overwritten r ha =>
        simp [nothing_astray (keeping_of_world hσ p) (fun _ _ h => h.2) r] at ha
    · rw [Function.update_of_ne hq]
      exact ih

end Runs

/-! ## What it is for nothing to throw -/

/-- The plan names somebody to ask, whichever node is chosen, and never the node `n` itself. -/
def Plan.Elsewhere (n : NodeID) : Plan → Prop
  | .move shared => shared.any = true ∧ shared.test n = false
  | .invalidate shared => shared.test n = false
  | .copy shared => shared.any = true ∧ shared.test n = false
  | .complete => True

/-- The worker `w` has latched the frame `f` of its node exclusively. -/
def Owns (node : W → NodeID) (s : PageState W C) (w : W) (f : Frame W C) : Prop :=
  s.frame (node w) = some f ∧ f.holder = some (.worker w)

/-- The node `c` has a frame, and once the handler has latched it, a page to be moved. -/
def Yields (s : PageState W C) (c : NodeID) : Prop :=
  ∃ f, s.frame c = some f ∧ (f.Latchable → ∃ x, f.handleMove = .ok x)

/-- What runs next for the worker `w`, on its own node or in a message handler, does not throw: no
`ensure` fails, no possessors are read or written in a mode that the possession does not name, and
no node addresses a message to itself.  A handler that does not get the latch tries again. -/
def NoFault (o : NodeID) (node : W → NodeID) (s : PageState W C) (w : W) : Prop :=
  match s.pc w with
  | .peek t v => ∀ f, s.frame (node w) = some f → s.version (node w) = v → f.Latchable →
    (t.functor (node w) o f = .localPossessionChange → ∀ c, ∃ plan f',
      f.localChange (node w) t c = .ok (plan, f') ∧ plan.Elsewhere (node w)) ∧
    (t.functor (node w) o f = .remotePossessionChange → ∃ x, f.remoteChange = .ok x)
  | .load _ => ∃ own, Owns node s w own
  | .request t => (∃ own, Owns node s w own ∧ own.state = .ioRdma) ∧
    ∀ f, s.frame o = some f → f.Latchable →
      ∃ x, f.handlePossessionRequest t.desired o (node w) = .ok x
  | .response _ r => (∃ own, Owns node s w own) ∧
    ∃ plan, r.plan = .ok plan ∧ plan.Elsewhere (node w)
  | .move _ _ _ c rest => (∃ own, Owns node s w own) ∧ c ≠ node w ∧ Yields s c ∧
    (Plan.invalidate rest).Elsewhere (node w)
  | .invalidate _ _ _ pending => (∃ own, Owns node s w own) ∧
    (Plan.invalidate pending).Elsewhere (node w) ∧ ∀ c, pending.test c = true → Yields s c
  | .copy _ _ e _ c => (∃ own, Owns node s w own) ∧ c ≠ node w ∧
    ∀ f, s.frame c = some f → f.holder = none → ∃ x, f.handleCopy e = .ok x
  | .copyFailed g _ _ shared => (Plan.copy shared).Elsewhere (node w) ∧
    ∃ own, Owns node s w own ∧ (g = .localPossessionChange → own.state = .evicted)
  | .update _ old => (∃ own, Owns node s w own) ∧ ∃ f, s.frame o = some f ∧ old ≤ f.pVersion ∧
    (f.pVersion = old → f.Latchable → ∃ x, f.handleUpdate o (node w) old = .ok x)
  | .updated _ _ .failed => ∃ own, Owns node s w own
  | .updated _ _ (.succeed e) => ∃ own, Owns node s w own ∧ own.pVersion = e
  | .updated _ _ (.succeedWithSharedConflict e _) => ∃ own, Owns node s w own ∧ own.pVersion = e
  | .complete _ t _ => ∃ own x, Owns node s w own ∧ own.complete (node w) t = .ok x
  | .allocate => s.frame (node w) = none
  | _ => True

/-! ## What holds of the nodes that are named -/

section Ledgers

variable {w : W} {n : NodeID} {f : Frame W C}

/-- A frame that is waited for has a page once it can be latched. -/
theorem Nodes.page_of_latchable (h : Nodes o node s) (hf : s.frame n = some f)
    (hs : f.state ≠ .evicted) (hl : f.Latchable) : f.page.isSome = true := by
  rcases (h n).rest f hf hl.1 with ⟨-, hset⟩ | ⟨-, hhot | ⟨hleft, -⟩⟩
  · rcases hset.hot with hhot | ⟨hev, -⟩
    · exact hhot.2.2
    · exact absurd hev hs
  · exact hhot.2.2
  · exact hleft.2.2.1

/-- The frame of a copy in use. -/
theorem frame_of_live {c : Copy} (h : (ledger o node s).live n = some c) :
    ∃ f, s.frame n = some f ∧ f.state = .hot ∧ f.isPossessor n = true ∧
      c = ⟨if f.possession = .shared ∧ f.byWorker = true then f.pVersion - 1 else f.pVersion,
        f.possession = .exclusive⟩ := by
  obtain ⟨f, hf, hc⟩ := Option.bind_eq_some_iff.mp h
  unfold Frame.copy at hc
  split at hc
  case isTrue hhot => exact ⟨f, hf, hhot.1, hhot.2.1, (Option.some.inj hc).symm⟩
  case isFalse => cases hc

theorem frame_of_left {e : Nat} (h : (ledger o node s).left n = some e) :
    ∃ f, s.frame n = some f ∧ f.state = .ioRdma ∧ f.holder = none ∧ f.pVersion = e := by
  obtain ⟨f, hf, hc⟩ := Option.bind_eq_some_iff.mp h
  unfold Frame.left at hc
  split at hc
  case isTrue hleft => exact ⟨f, hf, hleft.1, hleft.2, Option.some.inj hc⟩
  case isFalse => cases hc

/-- Whoever is sent a PMR has the frame, and in it the page. -/
theorem Accounted.yields {q : Acquisition NodeID} (h : Accounted o node s)
    (hq : (ledger o node s).acq w = some q) (hf : q.first = true) (hn : n ∈ q.targets) :
    Yields s n := by
  obtain ⟨l, -, hexact⟩ := h.exact
  have hnodes := h.coherent.nodes
  rcases hexact.target_mem w q hq hf n hn with ⟨c, hc, -⟩ | ⟨w', q', hq', rfl, -⟩ | ⟨e, he, -⟩
  · obtain ⟨f, hf, hst, -⟩ := frame_of_live hc
    exact ⟨f, hf, fun hl =>
      Frame.handleMove_page (hnodes.page_of_latchable hf (by simp [hst]) hl)⟩
  · -- the node is still collecting the page itself
    obtain ⟨f, hf, hh⟩ := (hnodes (node w')).holds w' rfl (Pc.acquisition_latched hq')
    rw [Pc.acquisition_node hq']
    exact ⟨f, hf, fun hl => by simp [hl.1] at hh⟩
  · obtain ⟨f, hf, hst, -⟩ := frame_of_left he
    exact ⟨f, hf, fun hl =>
      Frame.handleMove_page (hnodes.page_of_latchable hf (by simp [hst]) hl)⟩

/-- Outside of upgrades, nobody is to tell its own node. -/
theorem Accounted.not_own_target {q : Acquisition NodeID} (h : Accounted o node s)
    (hq : (ledger o node s).acq w = some q) (hf : q.first = true) (hk : q.keeps = false) :
    node w ∉ q.targets := by
  obtain ⟨l, hok, hexact⟩ := h.exact
  rw [← Pc.acquisition_node hq]
  exact hexact.not_own_target hok hq hf hk

/-- Whoever asks the owner for the page is not named by it. -/
theorem Accounted.not_named {t : Access} (h : Accounted o node s) (hpc : s.pc w = .request t)
    (hf : s.frame o = some f) (hl : f.Latchable) : f.isPossessor (node w) = false := by
  obtain ⟨l, hok, hexact⟩ := h.exact
  have hnodes := h.coherent.nodes
  obtain ⟨own, hown, hh⟩ := (hnodes (node w)).holds w rfl (by simp [hpc, Pc.latched])
  obtain ⟨-, -, -, hblank⟩ := hnodes.fits hpc rfl hown
  by_contra hne
  have hdir : node w ∈ (ledger o node s).dir := by
    rw [ledger_dir hf, Frame.view_of_free hl.byWorker]
    simpa [Frame.entry] using hne
  rcases hexact.dir_mem _ hdir with ⟨c, hc, -⟩ | ⟨w', q, hq, hn, -⟩
  · obtain ⟨g, hg, hst, -⟩ := frame_of_live hc
    rw [hown] at hg
    obtain rfl := Option.some.inj hg
    simp [hblank.1] at hst
  · exact hnodes.not_busy_of_holder (w := w) (by simp [hpc, Pc.latched])
      (by simp [hpc, Pc.acquisition]) ⟨w', q, hq, hn⟩

end Ledgers

/-! ## Nothing throws -/

section Faults

variable {w : W} {t : Access}

theorem LocalChange.elsewhere {f f' : Frame W C} {plan : Plan} (h : LocalChange o t f plan f')
    (hs : f.Settled o) (hmiss : t.Misses o f) : plan.Elsewhere o := by
  cases h with
  | displace hx =>
    have hno : f.possessors.toNode ≠ o := by
      intro ho
      rcases hmiss with hm | ⟨-, hm⟩
      · rw [(Frame.isPossessor_exclusive hx).mpr ho] at hm
        cases hm
      · exact hm hx
    exact ⟨Possessors.any_iff.mpr ⟨f.possessors.toNode, by simp⟩, by simp [Ne.symm hno]⟩
  | collect _ _ _ hany => exact ⟨hany, by simp⟩
  | revoke => simp [Plan.Elsewhere]
  | join hx _ hev hany =>
    exact ⟨hany, Frame.isPossessor_shared hx ▸ (hs.of_evicted hev).1⟩

theorem Response.plan_move {r : Response} {shared : Possessors}
    (h : r.plan = .ok (.move shared)) : shared.any = true := by
  unfold Response.plan at h
  rcases hr : r.result with _ | _ | _ | _ | _
  all_goals rw [hr] at h
  case noPageExclusiveConflict =>
    obtain rfl : Possessors.set 0#64 r.conflictingNodeId.toNode = shared := by simpa using h
    exact Possessors.any_iff.mpr ⟨r.conflictingNodeId.toNode, by simp⟩
  case noPageSharedConflict =>
    simp only [ensure_bind] at h
    split at h
    case isTrue hany =>
      obtain rfl : r.conflictingNodeId = shared := by simpa [Pure.pure, Except.pure] using h
      exact hany
    case isFalse => cases h
  case withPage => simp at h
  all_goals
    simp only [ensure_bind] at h
    split at h <;> simp [Pure.pure, Except.pure] at h

/-- The owner's answer never sends a worker to its own node. -/
theorem Aligned.response (h : Aligned o node s) {r : Response} (hpc : s.pc w = .response t r) :
    ∃ plan, r.plan = .ok plan ∧ plan.Elsewhere (node w) := by
  have htold := h.told w
  rw [hpc] at htold
  obtain ⟨plan, hplan, hcopy⟩ := htold
  refine ⟨plan, hplan, ?_⟩
  have hacq : (ledger o node s).acq w = some (plan.acquisition (node w) .remote t r.pVersion) := by
    rw [ledger_acq, hpc, Response.plan_eq hplan]
    rfl
  cases plan with
  | move shared =>
    have hself := h.accounted.not_own_target hacq rfl rfl
    exact ⟨Response.plan_move hplan, by simpa [Plan.acquisition] using hself⟩
  | invalidate shared =>
    have hself := h.accounted.not_own_target hacq rfl (by simp [Plan.acquisition])
    simpa [Plan.Elsewhere, Plan.acquisition] using hself
  | copy shared => exact ⟨(hcopy shared rfl).any, (hcopy shared rfl).self⟩
  | complete => trivial

/-- The functor has found that the possession has to change. -/
theorem Aligned.peek {v : Nat} {f : Frame W C} (h : Aligned o node s) (hpc : s.pc w = .peek t v)
    (hf : s.frame (node w) = some f) (hv : s.version (node w) = v) :
    (t.functor (node w) o f = .localPossessionChange → ∀ c, ∃ plan f',
      f.localChange (node w) t c = .ok (plan, f') ∧ plan.Elsewhere (node w)) ∧
    (t.functor (node w) o f = .remotePossessionChange → ∃ x, f.remoteChange = .ok x) := by
  have hnodes := h.accounted.coherent.nodes
  obtain ⟨hfree, hpos, -⟩ := hnodes.current (by simp [hpc, Pc.stamp]) hv hf
  constructor
  · intro hfun c
    obtain ⟨hn, hmiss⟩ := Access.functor_local hfun
    subst hn
    have hs := hnodes.settled hf hfree
    obtain ⟨plan, f', hc⟩ := hs.localChange hmiss c
    exact ⟨plan, f', hc, (Frame.localChange_ok hc).1.elsewhere hs hmiss⟩
  · intro hfun
    obtain ⟨hn, hmiss⟩ := Access.functor_remote hfun
    rcases (hnodes (node w)).rest f hf hfree with ⟨hn', -⟩ | ⟨-, hhot | ⟨hleft, -⟩⟩
    · exact absurd hn' hn
    · -- what the node has it shares
      have hx : f.possession = .shared := by
        rcases hmiss with hm | ⟨-, hm⟩
        · simp [hhot.2.1] at hm
        · cases hp : f.possession with
          | nobody => exact absurd hp hpos
          | exclusive => exact absurd hp hm
          | shared => rfl
      exact ⟨_, by simp [Frame.remoteChange, hx, hhot.1, Pure.pure, Except.pure]; rfl⟩
    · exact absurd hleft.2.1 hpos

/-- Whoever is asked for a copy has none that is newer or older than the one asked for. -/
theorem Aligned.copy {g : GuardState} {e : Nat} {shared : Possessors} {c : NodeID} {f : Frame W C}
    (h : Aligned o node s) (hpc : s.pc w = .copy g t e shared c) (hf : s.frame c = some f)
    (hfree : f.holder = none) : ∃ x, f.handleCopy e = .ok x := by
  obtain ⟨l, hok, -⟩ := h.accounted.exact
  have hnodes := h.accounted.coherent.nodes
  have htold := h.told w
  rw [hpc] at htold
  obtain ⟨hsources, hc⟩ := htold
  have hco : c ≠ o := by
    rintro rfl
    simp [hsources.owner] at hc
  rcases (hnodes c).rest f hf hfree with ⟨hc', -⟩ | ⟨-, hhot | ⟨hleft, -⟩⟩
  · exact absurd hc' hco
  · obtain ⟨d, hd⟩ := h.accounted.coherent.copy_of_free hf hhot.1 hhot.2.1 hfree
    obtain ⟨f', hf', -, -, hcopy⟩ := frame_of_live hd
    obtain rfl := Option.some.inj (hf.symm.trans hf')
    have hacq : (ledger o node s).acq w =
        some ((Plan.copy shared).acquisition (node w) g t e) := by rw [ledger_acq, hpc]; rfl
    -- the worker has joined the epoch of this copy
    have hl : d.epoch = l := hok.live_epoch c d hd
    have hle : l ≤ e := (hok.join_range w _ hacq rfl).1
    have hge : e ≤ d.epoch := (hsources.since c hc).live d hd
    have hexcl : d.excl = false := by
      by_contra hne
      exact hok.excl_no_join c d w _ hd (by simpa using hne) hacq rfl
        (show e = l from Nat.le_antisymm (hl ▸ hge) hle)
    have hby : f.byWorker = false := by simp [Frame.byWorker, hfree]
    have hx : f.possession = .shared := by
      rw [hcopy] at hexcl
      cases hpos : f.possession with
      | nobody =>
        have hp := hhot.2.1
        simp [Frame.isPossessor, hpos] at hp
      | exclusive => simp [hpos] at hexcl
      | shared => rfl
    refine Frame.handleCopy_hot hhot.1 hx ?_ hhot.2.2
    have : d.epoch = f.pVersion := by rw [hcopy]; simp [hby]
    omega
  · exact hleft.handleCopy e

/-- A PUR finds the owner's frame, at the version asked for or a later one. -/
theorem Aligned.update {old : Nat} (h : Aligned o node s) (hpc : s.pc w = .update t old) :
    ∃ f, s.frame o = some f ∧ old ≤ f.pVersion ∧
      (f.pVersion = old → f.Latchable → ∃ x, f.handleUpdate o (node w) old = .ok x) := by
  obtain ⟨l, hok, -⟩ := h.accounted.exact
  have hnodes := h.accounted.coherent.nodes
  obtain ⟨-, -, -, -, -, -, hlive⟩ := hnodes.live_of_upgrade (.inl hpc)
  have hl : old = l := hok.live_epoch _ _ hlive
  rcases hf : s.frame o with _ | f
  · -- a page without a frame of its owner is in use nowhere
    obtain ⟨he, hd⟩ : (ledger o node s).epoch = 0 ∧ (ledger o node s).dir = ∅ := ledger_none hf
    exact absurd (hlive.symm.trans ((hok.of_blank he hd).1 _)) (by simp)
  · have hle := hok.le_epoch
    rw [ledger_epoch hf] at hle
    refine ⟨f, rfl, by omega, fun hv hl' => ?_⟩
    have hs := hnodes.settled hf hl'.1
    obtain ⟨hmem, hexcl⟩ := hok.live_dir _ _ hlive (by rw [ledger_epoch hf]; omega)
    rw [ledger_dir hf, Frame.view_of_free hl'.byWorker] at hmem
    rw [ledger_dirExcl hf, Frame.view_of_free hl'.byWorker] at hexcl
    have hx : f.possession = .shared :=
      hs.mode.resolve_left (by simpa [Frame.entry] using hexcl.symm)
    have hn : f.possessors.test (node w) = true := by
      simpa [Frame.entry, Frame.isPossessor_shared hx] using hmem
    exact hv ▸ hs.handleUpdate hx hn

/-- Nothing that runs next throws. -/
theorem Aligned.noFault (h : Aligned o node s) (helse : (s.pc w).Elsewhere (node w)) :
    NoFault o node s w := by
  have hnodes := h.accounted.coherent.nodes
  have latched : (s.pc w).latched = true → ∃ own, Owns node s w own ∧
      Fits o (node w) own (s.pc w) := by
    intro hl
    obtain ⟨f, hf, hh⟩ := (hnodes (node w)).holds w rfl hl
    exact ⟨f, ⟨hf, hh⟩, ((hnodes (node w)).held f w hf hh).2⟩
  have htold := h.told w
  unfold NoFault
  cases hpc : s.pc w with
  | peek t v => exact fun f hf hv _ => h.peek hpc hf hv
  | load t =>
    obtain ⟨own, hown, -⟩ := latched (by simp [hpc, Pc.latched])
    exact ⟨own, hown⟩
  | request t =>
    obtain ⟨own, hown, hfit⟩ := latched (by simp [hpc, Pc.latched])
    rw [hpc] at hfit
    exact ⟨⟨own, hown, hfit.2.1⟩, fun f hf hl =>
      (hnodes.settled hf hl.1).handlePossessionRequest (h.accounted.not_named hpc hf hl) t⟩
  | response t r =>
    obtain ⟨own, hown, -⟩ := latched (by simp [hpc, Pc.latched])
    exact ⟨⟨own, hown⟩, h.response hpc⟩
  | move g t e c rest =>
    obtain ⟨own, hown, -⟩ := latched (by simp [hpc, Pc.latched])
    have hacq : (ledger o node s).acq w = some ⟨node w, e, true, t = .exclusive,
        insert c (rest.members : Set NodeID), false, false⟩ := by rw [ledger_acq, hpc]; rfl
    have hself := h.accounted.not_own_target hacq rfl rfl
    obtain ⟨hne, hrest⟩ : ¬ node w = c ∧ rest.test (node w) = false := by simpa using hself
    exact ⟨⟨own, hown⟩, Ne.symm hne, h.accounted.yields hacq rfl (Set.mem_insert ..), hrest⟩
  | invalidate g t e pending =>
    obtain ⟨own, hown, -⟩ := latched (by simp [hpc, Pc.latched])
    have hacq : (ledger o node s).acq w =
        some ((Plan.invalidate pending).acquisition (node w) g t e) := by rw [ledger_acq, hpc]; rfl
    rw [hpc] at helse
    exact ⟨⟨own, hown⟩, helse, fun c hc =>
      h.accounted.yields hacq rfl (by simpa [Plan.acquisition] using hc)⟩
  | copy g t e shared c =>
    obtain ⟨own, hown, -⟩ := latched (by simp [hpc, Pc.latched])
    rw [hpc] at htold
    refine ⟨⟨own, hown⟩, ?_, fun f hf hfree => h.copy hpc hf hfree⟩
    rintro rfl
    exact absurd htold.2 (by simp [htold.1.self])
  | copyFailed g t e shared =>
    obtain ⟨own, hown, hfit⟩ := latched (by simp [hpc, Pc.latched])
    rw [hpc] at htold hfit
    exact ⟨⟨htold.any, htold.self⟩, own, hown, fun hg => (hfit.2.2.2 hg).1⟩
  | complete g t e =>
    obtain ⟨own, hown, -⟩ := latched (by simp [hpc, Pc.latched])
    exact ⟨own, _, hown, Frame.complete_eq own (node w) t⟩
  | update t old =>
    obtain ⟨own, hown, -⟩ := latched (by simp [hpc, Pc.latched])
    exact ⟨⟨own, hown⟩, h.update hpc⟩
  | updated t old r =>
    obtain ⟨own, hown, hfit⟩ := latched (by simp [hpc, Pc.latched])
    rw [hpc] at hfit
    obtain ⟨⟨-, -, -, hv⟩, hr⟩ := hfit
    cases r with
    | failed => exact ⟨own, hown⟩
    | succeed e => exact ⟨own, hown, hv.trans hr.symm⟩
    | succeedWithSharedConflict e shared => exact ⟨own, hown, hv.trans hr.1.symm⟩
  | allocate => exact absurd hpc ((hnodes (node w)).allocated w rfl)
  | _ => trivial

end Faults

end ScaleStore.Protocol
