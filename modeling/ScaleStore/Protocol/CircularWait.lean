/-
# No circular wait

Workers of any number of nodes wait for each other: a request is handled again
and again while the frame it is about is latched by a worker that is itself in
`fix`.  No set of workers waits only for its own members.  What orders the waits
is the version at which a worker has been granted the page: a worker that moves
or invalidates copies waits for a worker of the version before its own, and a
request or an update waits for a worker of the owner, which does the former.
-/

import ScaleStore.Protocol.Fix
import ScaleStore.Protocol.LastWrite

namespace ScaleStore

/-! ## Waiting in general -/

/-- When whoever is waited for by a waiting one has a rank, and a smaller one than the waiting one
if that has a rank too, then no set waits only for its own members. -/
theorem no_knot {W : Type*} {waits : W → W → Prop} {rank : W → Nat → Prop}
    (h : ∀ a b c, waits a b → waits b c → ∃ r, rank b r ∧ ∀ r', rank a r' → r < r')
    (S : Set W) (hne : S.Nonempty) : ¬ ∀ a ∈ S, ∃ b ∈ S, waits a b := by
  intro hall
  have hno : ∀ r, ∀ a ∈ S, ¬ rank a r := by
    intro r
    induction r using Nat.strong_induction_on with
    | h r ih =>
      intro a ha hr
      obtain ⟨b, hb, hab⟩ := hall a ha
      obtain ⟨c, -, hbc⟩ := hall b hb
      obtain ⟨r', hr', hlt⟩ := h a b c hab hbc
      exact ih r' (hlt r hr) b hb hr'
  obtain ⟨a, ha⟩ := hne
  obtain ⟨b, hb, hab⟩ := hall a ha
  obtain ⟨c, -, hbc⟩ := hall b hb
  obtain ⟨r, hr, -⟩ := h a b c hab hbc
  exact hno r b hb hr

namespace Protocol

variable {PID W C : Type} {cfg : Config} {o : NodeID} {node : W → NodeID} {s s' : PageState W C}

/-! ## Waiting for a latch -/

/-- The frame of the node `n` is latched by `w'`, which is in `fix`. -/
def Blocks (s : PageState W C) (n : NodeID) (w' : W) : Prop :=
  (s.pc w').call ≠ none ∧ ∃ f, s.frame n = some f ∧ f.holder = some (.worker w')

/-- A request of `w`, handled now, would find the frame latched by `w'` and be handled again.
A PCR is answered after a number of attempts. -/
def BlockedBy (o : NodeID) (s : PageState W C) (w w' : W) : Prop :=
  match s.pc w with
  | .request _ => Blocks s o w'
  | .move _ _ _ c _ => Blocks s c w'
  | .invalidate _ _ _ pending => ∃ c, pending.test c = true ∧ Blocks s c w'
  | .update _ old => Blocks s o w' ∧ ∀ f, s.frame o = some f → f.pVersion = old
  | _ => False

/-- PMRs go to other nodes. -/
def Pc.Elsewhere (n : NodeID) : Pc C → Prop
  | .move _ _ _ c _ => c ≠ n
  | .invalidate _ _ _ pending => pending.test n = false
  | _ => True

theorem Enters.elsewhere {n : NodeID} {g : GuardState} {t : Access} {e : Nat} {plan : Plan}
    {p : Pc C} (h : Enters n g t e plan p) : p.Elsewhere n := by
  cases h with
  | move _ hc => exact hc
  | invalidate _ hself => exact hself
  | none | copy | complete => trivial

section Steps

variable [DecidableEq W]

/-- One worker moves on, and so do the others stay. -/
theorem elsewhere_update {w : W} {p : Pc C} {pc : W → Pc C}
    (h : ∀ w, (pc w).Elsewhere (node w)) (hp : p.Elsewhere (node w)) (w' : W) :
    (Function.update pc w p w').Elsewhere (node w') := by
  by_cases hw : w' = w
  · subst hw
    rwa [Function.update_self]
  · rw [Function.update_of_ne hw]
    exact h w'

theorem WorkerStep.elsewhere (st : WorkerStep cfg o node s s')
    (h : ∀ w, (s.pc w).Elsewhere (node w)) : ∀ w, (s'.pc w).Elsewhere (node w) := by
  cases st with
  | undo | write => exact h
  | insert =>
    refine elsewhere_update h ?_
    split <;> trivial
  | downgradeFailed =>
    refine elsewhere_update h ?_
    split <;> trivial
  | changeLocal _ _ _ _ _ _ _ hent => exact elsewhere_update h hent.elsewhere
  | receive _ _ _ hent => exact elsewhere_update h hent.elsewhere
  | updateConflict _ _ _ hent => exact elsewhere_update h hent.elsewhere
  | copyAgain _ _ _ hent => exact elsewhere_update h hent.elsewhere
  | _ => exact elsewhere_update h trivial

theorem HandlerStep.elsewhere (st : HandlerStep o node s s')
    (h : ∀ w, (s.pc w).Elsewhere (node w)) : ∀ w, (s'.pc w).Elsewhere (node w) := by
  cases st with
  | requestLoad | loaded | invalidateRetry | updateRetry => exact h
  | move _ _ _ _ _ hent => exact elsewhere_update h hent.elsewhere
  | invalidate _ _ _ _ _ _ hent => exact elsewhere_update h hent.elsewhere
  | _ => exact elsewhere_update h trivial

theorem Step.elsewhere (st : Step cfg o node s s') (h : ∀ w, (s.pc w).Elsewhere (node w)) :
    ∀ w, (s'.pc w).Elsewhere (node w) := by
  cases st with
  | worker st => exact st.elsewhere h
  | handler st => exact st.elsewhere h
  | provider st => cases st <;> exact h

theorem PageStep.elsewhere (st : PageStep cfg o node s s')
    (h : ∀ w, (s.pc w).Elsewhere (node w)) : ∀ w, (s'.pc w).Elsewhere (node w) := by
  cases st with
  | step st => exact st.elsewhere h
  | overwritten st =>
    cases st
    exact h

theorem machine_elsewhere (h : (machine cfg o node).Reachable s) (w : W) :
    (s.pc w).Elsewhere (node w) := by
  refine h.invariant (P := fun s => ∀ w, (s.pc w).Elsewhere (node w)) ?_ ?_ w
  · intro s hs w
    rw [hs.pc w]
    trivial
  · exact fun s s' _ hs hst => hst.elsewhere hs

end Steps

/-! ## Who waits for whom -/

section Waits

variable {w w' w'' : W}

theorem Nodes.node_of_blocks (h : Nodes o node s) {n : NodeID} (hb : Blocks s n w') :
    node w' = n := by
  obtain ⟨-, f, hf, hh⟩ := hb
  exact ((h n).held f w' hf hh).1

/-- Only one worker can have the latch. -/
theorem Blocks.unique {n : NodeID} (h : Blocks s n w) (h' : Blocks s n w') : w = w' := by
  obtain ⟨-, f, hf, hh⟩ := h
  obtain ⟨-, f', hf', hh'⟩ := h'
  obtain rfl := Option.some.inj (hf.symm.trans hf')
  simpa [hh] using hh'

/-- A worker of the owner that waits is moving the page or invalidating copies. -/
theorem BlockedBy.acquires_of_owner (h : Nodes o node s) (hb : Blocks s o w')
    (hw' : BlockedBy o s w' w'') : ∃ q, (ledger o node s).acq w' = some q := by
  obtain ⟨-, f, hf, hh⟩ := hb
  obtain ⟨hn, hfit⟩ := (h o).held f w' hf hh
  unfold BlockedBy at hw'
  split at hw'
  case h_1 t hpc =>
    rw [hpc] at hfit
    exact absurd rfl hfit.1
  case h_2 hpc => exact ⟨_, by rw [ledger_acq, hpc]; rfl⟩
  case h_3 hpc => exact ⟨_, by rw [ledger_acq, hpc]; rfl⟩
  case h_4 hpc =>
    rw [hpc] at hfit
    exact absurd rfl hfit.1
  case h_5 => exact hw'.elim

/-- A worker whose PUR is handled again has a copy of the owner's version. -/
theorem Nodes.live_of_update (h : Nodes o node s) {n : NodeID} {c : Copy} {t : Access} {old : Nat}
    (hb : Blocks s n w') (hpc : s.pc w' = .update t old)
    (hc : (ledger o node s).live n = some c) : c.epoch = old := by
  obtain ⟨-, f, hf, hh⟩ := hb
  have hfit := ((h n).held f w' hf hh).2
  rw [hpc] at hfit
  obtain ⟨-, hhot, hshared, hv⟩ := hfit
  obtain ⟨hst, hpos, -⟩ := hhot
  have hby : f.byWorker = true := by simp [Frame.byWorker, hh]
  have hcopy : f.copy n (s.provider n) = some c := by simpa [hf] using hc
  unfold Frame.copy at hcopy
  split at hcopy
  case isTrue =>
    obtain rfl := Option.some.inj hcopy
    simp [hshared, hby, hv]
  case isFalse => cases hcopy

/-- A worker that waits for one that waits itself waits for the version before its own. -/
theorem BlockedBy.acquires_of_target (ha : Accounted o node s) {q : Acquisition NodeID}
    {c : NodeID} (hq : (ledger o node s).acq w = some q) (hfirst : q.first = true)
    (hc : c ∈ q.targets) (hself : c ≠ node w) (hb : Blocks s c w') (hw' : BlockedBy o s w' w'') :
    ∃ q', (ledger o node s).acq w' = some q' ∧ q'.epoch < q.epoch := by
  obtain ⟨l, hok, hexact⟩ := ha.exact
  have hnodes := ha.coherent.nodes
  have hn := hnodes.node_of_blocks hb
  rcases hexact.target_mem w q hq hfirst c hc with ⟨d, hd, hl⟩ | ⟨w₁, q₁, h₁, hn₁, he⟩ | ⟨e, he, -⟩
  · -- the copy of `c` is the one in use, so that `w'` cannot have been granted the next
    exfalso
    have hlive := hok.live_epoch c d hd
    have hkeeps : ∀ q', (ledger o node s).acq w' = some q' → w' = w := by
      intro q' hq'
      have hk := hok.live_acq c d w' q' hd hq' (by rw [Pc.acquisition_node hq', hn])
      obtain ⟨hf', hr', -⟩ := hexact.keeps_live w' q' hq' hk
      have he' := hexact.ready_epoch w' q' hq' hf' hr'
      exact hok.first_unique w' w q' q hq' hq hf' hfirst (by omega)
    have hnot : ∀ q', (ledger o node s).acq w' ≠ some q' := by
      intro q' hq'
      exact hself (hkeeps q' hq' ▸ hn.symm)
    unfold BlockedBy at hw'
    split at hw'
    case h_1 t hpc =>
      -- a frame that has just been inserted is no copy
      obtain ⟨-, f, hf, hh⟩ := hb
      have hfit := ((hnodes c).held f w' hf hh).2
      rw [hpc] at hfit
      have hcopy : f.copy c (s.provider c) = some d := by simpa [hf] using hd
      rw [Frame.copy_of_state (by simp [hfit.2.1])] at hcopy
      cases hcopy
    case h_2 hpc => exact hnot _ (by rw [ledger_acq, hpc]; rfl)
    case h_3 hpc => exact hnot _ (by rw [ledger_acq, hpc]; rfl)
    case h_4 t old hpc =>
      -- the owner's version has moved on, and the PUR would be refused
      obtain ⟨⟨-, fo, hfo, -⟩, hold⟩ := hw'
      have hold' := hnodes.live_of_update hb hpc hd
      have hepoch : (ledger o node s).epoch = fo.pVersion := ledger_epoch hfo
      rw [hold fo hfo] at hepoch
      have hrange := hok.first_range w q hq hfirst
      omega
    case h_5 => exact hw'
  · -- whoever has been granted the version before has latched the frame
    obtain ⟨f, hf, hh⟩ := (hnodes (node w₁)).holds w₁ rfl (Pc.acquisition_latched h₁)
    have hb₁ : Blocks s c w' := hb
    obtain ⟨-, f', hf', hh'⟩ := hb₁
    have hc₁ : node w₁ = c := (Pc.acquisition_node h₁).symm.trans hn₁
    rw [hc₁, hf'] at hf
    obtain rfl := Option.some.inj hf
    obtain rfl : w' = w₁ := by simpa [hh'] using hh
    exact ⟨q₁, h₁, by omega⟩
  · -- a frame that has been left behind is not latched
    obtain ⟨-, f, hf, hh⟩ := hb
    have hleft : f.left = some e := by simpa [hf] using he
    simp [Frame.left, hh] at hleft

theorem BlockedBy.acquires (ha : Accounted o node s) (helse : ∀ w, (s.pc w).Elsewhere (node w))
    (hw : BlockedBy o s w w') (hw' : BlockedBy o s w' w'') :
    ∃ q', (ledger o node s).acq w' = some q' ∧
      ∀ q, (ledger o node s).acq w = some q → q'.epoch < q.epoch := by
  have hnodes := ha.coherent.nodes
  have hself := helse w
  -- a worker that has not been granted anything waits for the owner
  have howner : Blocks s o w' → (s.pc w).acquisition (node w) = none →
      ∃ q', (ledger o node s).acq w' = some q' ∧
        ∀ q, (ledger o node s).acq w = some q → q'.epoch < q.epoch := by
    intro hb hnone
    obtain ⟨q', hq'⟩ := hw'.acquires_of_owner hnodes hb
    refine ⟨q', hq', fun q hq => ?_⟩
    rw [ledger_acq, hnone] at hq
    cases hq
  -- the others have been granted the page, and wait for a node that has to give it up
  have htarget : ∀ q c, (ledger o node s).acq w = some q → q.first = true → c ∈ q.targets →
      c ≠ node w → Blocks s c w' → ∃ q', (ledger o node s).acq w' = some q' ∧
        ∀ q, (ledger o node s).acq w = some q → q'.epoch < q.epoch := by
    intro q c hq hfirst hc hne hb
    obtain ⟨q', hq', hlt⟩ := acquires_of_target ha hq hfirst hc hne hb hw'
    refine ⟨q', hq', fun q₁ hq₁ => ?_⟩
    rw [hq] at hq₁
    exact Option.some.inj hq₁ ▸ hlt
  unfold BlockedBy at hw
  split at hw
  case h_1 t hpc => exact howner hw (by rw [hpc]; rfl)
  case h_2 g t e c rest hpc =>
    rw [hpc] at hself
    exact htarget _ c (by rw [ledger_acq, hpc]; rfl) rfl (Set.mem_insert ..) hself hw
  case h_3 g t e pending hpc =>
    obtain ⟨c, hc, hb⟩ := hw
    rw [hpc] at hself
    have hmem : c ∈ ((Plan.invalidate pending).acquisition (node w) g t e).targets := by
      simpa [Plan.acquisition] using hc
    refine htarget _ c (by rw [ledger_acq, hpc]; rfl) rfl hmem ?_ hb
    rintro rfl
    simp [Pc.Elsewhere, hc] at hself
  case h_4 t old hpc => exact howner hw.1 (by rw [hpc]; rfl)
  case h_5 => exact hw.elim

end Waits

/-! ## All pages -/

section World

variable {owner : PID → NodeID} {σ : PID → PageState W C}

/-- Whoever is in `fix` has no other guard. -/
def OneCall (σ : PID → PageState W C) : Prop :=
  ∀ w p, ((σ p).pc w).call ≠ none → ∀ q, q ≠ p → (σ q).pc w = .idle

/-- An outstanding request of `w`, about whatever page, waits for `w'`. -/
def Blocked (owner : PID → NodeID) (σ : PID → PageState W C) (w w' : W) : Prop :=
  ∃ p, BlockedBy (owner p) (σ p) w w'

theorem BlockedBy.call {w w' : W} (h : BlockedBy o s w w') :
    (s.pc w).call ≠ none ∧ (s.pc w').call ≠ none := by
  unfold BlockedBy at h
  split at h
  case h_1 hpc => exact ⟨by simp [hpc, Pc.call], h.1⟩
  case h_2 hpc => exact ⟨by simp [hpc, Pc.call], h.1⟩
  case h_3 hpc =>
    obtain ⟨c, -, hb⟩ := h
    exact ⟨by simp [hpc, Pc.call], hb.1⟩
  case h_4 hpc => exact ⟨by simp [hpc, Pc.call], h.1.1⟩
  case h_5 => exact h.elim

theorem Pc.acquisition_call {p : Pc C} {n : NodeID} {q : Acquisition NodeID}
    (h : p.acquisition n = some q) : p.call ≠ none := by
  cases p <;> first | exact Option.some_ne_none _ | cases h

theorem OneCall.page_eq (h : OneCall σ) {w : W} {p q : PID} (hp : ((σ p).pc w).call ≠ none)
    (hq : ((σ q).pc w).call ≠ none) : q = p := by
  by_contra hne
  exact hq (by rw [h w p hp q hne]; rfl)

variable [DecidableEq PID] [DecidableEq W]

/-- The page providers have nothing under way. -/
def Unprovided (s : PageState W C) : Prop := (∀ n, s.provider n = .idle) ∧ s.read = none

theorem Step.unprovided {ssd reclaim : Bool} (h : Unprovided s)
    (st : Step ⟨false, ssd, reclaim⟩ o node s s') : Unprovided s' ∧ ¬ Overlooks s s' := by
  have hsame : s'.provider = s.provider → s'.read = s.read → s'.astray = s.astray →
      Unprovided s' ∧ ¬ Overlooks s s' := by
    intro hp hr ha
    refine ⟨⟨hp ▸ h.1, hr ▸ h.2⟩, ?_⟩
    rintro ⟨hs, hs'⟩
    simp [ha, hs] at hs'
  obtain ⟨hidle, hread⟩ := h
  cases st with
  | worker st => cases st <;> exact hsame rfl rfl rfl
  | handler st => cases st <;> exact hsame rfl rfl rfl
  | provider st =>
    cases st with
    | select he => cases he
    | refuse hp => simp [hidle] at hp
    | accept c hp => simp [hidle] at hp
    | landed hr => simp [hread] at hr
    | overlooked hr => simp [hread] at hr
    | applyAcked hp => simp [hidle] at hp
    | applyRefused hp => simp [hidle] at hp
    | applyStale hp => simp [hidle] at hp
    | retrieved => exact hsame rfl rfl rfl
    | evictOwner _ he => cases he
    | writeBack he => cases he

omit [DecidableEq W] in
theorem Overwrites.unprovided {n : NodeID} (h : Unprovided s) (st : Overwrites n s s') :
    Unprovided s' ∧ ¬ Overlooks s s' := by
  cases st
  refine ⟨h, ?_⟩
  rintro ⟨hs, hs'⟩
  exact Bool.false_ne_true (hs.symm.trans hs')

/-- While the page providers do not run, none of them has anything under way. -/
theorem machine_unprovided {ssd reclaim : Bool}
    (h : (machine ⟨false, ssd, reclaim⟩ o node).Reachable s) : Unprovided s := by
  refine h.invariant (P := Unprovided) (fun s (hs : Init s) => ⟨hs.provider, hs.read⟩) ?_
  intro s s' _ hs st
  cases st with
  | step st => exact (st.unprovided hs).1
  | overwritten st => exact (st.unprovided hs).1

theorem world_unprovided {ssd reclaim : Bool}
    (h : (world ⟨false, ssd, reclaim⟩ owner node).Reachable σ) (p : PID) : Unprovided (σ p) :=
  machine_unprovided (world_page h p)

/-- Without page providers and reclaimed pages no frame is lost and nothing is read. -/
theorem keeping_of_world {ssd : Bool} (h : (world ⟨false, ssd, false⟩ owner node).Reachable σ)
    (p : PID) : (keeping ⟨false, ssd, false⟩ owner node p).Reachable σ := by
  refine h.restrict fun σ σ' hσ hst => ⟨⟨not_staleRemoval fun n => ?_, by simp⟩, fun q => ?_⟩
  · simp [(world_unprovided hσ p).1 n]
  · obtain ⟨r, s', hstep, rfl⟩ := hst
    by_cases hq : q = r
    · subst hq
      rw [Function.update_self]
      cases hstep with
      | step hstep => exact (hstep.unprovided (world_unprovided hσ q)).2
      | overwritten _ hstep => exact (hstep.unprovided (world_unprovided hσ q)).2
    · rw [Function.update_of_ne hq]
      rintro ⟨hs, hs'⟩
      exact Bool.false_ne_true (hs.symm.trans hs')

/-- Conflicts are resolved without a circular wait: while workers call `fix` without holding any
other guard, there is never a set of workers each of which waits for one of the set. -/
theorem no_circular_wait {ssd : Bool}
    (h : ((world ⟨false, ssd, false⟩ owner node).restrict fun _ σ' => OneCall σ').Reachable σ)
    (S : Set W) (hne : S.Nonempty) : ¬ ∀ w ∈ S, ∃ w' ∈ S, Blocked owner σ w w' := by
  have hworld := h.of_restrict
  have hone : OneCall σ := by
    cases h with
    | init h =>
      intro w p hcall
      exact absurd (by rw [(h p).pc w]; rfl) hcall
    | step _ st => exact st.2
  let rank : W → Nat → Prop := fun w e =>
    ∃ p q, (ledger (owner p) node (σ p)).acq w = some q ∧ q.epoch = e
  suffices hrank : ∀ w w' w'', Blocked owner σ w w' → Blocked owner σ w' w'' →
      ∃ e, rank w' e ∧ ∀ e', rank w e' → e < e' from no_knot hrank S hne
  rintro w w' w'' ⟨p, hw⟩ ⟨p', hw'⟩
  -- all of this is about one page
  obtain rfl := hone.page_eq hw.call.2 hw'.call.1
  have hi := keeping_intact (keeping_of_world hworld p')
  have hk : (σ p').known = true := by
    by_contra hk
    rcases (hi.fresh (by simpa using hk)).1.pc w with hpc | hpc <;>
      exact hw.call.1 (by rw [hpc]; rfl)
  obtain ⟨q', hq', hlt⟩ :=
    hw.acquires (hi.known hk).1 (machine_elsewhere (world_page hworld p')) hw'
  refine ⟨q'.epoch, ⟨p', q', hq', rfl⟩, ?_⟩
  rintro r ⟨p, q, hq, rfl⟩
  obtain rfl := hone.page_eq hw.call.1 (Pc.acquisition_call hq)
  exact hlt q hq

/-- Worker 1 waits for the owner's frame while worker 0 reads the page from the SSD. -/
def requestBlocked (s : PageState NodeID Nat) : Bool :=
  match s.pc 0, s.pc 1, s.frame 0 with
  | .load _, .request _, some f => decide (f.holder = some (.worker 0))
  | _, _, _ => false

theorem no_circular_wait_load : ∃ σ : Unit → PageState NodeID Nat,
    Blocked (fun _ => 0) σ 1 0 ∧
      ¬ ∀ w ∈ ({0, 1} : Set NodeID), ∃ w' ∈ ({0, 1} : Set NodeID), Blocked (fun _ => 0) σ w w' := by
  have hrun : (acts ⟨false, false, false⟩ 0 oneWorker (PageState.start 0 true)
      [.start 0 .shared, .insert 0 9, .start 1 .shared, .insert 1 9]).any requestBlocked =
      true := by decide +kernel
  obtain ⟨s, hs, hblocked⟩ := acts_any (PageState.start_init 0 true) hrun
  have hone : ∀ σ : Unit → PageState NodeID Nat, OneCall σ :=
    fun σ w p _ q hne => absurd (Subsingleton.elim q p) hne
  refine ⟨fun _ => s, ⟨(), ?_⟩, no_circular_wait
    (hs.restrict fun _ σ' _ _ => hone σ') {0, 1} ⟨0, by simp⟩⟩
  unfold requestBlocked at hblocked
  split at hblocked
  case h_1 f hload hrequest hf =>
    simp only [BlockedBy, hrequest]
    exact ⟨by simp [hload, Pc.call], f, hf, of_decide_eq_true hblocked⟩
  case h_2 => cases hblocked

end World

end Protocol

end ScaleStore
