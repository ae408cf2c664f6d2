/-
# What the owner's answers stay good for

A worker goes on for a long time with what the owner has told it once: the nodes to
copy the page from, or that a PUR came too late.  And a worker of the owner has the
owner's entry itself as the list of the nodes it has still to tell.  Meanwhile the
directory moves on; what was told still holds when it is used.
-/

import ScaleStore.Protocol.CircularWait

namespace ScaleStore.Protocol

variable {W C : Type} {cfg : Config} {o : NodeID} {node : W → NodeID} {s s' : PageState W C}

/-! ## Nodes to copy the page from -/

/-- Other nodes that a worker on `n` may copy the page of the version `e` from: they possessed it
at that version, and have nothing older since. -/
structure Sources (o n : NodeID) (a : Ledger NodeID W) (e : Nat) (shared : Possessors) : Prop where
  any : shared.any = true
  self : shared.test n = false
  owner : shared.test o = false
  since : ∀ c, shared.test c = true → a.Since c e

/-- What a worker on `n` has been told. -/
def Pc.Told (o n : NodeID) (a : Ledger NodeID W) : Pc C → Prop
  | .response _ r => ∃ plan, r.plan = .ok plan ∧
    ∀ shared, plan = .copy shared → Sources o n a r.pVersion shared
  | .copy _ _ e shared c => Sources o n a e shared ∧ shared.test c = true
  | .copyFailed _ _ e shared => Sources o n a e shared
  | .updated _ old .failed => old < a.epoch
  | _ => True

section Ledgers

variable {a b : Ledger NodeID W} {k : Bool} {l : Nat} {n : NodeID}

theorem Sources.moves {e : Nat} {shared : Possessors} (h : Sources o n a e shared)
    (m : a.Moves k b) (hok : a.Ok l) (hb : b.InUse) : Sources o n b e shared :=
  ⟨h.any, h.self, h.owner, fun c hc => m.since l hok (h.since c hc) hb⟩

theorem Pc.Told.moves {p : Pc C} (h : p.Told o n a) (m : a.Moves k b) (hok : a.Ok l)
    (hb : b.InUse) : p.Told o n b := by
  cases p with
  | response t r =>
    obtain ⟨plan, hplan, hs⟩ := h
    exact ⟨plan, hplan, fun shared hc => (hs shared hc).moves m hok hb⟩
  | copy g t e shared c => exact ⟨h.1.moves m hok hb, h.2⟩
  | copyFailed g t e shared => exact Sources.moves h m hok hb
  | updated t old r =>
    cases r with
    | failed => exact Nat.lt_of_lt_of_le h (m.epoch_le l hok hb)
    | _ => trivial
  | _ => trivial

theorem Enters.told {g : GuardState} {t : Access} {e : Nat} {plan : Plan} {p : Pc C}
    (h : Enters n g t e plan p) (hs : ∀ shared, plan = .copy shared → Sources o n a e shared) :
    p.Told o n a := by
  cases h with
  | copy hc => exact ⟨hs _ rfl, hc⟩
  | _ => trivial

end Ledgers

/-- Upgrades end in exclusive possession. -/
theorem Pc.acquisition_keeps {p : Pc C} {n : NodeID} {q : Acquisition NodeID}
    (h : p.acquisition n = some q) (hk : q.keeps = true) : q.excl = true := by
  cases p with
  | response t r =>
    obtain rfl := Option.some.inj h
    cases hp : r.planned <;> simp [Plan.acquisition, hp] at hk ⊢
    split at hk <;> simp at hk
  | invalidate => exact Option.some.inj h ▸ rfl
  | complete g t e =>
    simp only [Pc.acquisition] at h
    split at h
    · cases h
    · obtain rfl := Option.some.inj h
      simp only [Plan.acquisition] at hk ⊢
      split at hk <;> simp_all
  | updated t old r =>
    cases r with
    | failed => cases h
    | _ => exact Option.some.inj h ▸ rfl
  | move | copy | copyFailed =>
    obtain rfl := Option.some.inj h
    cases hk
  | _ => cases h

/-- The page of a node that asks for an upgrade is in use, at the version before. -/
theorem Nodes.live_of_upgrade {w : W} {t : Access} {old : Nat} (h : Nodes o node s)
    (hpc : s.pc w = .update t old ∨ ∃ r, s.pc w = .updated t old r) :
    ∃ f, s.frame (node w) = some f ∧ node w ≠ o ∧ f.Hot (node w) ∧ f.possession = .shared ∧
      f.pVersion = old + 1 ∧ (ledger o node s).live (node w) = some ⟨old, false⟩ := by
  have hl : (s.pc w).latched = true := by
    rcases hpc with hpc | ⟨r, hpc⟩ <;> simp [hpc, Pc.latched]
  obtain ⟨f, hf, hh⟩ := (h (node w)).holds w rfl hl
  have hg : Ground o (node w) f (old + 1) .remotePossessionChange := by
    have hfit := ((h (node w)).held f w hf hh).2
    rcases hpc with hpc | ⟨r, hpc⟩
    · rwa [hpc] at hfit
    · rw [hpc] at hfit
      exact hfit.1
  obtain ⟨hn, hhot, hx, hv⟩ := hg
  refine ⟨f, hf, hn, hhot, hx, hv, ?_⟩
  simp [hf, Frame.copy, hhot.1, hhot.2.1, h.provider_of_worker hf hh, hx, hv, Frame.byWorker, hh]

theorem ledger_inUse {w : W} (h : ((s.pc w).acquisition (node w)).isSome = true) :
    (ledger o node s).InUse := by
  obtain ⟨q, hq⟩ := Option.isSome_iff_exists.mp h
  exact .inl ⟨w, q, hq⟩

/-- Where something has been told, the page is in use or under way. -/
theorem Nodes.told_inUse {w : W} (h : Nodes o node s) :
    (ledger o node s).InUse ∨ ∀ a : Ledger NodeID W, (s.pc w).Told o (node w) a := by
  rcases hq : (s.pc w).acquisition (node w) with _ | q
  · cases hpc : s.pc w with
    | response | copy | copyFailed => simp [hpc, Pc.acquisition] at hq
    | updated t old r =>
      obtain ⟨f, -, -, -, -, -, hlive⟩ := h.live_of_upgrade (.inr ⟨r, hpc⟩)
      exact .inl (.inr ⟨_, _, hlive⟩)
    | _ => exact .inr fun _ => trivial
  · exact .inl (.inl ⟨w, q, hq⟩)

/-- Whom a shared entry of the owner names has the page at the owner's version. -/
theorem Accounted.sources {f : Frame W C} {n : NodeID} (ha : Accounted o node s)
    (m : (ledger o node s).Moves true (ledger o node s')) (hb : (ledger o node s').InUse)
    (hf : s.frame o = some f) (hl : f.Latchable) (hx : f.possession = .shared)
    (hany : f.possessors.any = true) (hn : f.possessors.test n = false)
    (ho : f.possessors.test o = false) :
    Sources o n (ledger o node s') f.pVersion f.possessors := by
  obtain ⟨l, hok, hexact⟩ := ha.exact
  refine ⟨hany, hn, ho, fun c hc => m.since l hok ?_ hb⟩
  rw [← ledger_epoch hf]
  apply hexact.since hok
  · rw [ledger_dir hf, Frame.view_of_free hl.byWorker]
    simpa [Frame.entry, Frame.isPossessor_shared hx] using hc
  · rw [ledger_dirExcl hf, Frame.view_of_free hl.byWorker]
    simp [Frame.entry, hx]
  · exact fun w q hq hk => Pc.acquisition_keeps hq hk

/-! ## What is told -/

/-- The answer to a possession request says what to do next. -/
theorem Accounted.told_granted {w : W} {t : Access} {f f' : Frame W C} {r : Reply C}
    (ha : Accounted o node s) (m : (ledger o node s).Moves true (ledger o node s'))
    (hpc : s'.pc w = .response t r.1) (hf : s.frame o = some f) (hl : f.Latchable)
    (h : Grant o (node w) f t.desired r f') :
    (Pc.response t r.1 : Pc C).Told o (node w) (ledger o node s') := by
  generalize t.desired = desired at h
  cases h with
  | downgrade | displace | share | give | replace =>
    exact ⟨_, rfl, by rintro _ ⟨⟩⟩
  | join hx hn ho =>
    have hany := (ha.coherent.nodes.settled hf hl.1).shared hx
    refine ⟨.copy f.possessors, by simp [Response.plan, hany, Pure.pure, Except.pure], ?_⟩
    rintro _ ⟨⟩
    exact ha.sources m (ledger_inUse (w := w) (by simp [hpc, Pc.acquisition])) hf hl hx hany hn ho
  | collect _ hany =>
    exact ⟨_, by simp [Response.plan, hany, Pure.pure, Except.pure]; rfl, by rintro _ ⟨⟩⟩
  | revoke _ hany =>
    exact ⟨_, by simp [Response.plan, hany, Pure.pure, Except.pure]; rfl, by rintro _ ⟨⟩⟩

section Steps

variable [DecidableEq W]

/-- What has been told still holds after every step. -/
theorem Step.told (ha : Accounted o node s) (hn' : Nodes o node s')
    (m : (ledger o node s).Moves true (ledger o node s')) (st : Step cfg o node s s')
    (h : ∀ w, (s.pc w).Told o (node w) (ledger o node s)) (w : W) :
    (s'.pc w).Told o (node w) (ledger o node s') := by
  obtain ⟨l, hok, -⟩ := ha.exact
  have hnodes := ha.coherent.nodes
  have keep : ∀ p : Pc C, p.Told o (node w) (ledger o node s) → s'.pc w = p →
      p.Told o (node w) (ledger o node s') := by
    intro p hp hpc
    rcases hn'.told_inUse (w := w) with hb | hall
    · exact hp.moves m hok hb
    · exact hpc ▸ hall _
  have set : ∀ (w' : W) (p : Pc C), s'.pc = Function.update s.pc w' p →
      (w = w' → p.Told o (node w) (ledger o node s')) →
      (s'.pc w).Told o (node w) (ledger o node s') := by
    intro w' p hpc hp
    by_cases hw : w = w'
    · subst hw
      rw [hpc, Function.update_self]
      exact hp rfl
    · have hsame : s'.pc w = s.pc w := by rw [hpc, Function.update_of_ne hw]
      rw [hsame]
      exact keep _ (h w) hsame
  -- the nodes to copy from, once the worker is under way
  have sources : ∀ e shared, ((s'.pc w).acquisition (node w)).isSome = true →
      Sources o (node w) (ledger o node s) e shared →
      Sources o (node w) (ledger o node s') e shared :=
    fun _ _ hacq hs => hs.moves m hok (ledger_inUse hacq)
  cases st with
  | worker st =>
    cases st with
    | undo | write => exact keep _ (h w) rfl
    | insert =>
      refine set _ _ rfl fun _ => ?_
      split <;> trivial
    | downgradeFailed =>
      refine set _ _ rfl fun _ => ?_
      split <;> trivial
    | @changeLocal w' t v f plan f' p c hpc hf hv hl hfun hc hent =>
      refine set _ _ rfl ?_
      rintro rfl
      obtain ⟨hn, hmiss⟩ := Access.functor_local hfun
      subst hn
      refine hent.told ?_
      rintro shared rfl
      cases (Frame.localChange_ok hc).1 with
      | join hx _ hs hany =>
        have ho : f.possessors.test (node w) = false :=
          Frame.isPossessor_shared hx ▸ ((hnodes.settled hf hl.1).of_evicted hs).1
        cases hent with
        | copy =>
          exact ha.sources (f := f) m (ledger_inUse (w := w) (by simp [Pc.acquisition])) hf hl hx
            hany ho ho
    | @receive w' t r f plan p hpc hf hplan hent =>
      refine set _ _ rfl ?_
      rintro rfl
      refine hent.told ?_
      rintro shared rfl
      have htold := h w
      rw [hpc] at htold
      obtain ⟨plan', hplan', hs⟩ := htold
      rw [hplan] at hplan'
      cases hent with
      | copy =>
        exact sources _ _ (by simp [Pc.acquisition]) (hs shared (Except.ok.inj hplan').symm)
    | @updateConflict w' t old e shared f p hpc hf hv hent =>
      refine set _ _ rfl ?_
      rintro rfl
      exact hent.told (by rintro _ ⟨⟩)
    | @copyAgain w' t e shared f p hpc hf hm hent =>
      refine set _ _ rfl ?_
      rintro rfl
      refine hent.told ?_
      rintro _ ⟨⟩
      have htold := h w
      rw [hpc] at htold
      cases hent with
      | copy => exact sources _ _ (by simp [Pc.acquisition]) htold
    | _ => exact set _ _ rfl fun _ => trivial
  | handler st =>
    cases st with
    | requestLoad | loaded | invalidateRetry | updateRetry => exact keep _ (h w) rfl
    | @request w' t f r page f' own hpc hf hl hh hown =>
      refine set _ _ rfl ?_
      rintro rfl
      exact ha.told_granted m (by simp) hf hl (Frame.handlePossessionRequest_grant hh)
    | move _ _ _ _ _ hent =>
      refine set _ _ rfl ?_
      rintro rfl
      exact hent.told (by rintro _ ⟨⟩)
    | invalidate _ _ _ _ _ _ hent =>
      refine set _ _ rfl ?_
      rintro rfl
      exact hent.told (by rintro _ ⟨⟩)
    | copyFailed hpc =>
      refine set _ _ rfl ?_
      rintro rfl
      have htold := h w
      rw [hpc] at htold
      exact sources _ _ (by simp [Pc.acquisition]) htold.1
    | update hpc hf hl hh =>
      refine set _ _ rfl fun _ => ?_
      obtain ⟨-, -, -, hr, -⟩ := Frame.handleUpdate_ok hh
      rw [hr]
      split <;> trivial
    | @updateFailed w' t old f k hpc hf hold =>
      refine set _ _ rfl ?_
      rintro rfl
      obtain ⟨g, -, -, -, -, -, hlive⟩ :=
        @Nodes.live_of_upgrade W C o node _ w t old hn' (.inr ⟨.failed, by simp⟩)
      have hle := m.epoch_le l hok (.inr ⟨_, _, hlive⟩)
      rw [ledger_epoch hf] at hle
      exact Nat.lt_of_lt_of_le hold hle
    | _ => exact set _ _ rfl fun _ => trivial
  | provider st => cases st <;> exact keep _ (h w) rfl

end Steps

/-! ## The owner's entry as a list -/

/-- While a worker of the owner changes the possession of its own page, the frame's entry is the
list of the nodes it has still to tell. -/
def Pc.Lists (f : Frame W C) : Pc C → Prop
  | .move .localPossessionChange _ _ c rest => f.named ⊆ insert c rest.members
  | .invalidate .localPossessionChange _ _ pending => f.named ⊆ pending.members
  | .complete .localPossessionChange .exclusive _ => f.possession = .shared → f.named = ∅
  | _ => True

/-- Whoever holds the owner's frame has it as its list. -/
def Listed (o : NodeID) (s : PageState W C) : Prop :=
  ∀ w f, s.frame o = some f → f.holder = some (.worker w) → (s.pc w).Lists f

theorem Pc.Lists.congr {p : Pc C} {f f' : Frame W C} (h : p.Lists f)
    (hx : f'.possession = f.possession) (hp : f'.possessors = f.possessors) : p.Lists f' := by
  have hn : f'.named = f.named := by simp [Frame.named, hx, hp]
  unfold Lists at h ⊢
  split at h <;> simp_all

theorem Enters.lists {n : NodeID} {g : GuardState} {t : Access} {e : Nat} {shared : Possessors}
    {p : Pc C} {f : Frame W C} (h : Enters n g t e (.invalidate shared) p)
    (hs : g = .localPossessionChange → shared.any = true ∨ f.possession = .shared →
      f.named ⊆ shared.members) : p.Lists f := by
  cases g with
  | localPossessionChange =>
    cases h with
    | invalidate hany => exact hs rfl (.inl hany)
    | none hany =>
      cases t with
      | exclusive =>
        intro hx
        have hsub := hs rfl (.inr hx)
        rwa [Possessors.any_eq_false_iff.mp hany, Finset.subset_empty] at hsub
      | _ => trivial
  | _ => cases h <;> trivial

theorem Enters.lists_move {n : NodeID} {g : GuardState} {t : Access} {e : Nat}
    {shared : Possessors} {p : Pc C} {f : Frame W C} (h : Enters n g t e (.move shared) p)
    (hs : f.named ⊆ shared.members) : p.Lists f := by
  cases h with
  | @move shared c hc =>
    cases g with
    | localPossessionChange =>
      show f.named ⊆ insert c (shared.reset c).members
      rwa [Possessors.members_reset, Finset.insert_erase (Possessors.mem_members.mpr hc)]
    | _ => trivial

theorem Enters.lists_elsewhere {n : NodeID} {g : GuardState} {t : Access} {e : Nat} {plan : Plan}
    {p : Pc C} {f : Frame W C} (h : Enters n g t e plan p) (hg : g ≠ .localPossessionChange) :
    p.Lists f := by
  cases g with
  | localPossessionChange => exact absurd rfl hg
  | _ => cases h <;> trivial

namespace Listed

variable [DecidableEq W] {w : W} {p : Pc C} {f' : Frame W C} {k : Nat}

/-- A worker has the frame of its node and goes on. -/
theorem hold (h : Listed o s) (hn : Nodes o node s) (hh : f'.holder = some (.worker w))
    (hp : node w = o → p.Lists f') : Listed o ((s.setFrame (node w) (some f') k).setPc w p) := by
  intro w' f hf hw'
  by_cases ho : node w = o
  · obtain rfl : f' = f := by simpa [ho] using hf
    obtain rfl : w = w' := by simpa [hh] using hw'
    simpa using hp ho
  · have hf' : s.frame o = some f := by simpa [Ne.symm ho] using hf
    have hne : w' ≠ w := by
      rintro rfl
      exact ho ((hn o).held f w' hf' hw').1
    simpa [hne] using h w' f hf' hw'

/-- A worker leaves the frame of its node unlatched, or removes it. -/
theorem free {fr : Option (Frame W C)} (h : Listed o s) (hn : Nodes o node s)
    (hh : ∀ f', fr = some f' → f'.holder = none) :
    Listed o ((s.setFrame (node w) fr k).setPc w p) := by
  intro w' f hf hw'
  by_cases ho : node w = o
  · have hfree := hh f (by simpa [ho] using hf)
    simp [hfree] at hw'
  · have hf' : s.frame o = some f := by simpa [Ne.symm ho] using hf
    have hne : w' ≠ w := by
      rintro rfl
      exact ho ((hn o).held f w' hf' hw').1
    simpa [hne] using h w' f hf' hw'

omit [DecidableEq W] in
theorem congr (h : Listed o s) (hf : s'.frame o = s.frame o) (hpc : s'.pc = s.pc) :
    Listed o s' := by
  intro w f hf' hw
  rw [hf] at hf'
  rw [hpc]
  exact h w f hf' hw

theorem pc (h : Listed o s)
    (hp : ∀ f, s.frame o = some f → f.holder = some (.worker w) → p.Lists f) :
    Listed o (s.setPc w p) := by
  intro w' f hf hw'
  by_cases hw : w' = w
  · subst hw
    simpa using hp f hf hw'
  · simpa [hw] using h w' f hf hw'

omit [DecidableEq W] in
/-- The frame of a node changes by itself. -/
theorem frame {n : NodeID} {fr : Option (Frame W C)} (h : Listed o s)
    (hfr : n = o → ∀ f' w, fr = some f' → f'.holder = some (.worker w) →
      (s.pc w).Lists f') : Listed o (s.setFrame n fr k) := by
  intro w' f hf hw'
  by_cases ho : n = o
  · exact hfr ho f w' (by simpa [ho] using hf) hw'
  · exact h w' f (by simpa [Ne.symm ho] using hf) hw'

end Listed

theorem LocalChange.lists {n : NodeID} {t : Access} {e : Nat} {f f' : Frame W C} {plan : Plan}
    {p : Pc C} {x : Option (Holder W)} (h : LocalChange o t f plan f')
    (hent : Enters n .localPossessionChange t e plan p) : p.Lists { f' with holder := x } := by
  cases h with
  | displace hx =>
    apply hent.lists_move
    simp [Frame.named, hx]
  | collect hx =>
    apply hent.lists_move
    simp [Frame.named, hx]
  | revoke hx =>
    refine hent.lists fun _ _ => ?_
    simp [Frame.named, hx]
  | join => cases hent with | copy => trivial

/-- An answered PMR takes the node off the list. -/
theorem Frame.named_forget {f : Frame W C} {c : NodeID} {nodes : Finset NodeID}
    (hx : f.possession = .shared) (h : f.named ⊆ insert c nodes) :
    (f.forget .localPossessionChange c).named ⊆ nodes := by
  intro m hm
  have hm' : m ∈ f.named ∧ m ≠ c := by
    simpa [Frame.forget, hx, Frame.named, and_comm] using hm
  exact (Finset.mem_insert.mp (h hm'.1)).resolve_left hm'.2

theorem Frame.forget_holder {f : Frame W C} (g : GuardState) (c : NodeID) :
    (f.forget g c).holder = f.holder ∧ (f.forget g c).possession = f.possession := by
  unfold Frame.forget
  split
  · split <;> simp_all
  · exact ⟨rfl, rfl⟩

section Steps

variable [DecidableEq W]

theorem WorkerStep.listed (hn : Nodes o node s) (st : WorkerStep cfg o node s s')
    (h : Listed o s) : Listed o s' := by
  cases st with
  | start | peek | retry | hitOptimistic | releaseOptimistic | read | updateDone =>
    exact h.pc fun _ _ _ => trivial
  | downgradeFailed =>
    refine h.pc fun _ _ _ => ?_
    split <;> trivial
  | updateConflict _ _ _ hent | copyAgain _ _ _ hent =>
    exact h.pc fun _ _ _ => hent.lists_elsewhere (by simp)
  | insert =>
    refine h.hold hn rfl fun _ => ?_
    split <;> trivial
  | undo hf hl => exact h.frame fun _ f' w hf' hw => by simp [← Option.some.inj hf', hl.1] at hw
  | hitExclusive | changeRemote => exact h.hold hn rfl fun _ => trivial
  | changeLocal c hpc hf hv hl hfun hc hent =>
    exact h.hold hn rfl fun _ => (Frame.localChange_ok hc).1.lists hent
  | load hpc hf => exact h.hold hn (hn.fits hpc rfl hf).1 fun _ => trivial
  | @write w f c hpc hf =>
    intro w' f' hf' hw'
    by_cases ho : node w = o
    · obtain rfl : { f with page := some c } = f' := by simpa [ho] using hf'
      exact (h w' f (ho ▸ hf) hw').congr rfl rfl
    · exact h w' f' (by simpa [Ne.symm ho] using hf') hw'
  | receive hpc hf hplan hent =>
    exact h.hold hn (hn.fits hpc rfl hf).1 fun _ => hent.lists_elsewhere (by simp)
  | completeExclusive hpc hf hc =>
    rw [Frame.complete_eq] at hc
    obtain rfl := Except.ok.inj hc
    exact h.hold hn (hn.fits hpc rfl hf).1 fun _ => trivial
  | hitShared hpc hf hv hfree | downgraded hpc hf hv hfree | optimisticToShared hpc hf hfree =>
    exact h.free hn fun f' hf' => by simp [← Option.some.inj hf', hfree]
  | releaseShared hpc hf | sharedToOptimistic hpc hf =>
    exact h.free hn fun f' hf' => by simp [← Option.some.inj hf', hn.free_of_reader hpc hf]
  | newPage c hk hpc hw hf =>
    subst hw
    exact h.hold hn rfl fun _ => trivial
  | allocate => exact h.hold hn rfl fun _ => trivial
  | reclaimPage => exact h.free hn fun f' hf' => by cases hf'
  | _ => exact h.free hn fun f' hf' => by simp [← Option.some.inj hf']

/-- Nobody but its worker changes the entry of a latched frame. -/
theorem HandlerStep.listed (hn : Nodes o node s) (st : HandlerStep o node s s')
    (h : Listed o s) : Listed o s' := by
  cases st with
  | requestLoad | loaded =>
    refine h.frame fun _ f' w hf' hw => ?_
    simp [← Option.some.inj hf', ssdFrame] at hw
  | @request w t f r page f' own hpc hf hl hh hown =>
    obtain ⟨hhold, -, hne, -⟩ := hn.fits hpc rfl hown
    have hfree : f'.holder = none := by
      have hgrant := Frame.handlePossessionRequest_grant hh
      generalize t.desired = desired at hgrant
      cases hgrant <;> exact hl.1
    intro w' f₁ hf₁ hw'
    obtain rfl : f' = f₁ := by simpa [Ne.symm hne] using hf₁
    simp [hfree] at hw'
  | @move w g t e c rest f x own p hpc hf hl hx hown hent =>
    obtain ⟨hhold, -, hg, hway, hco, -, -, -, hlocal⟩ := hn.fits hpc rfl hown
    have hhold' := (own.forget_holder g c).1.trans hhold
    refine Listed.congr
      (s := (s.setFrame (node w) (some { own.forget g c with page := some x }) 0).setPc w p)
      (h.hold hn hhold' fun ho => hent.lists ?_)
      (by simp [Function.update_apply, Ne.symm hco]) rfl
    rintro rfl hlist
    obtain ⟨-, hexcl, -⟩ := hlocal rfl
    have hx' : own.possession = .shared := by
      rcases hlist with hany | hx
      · cases hpos : own.possession with
        | nobody => exact absurd hpos hg.2.1
        | exclusive => exact absurd hany (by simp [hexcl hpos])
        | shared => rfl
      · exact (own.forget_holder _ c).2.symm.trans hx
    have hold := h w own (ho ▸ hown) hhold
    rw [hpc] at hold
    exact Frame.named_forget hx' hold
  | @invalidate w g t e pending c f x own p hpc hc hf hl hx hown hent =>
    obtain ⟨hhold, -, hg, -, -, hpo, -, hlocal⟩ := hn.fits hpc rfl hown
    have hco : c ≠ o := by
      rintro rfl
      simp [hpo] at hc
    have hhold' := (own.forget_holder g c).1.trans hhold
    refine Listed.congr (s := (s.setFrame (node w) (some (own.forget g c)) 0).setPc w p)
      (h.hold hn hhold' fun ho => hent.lists ?_)
      (by simp [Function.update_apply, Ne.symm hco]) rfl
    rintro rfl -
    have hold := h w own (ho ▸ hown) hhold
    rw [hpc] at hold
    refine Frame.named_forget (hlocal rfl) ?_
    rwa [Possessors.members_reset, Finset.insert_erase (Possessors.mem_members.mpr hc)]
  | @invalidateRetry w g t e pending c f hpc hc hf =>
    refine h.frame fun ho f' w' hf' hw' => ?_
    obtain rfl := Option.some.inj hf'
    exact (h w' f (ho ▸ hf) hw').congr rfl rfl
  | @copy w g t e shared c f x own hpc hf hfree hh hown =>
    obtain ⟨hhold, -, -, -, ht, -⟩ := hn.fits hpc rfl hown
    refine h.hold hn hhold fun _ => ?_
    cases g with
    | localPossessionChange =>
      cases t with
      | exclusive => exact absurd rfl ht
      | _ => trivial
    | _ => trivial
  | copyFailed => exact h.pc fun _ _ _ => trivial
  | @update w t old f r f' hpc hf hl hh =>
    obtain ⟨-, -, -, -, rfl⟩ := Frame.handleUpdate_ok hh
    intro w' f₁ hf₁ hw'
    simp [← Option.some.inj (show some _ = some f₁ by simpa using hf₁), hl.1] at hw'
  | @updateFailed w t old f k hpc hf hold hk =>
    refine Listed.pc (h.frame fun _ f' w' hf' hw' => ?_) fun _ _ _ => trivial
    obtain rfl := Option.some.inj hf'
    exact (h w' f hf hw').congr rfl rfl
  | @updateRetry w t old f hpc hf hv =>
    refine h.frame fun _ f' w' hf' hw' => ?_
    obtain rfl := Option.some.inj hf'
    exact (h w' f hf hw').congr rfl rfl
  | allocation =>
    refine Listed.pc (h.frame fun _ f' w' hf' hw' => ?_) fun _ _ _ => trivial
    simp [← Option.some.inj hf', allocatedFrame] at hw'

theorem Step.listed {ssd reclaim : Bool} (hn : Nodes o node s) (hidle : Unprovided s)
    (st : Step ⟨false, ssd, reclaim⟩ o node s s') (h : Listed o s) : Listed o s' := by
  obtain ⟨hidle, hread⟩ := hidle
  cases st with
  | worker st => exact st.listed hn h
  | handler st => exact st.listed hn h
  | provider st =>
    cases st with
    | select he => cases he
    | refuse hp => simp [hidle] at hp
    | accept c hp => simp [hidle] at hp
    | landed hr => simp [hread] at hr
    | overlooked hr => simp [hread] at hr
    | applyAcked hp => simp [hidle] at hp
    | applyRefused hp => simp [hidle] at hp
    | applyStale hp => simp [hidle] at hp
    | retrieved => exact h.frame fun _ f' w hf' hw => by simp [← Option.some.inj hf'] at hw
    | evictOwner _ he => cases he
    | writeBack he => cases he

end Steps

end ScaleStore.Protocol
