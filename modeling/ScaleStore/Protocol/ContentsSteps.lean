/-
# Steps keep the contents

One case for each step of the machine: a frame that comes to have the page gets it
from a frame that has it, or from the SSD while the SSD is up to date.
-/

import ScaleStore.Protocol.Contents

namespace ScaleStore.Protocol

variable {W C : Type} {cfg : Config} {o : NodeID} {node : W → NodeID} {s s' : PageState W C}

/-! ## Workers -/

/-- The ledger of the page is in order and has lost nothing. -/
structure Accounted (o : NodeID) (node : W → NodeID) (s : PageState W C) : Prop where
  coherent : Coherent o node s
  exact : ∃ l, (ledger o node s).Ok l ∧ (ledger o node s).Exact l

theorem LocalChange.flags {f f' : Frame W C} {t : Access} {plan : Plan}
    (h : LocalChange o t f plan f') : f'.dirty = f.dirty ∧ f'.state = f.state := by
  cases h <;> exact ⟨rfl, rfl⟩

theorem Nodes.hot_live {f : Frame W C} (h : Nodes o node s) (hhot : f.Hot o) :
    f.Live o (s.provider o) := ⟨hhot.1, hhot.2.1, by simp [h.provider_owner]⟩

section Steps

variable [DecidableEq W]

/-- A worker changes the frame of its node, but not the page in it. -/
theorem Contents.keep {w : W} {p : Pc C} {f f' : Frame W C} {k : Nat} (h : Contents o node s)
    (hn : Nodes o node s) (hf : s.frame (node w) = some f) (hpage : f'.page = f.page)
    (hd : f.dirty = true → f'.dirty = true) (hst : f'.state = .ioSsd → f.state = .ioSsd)
    (hc : f'.Carries (node w) (s.provider (node w)) (Function.update s.pc w p) →
      f.Carries (node w) (s.provider (node w)) s.pc)
    (hs : node w ≠ o → f'.Seizes (node w) (s.provider (node w)) (Function.update s.pc w p) →
      f.Seizes (node w) (s.provider (node w)) s.pc)
    (hp : ∀ v c, p ≠ .guardO v (some c)) (hx : p = .guardX → f'.dirty = true)
    (hh : ∀ w', f'.holder = some (.worker w') → w' = w) :
    Contents o node ((s.setFrame (node w) (some f') k).setPc w p) := by
  constructor
  case pages =>
    refine h.pages.set hn hp ?_
    rintro _ ⟨rfl⟩ hc'
    rw [hpage]
    exact h.pages.page _ f hf (hc hc')
  case home => exact h.home.keep hn.placed hf hd hst hs hx hh

theorem Contents.pc {w : W} {p : Pc C} (h : Contents o node s) (hn : Nodes o node s)
    (hp : ∀ v c, p ≠ .guardO v (some c)) (hx : p ≠ .guardX)
    (ha : p.acquired = true → (s.pc w).acquired = true)
    (hs : p.seizes = true → (s.pc w).seizes = true) : Contents o node (s.setPc w p) :=
  ⟨h.pages.pc hn hp ha, h.home.pc hx fun hp => .inl (hs hp)⟩

/-- A worker that holds no latch goes on, or gives back the one that it has. -/
theorem Contents.free {w : W} {p : Pc C} {f f' : Frame W C} {k : Nat} (h : Contents o node s)
    (hn : Nodes o node s) (hf : s.frame (node w) = some f)
    (hl : f.holder = none ∨ (s.pc w).latched = true) (hh : f'.holder = none)
    (hsame : f' = { f with pVersion := f'.pVersion, readers := f'.readers, holder := none })
    (hp : ∀ v c, p ≠ .guardO v (some c)) (hx : p ≠ .guardX) :
    Contents o node ((s.setFrame (node w) (some f') k).setPc w p) := by
  have hnone : ∀ w, f'.holder ≠ some (.worker w) := by simp [hh]
  have hlive : ∀ {n q}, f'.Live n q → f.Live n q := by
    intro n q hl
    rw [hsame] at hl
    exact hl
  refine h.keep hn hf ?_ ?_ ?_ ?_ ?_ hp (fun hp => absurd hp hx) (by simp [hh])
  · rw [hsame]
  · rw [hsame]
    exact id
  · rw [hsame]
    exact id
  · refine fun hc => (hlive (hc.live hnone)).carries (hl.imp_right fun hl => ⟨w, ?_⟩)
    exact (hn (node w)).holder_eq hf rfl hl
  · intro _ hs
    obtain ⟨hl, hpos⟩ := hs.live hnone
    rw [hsame] at hpos
    exact .inl ⟨hlive hl, hpos⟩

theorem Enters.acquired {n : NodeID} {g : GuardState} {t : Access} {e : Nat} {plan : Plan}
    {p : Pc C} (h : Enters n g t e plan p) (ha : p.acquired = true) :
    (∃ shared, plan = .invalidate shared) ∨ plan = .complete := by
  cases h with
  | move => simp [Pc.acquired] at ha
  | copy => simp [Pc.acquired] at ha
  | invalidate => exact .inl ⟨_, rfl⟩
  | none => exact .inl ⟨_, rfl⟩
  | complete => exact .inr rfl

theorem Enters.seizes {n : NodeID} {g : GuardState} {t : Access} {e : Nat} {plan : Plan}
    {p : Pc C} (h : Enters n g t e plan p) (hs : p.seizes = true) : t = .exclusive := by
  cases h with
  | copy => simp [Pc.seizes] at hs
  | _ => simpa [Pc.seizes] using hs

theorem Enters.not_guard {n : NodeID} {g : GuardState} {t : Access} {e : Nat} {plan : Plan}
    {p : Pc C} (h : Enters n g t e plan p) : p ≠ .guardX ∧ ∀ v c, p ≠ .guardO v (some c) := by
  cases h <;> simp

theorem Response.acquired_of_planned {t : Access} {r : Response}
    (h : (∃ shared, r.planned = .invalidate shared) ∨ r.planned = .complete) :
    (Pc.response t r : Pc C).acquired = true := by
  unfold Response.planned at h
  rcases hr : r.result with _ | _ | _ | _ | _ <;> simp [hr] at h
  · simp [Pc.acquired, hr]
  · simp [Pc.acquired, hr]

/-- A worker of the owner that begins LOCAL_POSSESSION_CHANGE has the page only if the owner
had it. -/
theorem LocalChange.page {f f' : Frame W C} {t : Access} {plan : Plan} {g : GuardState} {e : Nat}
    {p : Pc C} {q : Provider} {pc : W → Pc C} {w : W} (hc : LocalChange o t f plan f')
    (hs : f.Settled o) (hmiss : t.Misses o f) (hp : Enters o g t e plan p)
    (hcarry : Frame.Carries { f' with holder := some (.worker w) } o q (Function.update pc w p)) :
    f'.page = f.page ∧ f.Hot o := by
  have hcases := hcarry.of_worker rfl
  rw [Function.update_self] at hcases
  cases hc with
  | displace hx =>
    exfalso
    have hno : f.isPossessor o = false := hmiss.resolve_right fun h => h.2 hx
    rcases hcases with hl | ha
    · have := hl.2.1
      simp [Frame.isPossessor, hx] at this hno
      exact hno this
    · cases hp
      simp [Pc.acquired] at ha
  | collect hx _ hst =>
    exfalso
    rcases hcases with hl | ha
    · have := hl.1
      simp [hst] at this
    · cases hp
      simp [Pc.acquired] at ha
  | join hx _ hst =>
    exfalso
    rcases hcases with hl | ha
    · have := hl.1
      simp [hst] at this
    · cases hp
      simp [Pc.acquired] at ha
  | revoke hx _ hnone hkeep =>
    have hst : f.state ≠ .evicted := by
      intro hev
      have hno := (hs.of_evicted hev).1
      rw [Frame.isPossessor_shared hx] at hno
      obtain ⟨n, hn⟩ := Possessors.any_iff.mp (hs.shared hx)
      have hmem : n ∈ (f.possessors.reset o).members := by
        rw [Possessors.members_reset, Finset.mem_erase]
        refine ⟨?_, hn⟩
        rintro rfl
        simp [hno] at hn
      simp [Possessors.any_eq_false_iff.mp (hnone hev)] at hmem
    refine ⟨hkeep hst, ?_⟩
    rcases hs.hot with hhot | ⟨hev, -⟩
    · exact hhot
    · exact absurd hev hst

theorem WorkerStep.contents (hkn : s.known = true)
    (hr : cfg.reclaim = true → ¬ Reclaims node s s') (ha : Accounted o node s)
    (h : Contents o node s) (st : WorkerStep cfg o node s s') :
    Contents o node s' := by
  obtain ⟨hco, l, hok, hexact⟩ := ha
  have hn := hco.nodes
  cases st with
  | start _ hpc => exact h.pc hn (by simp) (by simp) (by simp [Pc.acquired]) (by simp [Pc.seizes])
  | peek hpc => exact h.pc hn (by simp) (by simp) (by simp [Pc.acquired]) (by simp [Pc.seizes])
  | retry hpc => exact h.pc hn (by simp) (by simp) (by simp [Pc.acquired]) (by simp [Pc.seizes])
  | hitOptimistic hpc =>
    exact h.pc hn (by simp) (by simp) (by simp [Pc.acquired]) (by simp [Pc.seizes])
  | releaseOptimistic hpc =>
    exact h.pc hn (by simp) (by simp) (by simp [Pc.acquired]) (by simp [Pc.seizes])
  | @downgradeFailed w v again hpc =>
    cases again <;>
      exact h.pc hn (by simp) (by simp) (by simp [Pc.acquired]) (by simp [Pc.seizes])
  | @insert w t c hpc hf =>
    have hcarry : ∀ {st : BfState} {p : Pc C}, st ≠ .hot → p.acquired = false →
        ¬ (Frame.fresh (.worker w) st c).Carries (node w) (s.provider (node w))
          (Function.update s.pc w p) := by
      intro st p hst hp hc
      rcases hc.of_worker rfl with hl | ha
      · exact hst hl.1
      · simp [hp] at ha
    have hseize : ∀ {st : BfState} {p : Pc C}, p.seizes = false →
        ¬ (Frame.fresh (.worker w) st c).Seizes (node w) (s.provider (node w))
          (Function.update s.pc w p) := by
      intro st p hp hc
      rcases hc.of_worker rfl with ⟨-, hx⟩ | ha
      · simp [Frame.fresh] at hx
      · simp [hp] at ha
    constructor
    case pages =>
      refine h.pages.set hn ?_ ?_
      · split <;> simp
      · rintro _ ⟨rfl⟩ hc
        refine absurd hc (hcarry ?_ ?_)
        · split <;> simp
        · split <;> rfl
    case home =>
      refine h.home.set hn.placed ?_ ?_ ?_ ?_ ?_
      · intro hno f hf'
        simp [← hno, hf] at hf'
      · intro hno hnone n f hne hf'
        obtain ⟨he, hd⟩ : (ledger o node s).epoch = 0 ∧ (ledger o node s).dir = ∅ :=
          ledger_none hnone
        exact hn.not_seizes_of_blank hok he hd hne hf'
      · intro _ hs
        refine absurd hs (hseize ?_)
        split <;> rfl
      · split <;> simp
      · simp [Frame.fresh]
  | @undo n f hf hl =>
    constructor
    case pages =>
      refine h.pages.frame hn ?_
      rintro _ ⟨rfl⟩ hc
      exact h.pages.page n f hf hc
    case home => exact h.home.frame hf id id (fun _ => id) (fun _ => id)
  | @hitExclusive w v f hpc hf hv hl hfun =>
    refine h.keep hn hf rfl (fun _ => rfl) id ?_ ?_ (by simp) (fun _ => rfl) (by simp)
    · intro hc
      have hlive : f.Live (node w) (s.provider (node w)) :=
        (hc.of_worker rfl).resolve_right (by simp [Pc.acquired])
      exact hlive.carries (.inl hl.1)
    · exact fun _ hs => .inl ((hs.of_worker rfl).resolve_right (by simp [Pc.seizes]))
  | hitShared hpc hf _ hfree =>
    exact h.free hn hf (.inl hfree) hfree (by simp [← hfree]) (by simp) (by simp)
  | @changeLocal w t v f plan f' p c hpc hf hv hl hfun hc hp =>
    obtain ⟨hno, hmiss⟩ := Access.functor_local hfun
    have hchange := (Frame.localChange_ok hc).1
    have hflags := hchange.flags
    constructor
    case pages =>
      refine h.pages.set hn hp.not_guard.2 ?_
      rintro _ ⟨rfl⟩ hcarry
      rw [hno] at hf hmiss hchange hp hcarry
      obtain ⟨hpage, hhot⟩ := hchange.page (hn.settled hf hl.1) hmiss hp hcarry
      exact hpage.trans (h.pages.page o f hf ((hn.hot_live hhot).carries (.inl hl.1)))
    case home =>
      refine h.home.keep hn.placed hf ?_ ?_ (fun hne => absurd hno hne)
        (fun hx => absurd hx hp.not_guard.1) (by simp)
      · simp [hflags.1]
      · simp [hflags.2]
  | @changeRemote w t v f old f' hpc hf hv hl hfun hc =>
    obtain ⟨hx, hst, rfl, rfl⟩ := Frame.remoteChange_ok hc
    refine h.keep hn hf rfl id id ?_ ?_ (by simp) (by simp) (by simp)
    · intro hc
      have hlive : f.Live (node w) (s.provider (node w)) :=
        (hc.of_worker rfl).resolve_right (by simp [Pc.acquired])
      exact hlive.carries (.inl hl.1)
    · exact fun _ hs => .inl ((hs.of_worker rfl).resolve_right (by simp [Pc.seizes]))
  | @load w t f hpc hf =>
    obtain ⟨hh, -, hno, ⟨hst, -⟩, -⟩ := hn.fits hpc rfl hf
    constructor
    case pages =>
      refine h.pages.set hn (by simp) ?_
      rintro _ ⟨rfl⟩ -
      have hdisk := h.home.saved (by
        intro g hg _
        rw [← hno, hf] at hg
        exact Option.some.inj hg ▸ hst)
      simp [hdisk]
    case home =>
      exact h.home.keep hn.placed hf id id (fun hne => absurd hno hne) (by simp) (by simp [hh])
  | @receive w t r f plan p hpc hf hplan hp =>
    obtain ⟨hh, -, -⟩ := hn.fits hpc rfl hf
    obtain rfl := Response.plan_eq hplan
    refine h.keep hn hf rfl id id ?_ ?_ hp.not_guard.2 (fun hx => absurd hx hp.not_guard.1)
      (by simp [hh])
    · intro hc
      rcases hc.of_worker hh with hl | ha
      · exact hl.carries (.inr ⟨w, hh⟩)
      · refine .inr ⟨w, hh, ?_⟩
        rw [Function.update_self] at ha
        rw [hpc]
        exact Response.acquired_of_planned (hp.acquired ha)
    · intro _ hs
      rcases hs.of_worker hh with hl | ha
      · exact .inl hl
      · refine .inr ⟨w, hh, ?_⟩
        rw [Function.update_self] at ha
        simp [hpc, Pc.seizes, hp.seizes ha]
  | @completeExclusive w g e f f' hpc hf hc =>
    obtain ⟨hh, -, -⟩ := hn.fits hpc rfl hf
    rw [Frame.complete_eq] at hc
    obtain rfl := Except.ok.inj hc
    refine h.keep hn hf rfl (fun _ => rfl) (by simp [Frame.withPossessor]) ?_ ?_ (by simp)
      (fun _ => rfl) (by simp [Frame.withPossessor, hh])
    · exact fun _ => .inr ⟨w, hh, by simp [hpc, Pc.acquired]⟩
    · exact fun _ _ => .inr ⟨w, hh, by simp [hpc, Pc.seizes]⟩
  | @completeDiscarded w g e f f' hpc hf hc =>
    obtain ⟨hh, -, -⟩ := hn.fits hpc rfl hf
    rw [Frame.complete_eq] at hc
    obtain rfl := Except.ok.inj hc
    refine h.keep hn hf rfl id (by simp [Frame.withPossessor]) ?_ ?_ (by simp) (by simp) (by simp)
    · exact fun _ => .inr ⟨w, hh, by simp [hpc, Pc.acquired]⟩
    · exact fun _ _ => .inr ⟨w, hh, by simp [hpc, Pc.seizes]⟩
  | @completeShared w g e f f' hpc hf hc =>
    obtain ⟨hh, -, -⟩ := hn.fits hpc rfl hf
    rw [Frame.complete_eq] at hc
    obtain rfl := Except.ok.inj hc
    refine h.keep hn hf rfl id (by simp [Frame.withPossessor]) ?_ ?_ (by simp) (by simp) (by simp)
    · exact fun _ => .inr ⟨w, hh, by simp [hpc, Pc.acquired]⟩
    · intro _ hs
      have hx := (hs.live (by simp)).2
      simp [Frame.withPossessor, Access.desired] at hx
  | @completeOptimistic w g e f f' hpc hf hc =>
    obtain ⟨hh, -, -⟩ := hn.fits hpc rfl hf
    rw [Frame.complete_eq] at hc
    obtain rfl := Except.ok.inj hc
    refine h.keep hn hf rfl id (by simp [Frame.withPossessor]) ?_ ?_ (by simp) (by simp) (by simp)
    · exact fun _ => .inr ⟨w, hh, by simp [hpc, Pc.acquired]⟩
    · intro _ hs
      have hx := (hs.live (by simp)).2
      simp [Frame.withPossessor, Access.desired] at hx
  | downgraded hpc hf _ hfree =>
    exact h.free hn hf (.inl hfree) hfree (by simp [← hfree]) (by simp) (by simp)
  | updateFailed hpc hf =>
    exact h.free hn hf (.inr (by simp [hpc, Pc.latched])) rfl rfl (by simp) (by simp)
  | updateDone hpc =>
    exact h.pc hn (by simp) (by simp) (by simp [hpc, Pc.acquired]) (by simp [hpc, Pc.seizes])
  | updateConflict hpc _ _ hp =>
    exact h.pc hn hp.not_guard.2 hp.not_guard.1 (by simp [hpc, Pc.acquired])
      (by simp [hpc, Pc.seizes])
  | copyAgain hpc _ _ hp =>
    cases hp
    exact h.pc hn (by simp) (by simp) (by simp [Pc.acquired]) (by simp [Pc.seizes])
  | copyAbandoned hpc hf =>
    exact h.free hn hf (.inr (by simp [hpc, Pc.latched])) rfl rfl (by simp) (by simp)
  | @copyAbandonedLocal w t e shared f hpc hf hst =>
    obtain ⟨hh, -, hg, -⟩ := hn.fits hpc rfl hf
    constructor
    case pages =>
      refine h.pages.set hn (by simp) ?_
      rintro _ ⟨rfl⟩ hc
      have hl := (hc.live (by simp)).1
      simp [hst] at hl
    case home =>
      exact h.home.keep hn.placed hf id id (fun hne => absurd hg.1 hne) (by simp) (by simp)
  | @write w f c hpc hf =>
    obtain ⟨hh, -, hhot, hx⟩ := hn.fits hpc rfl hf
    obtain ⟨d, hd, hdx⟩ := hco.copy_of_guardX hpc
    constructor
    case pages =>
      constructor
      case page =>
        intro n f' hf' hc
        by_cases hnw : n = node w
        · subst hnw
          obtain rfl : { f with page := some c } = f' := by simpa using hf'
          rfl
        · exact absurd (hco.carries_of_guardX hok hexact hpc (by simpa [hnw] using hf') hc) hnw
      case seen =>
        -- a valid optimistic guard would have a copy on another node
        intro w' v c' hpc' hver
        have hver' : s.version (node w') = v := by
          by_cases hnw : node w' = node w
          · simpa [hnw] using hver
          · simpa [hnw] using hver
        have hst : (s.pc w').stamp = some v := by simp [show s.pc w' = _ from hpc', Pc.stamp]
        rcases (hn (node w')).stamp w' v rfl hst with hlt | ⟨-, g, hg, hfree, -, htr⟩
        · omega
        · have hg' := htr (by simp [show s.pc w' = _ from hpc', Pc.trusts])
          obtain ⟨b, hb⟩ := hco.copy_of_free hg hg'.1 hg'.2.1 hfree
          have hnw := hok.excl_alone (node w) (node w') d b hd hdx hb
          rw [hnw, hf] at hg
          obtain rfl := Option.some.inj hg
          simp [hh] at hfree
    case home =>
      have h' : Home o (s.setFrame (node w) (some { f with page := some c }) 0) :=
        h.home.frame hf id id (fun _ => id) (fun _ => id)
      refine ⟨fun hd => ?_, h'.away, h'.held⟩
      obtain ⟨g, hg, hdirty, hst⟩ := h.home.dirty_of_guardX hco hok hpc
      by_cases hno : o = node w
      · subst hno
        rw [hf] at hg
        obtain rfl := Option.some.inj hg
        exact absurd (hd { f with page := some c } (by simp) hdirty) hst
      · exact absurd (hd g (by simpa [hno] using hg) hdirty) hst
  | @read w v seen c hpc hread =>
    constructor
    case pages =>
      constructor
      case page =>
        intro n f hf hc
        refine h.pages.page n f hf (hc.imp_right ?_)
        rintro ⟨w', hh, ha⟩
        refine ⟨w', hh, ?_⟩
        by_cases hw : w' = w
        · subst hw
          simp [Pc.acquired] at ha
        · simpa [hw] using ha
      case seen =>
        intro w' v' c' hpc' hver
        by_cases hw : w' = w
        · subst hw
          obtain ⟨rfl, rfl⟩ : v = v' ∧ c = c' := by simpa using hpc'
          obtain ⟨f, hf, hpage⟩ := hread hver
          obtain ⟨hfree, -, hhot⟩ := hn.current (by simp [hpc, Pc.stamp]) hver hf
          have hl := hhot (by simp [hpc, Pc.trusts])
          have hp : s.provider (node w') ≠ .acked := by
            intro hp
            obtain ⟨g, hg, hhold⟩ := (hn (node w')).provides (by simp [hp])
            rw [hf] at hg
            obtain rfl := Option.some.inj hg
            simp [hfree] at hhold
          have := h.pages.page _ f hf (Frame.Live.carries ⟨hl.1, hl.2.1, hp⟩ (.inl hfree))
          rw [hpage] at this
          exact Option.some.inj this
        · exact h.pages.seen w' v' c' (by simpa [hw] using hpc') hver
    case home => exact h.home.pc (by simp) (by simp [Pc.seizes])
  | releaseExclusive hpc hf =>
    exact h.free hn hf (.inr (by simp [hpc, Pc.latched])) rfl rfl (by simp) (by simp)
  | releaseShared hpc hf =>
    have hfree := hn.free_of_reader hpc hf
    exact h.free hn hf (.inl hfree) hfree (by simp [← hfree]) (by simp) (by simp)
  | exclusiveToShared hpc hf =>
    exact h.free hn hf (.inr (by simp [hpc, Pc.latched])) rfl rfl (by simp) (by simp)
  | exclusiveToOptimistic hpc hf =>
    exact h.free hn hf (.inr (by simp [hpc, Pc.latched])) rfl rfl (by simp) (by simp)
  | sharedToOptimistic hpc hf =>
    have hfree := hn.free_of_reader hpc hf
    exact h.free hn hf (.inl hfree) hfree (by simp [← hfree]) (by simp) (by simp)
  | optimisticToShared hpc hf hfree =>
    exact h.free hn hf (.inl hfree) hfree (by simp [← hfree]) (by simp) (by simp)
  | newPage c hkn' => simp [hkn] at hkn'
  | @allocate w c hpc => exact absurd hpc ((hn (node w)).allocated w rfl)
  | @reclaimPage w f hr' hpc hf => exact absurd ⟨w, hpc, by simp [hf], by simp⟩ (hr hr')

/-! ## Message handlers -/

omit [DecidableEq W] in
/-- What an answered possession request means for the page. -/
theorem Grant.page {n : NodeID} {f f' : Frame W C} {d : Possession} {r : Reply C}
    (h : Grant o n f d r f') :
    (f.state = .hot ∨ f.state = .evicted) ∧ f'.holder = f.holder ∧
    (f'.state = .hot → f.state = .hot ∧ f'.page = f.page) ∧
    (∀ t, (Pc.response t r.1 : Pc C).acquired = true → f.state = .hot ∧ r.2 = f.page ∧
      f.page.isSome = true) := by
  cases h <;> simp_all [Pc.acquired]

omit [DecidableEq W] in
theorem Grant.flags {n : NodeID} {f f' : Frame W C} {d : Possession} {r : Reply C}
    (h : Grant o n f d r f') : (f.dirty = true → f'.dirty = true) ∧
      (d = .exclusive → f'.dirty = true) ∧ (f'.state = .ioSsd → f.state = .ioSsd) := by
  cases h <;> simp_all

omit [DecidableEq W] in
/-- A page is copied from a frame in use. -/
theorem Nodes.source_live {n : NodeID} {f : Frame W C} (h : Nodes o node s)
    (hf : s.frame n = some f) (hh : f.holder = none) (hx : f.possession = .shared)
    (hp : f.page.isSome = true) : f.Live n (s.provider n) := by
  have hpro : s.provider n ≠ .acked := by
    intro hpr
    obtain ⟨g, hg, hhold⟩ := (h n).provides (by simp [hpr])
    rw [hf] at hg
    obtain rfl := Option.some.inj hg
    simp [hh] at hhold
  rcases (h n).rest f hf hh with ⟨rfl, hs⟩ | ⟨-, hhot | ⟨hleft, -⟩⟩
  · rcases hs.hot with hhot | ⟨-, -, hnone⟩
    · exact ⟨hhot.1, hhot.2.1, hpro⟩
    · simp [hnone] at hp
  · exact ⟨hhot.1, hhot.2.1, hpro⟩
  · simp [hleft.2.1] at hx

omit [DecidableEq W] in
theorem Frame.live_of_copy {n : NodeID} {f : Frame W C} {p : Provider} {c : Copy}
    (h : f.copy n p = some c) : f.Live n p := by
  unfold Frame.copy at h
  split at h
  · assumption
  · cases h

omit [DecidableEq W] in
theorem Frame.forget_flags (f : Frame W C) (g : GuardState) (c : NodeID) :
    (f.forget g c).dirty = f.dirty ∧ (f.forget g c).state = f.state ∧
      (f.forget g c).holder = f.holder ∧ (f.forget g c).page = f.page := by
  unfold Frame.forget
  split
  · split <;> exact ⟨rfl, rfl, rfl, rfl⟩
  · exact ⟨rfl, rfl, rfl, rfl⟩

theorem HandlerStep.contents (hkn : s.known = true) (ha : Accounted o node s)
    (h : Contents o node s) (st : HandlerStep o node s s') : Contents o node s' := by
  obtain ⟨hco, l, hok, hexact⟩ := ha
  have hn := hco.nodes
  cases st with
  | @requestLoad w t hpc hf =>
    have hdisk : s.disk = s.last := h.home.saved fun g hg => by simp [hf] at hg
    constructor
    case pages =>
      refine h.pages.frame hn ?_
      rintro _ ⟨rfl⟩ -
      simp [ssdFrame, hdisk]
    case home =>
      obtain ⟨he, hd⟩ : (ledger o node s).epoch = 0 ∧ (ledger o node s).dir = ∅ :=
        ledger_none hf
      refine h.home.step rfl rfl (fun g hg => by simp [hf] at hg) ?_ ?_
      · intro n f g hno hf' hs _
        exact absurd hs (hn.not_seizes_of_blank hok he hd hno (by simpa [hno] using hf'))
      · intro w' g hg hh
        obtain rfl : ssdFrame o s.disk = g := by simpa using hg
        cases hh
  | @loaded f hf hh =>
    constructor
    case pages =>
      refine h.pages.frame hn ?_
      rintro _ ⟨rfl⟩ hc
      exact h.pages.page o f hf (.inl ⟨hc.live (by simp), by simp [hh]⟩)
    case home => exact h.home.frame hf id id (by simp) (fun hne => absurd rfl hne)
  | @request w t f r page f' own hpc hf hl hr hown =>
    obtain ⟨hh, -, hno, ⟨hst, -⟩⟩ := hn.fits hpc rfl hown
    have hgrant := Frame.handlePossessionRequest_grant hr
    obtain ⟨-, hhold, hkeep, hacq⟩ := hgrant.page
    obtain ⟨hdirty, hexcl, hio⟩ := hgrant.flags
    have hnone : ∀ w, f'.holder ≠ some (.worker w) := by simp [hhold, hl.1]
    have howner : f.state = .hot → f.page = some s.last := fun hhot =>
      h.pages.page o f hf ((hn.hot_live ((hn.settled hf hl.1).of_hot hhot)).carries (.inl hl.1))
    constructor
    case pages =>
      refine h.pages.serve hn (Ne.symm hno) (by simp) ?_ ?_
      · rintro _ ⟨rfl⟩ hc
        obtain ⟨hhot, hpage⟩ := hkeep (hc.live hnone).1
        rw [hpage, howner hhot]
      · rintro _ ⟨rfl⟩ hc
        rcases hc.of_worker hh with hlive | hac
        · have := hlive.1
          simp [hst] at this
        · rw [Function.update_self] at hac
          obtain ⟨hhot, hpage, -⟩ := hacq t hac
          have hpage' : page = some s.last := hpage.trans (howner hhot)
          simp [hpage']
    case home =>
      have h' : Home o (s.setFrame o (some f') 4) :=
        h.home.frame hf hdirty hio (fun w hw => absurd hw (hnone w)) (fun hne => absurd rfl hne)
      have hplaced : Placed node (s.setFrame o (some f') 4) := by
        apply hn.placed.frame
        rintro _ w' ⟨rfl⟩
        exact hnone w'
      refine h'.set hplaced (fun heq => absurd heq hno) (fun heq => absurd heq hno) ?_ (by simp) ?_
      · intro _ hs
        rcases hs.of_worker hh with ⟨hlive, -⟩ | hse
        · have := hlive.1
          simp [hst] at this
        · refine .inr fun g hg => ?_
          obtain rfl : f' = g := by simpa using hg
          rw [Function.update_self] at hse
          obtain rfl : t = .exclusive := by simpa [Pc.seizes] using hse
          exact hexcl rfl
      · simp [hh]
  | @move w g t e c rest f x own p hpc hf hl hx hown hp =>
    obtain ⟨hh, -, hg, hway, hco', -, -, -, hloc⟩ := hn.fits hpc rfl hown
    obtain ⟨hdirty, hstate, hhold, -⟩ := Frame.forget_flags own g c
    have hcw := hn.ne_of_latchable (w := w) (by simp [hpc, Pc.latched]) hf hl
    -- the page is taken from a copy in use
    have hlast : some x = some s.last := by
      have hacq : (ledger o node s).acq w = some
          ⟨node w, e, true, t = .exclusive, insert c (rest.members : Set NodeID), false,
          false⟩ := by
        simp [hpc, Pc.acquisition]
      rcases hexact.take_source hok hacq rfl (Set.mem_insert _ _)
        (hn.not_busy_of_latchable hf hl) with hr' | ⟨d, hd⟩
      · cases hr'
      · have hlive : f.Live c (s.provider c) := Frame.live_of_copy (by simpa [hf] using hd)
        rw [← Frame.handleMove_ok hx]
        exact h.pages.page c f hf (hlive.carries (.inl hl.1))
    have hdark : own.state ≠ .hot := by
      rcases hway with rfl | rfl
      · simp [hg.2.1.1]
      · simp [(hloc rfl).1]
    constructor
    case pages =>
      refine h.pages.serve hn hcw hp.not_guard.2 (by simp) ?_
      rintro _ ⟨rfl⟩ -
      exact hlast
    case home =>
      refine (h.home.gone hco' (k := 4)).keep (hn.placed.frame (by simp)) (f := own) ?_ ?_ ?_ ?_
        (fun hx => absurd hx hp.not_guard.1) ?_
      · simpa [hcw.symm] using hown
      · simp [hdirty]
      · simp [hstate]
      · intro _ hs
        rcases hs.of_worker (w := w) (by simp [hhold, hh]) with ⟨hlive, -⟩ | hse
        · exact absurd (hstate.symm.trans hlive.1) hdark
        · rw [Function.update_self] at hse
          exact .inr ⟨w, hh, by simp [hpc, Pc.seizes, hp.seizes hse]⟩
      · simp [hhold, hh]
  | @invalidate w g t e pending c f x own p hpc hc hf hl hx hown hp =>
    obtain ⟨hh, -, -, -, ht, ho, -⟩ := hn.fits hpc rfl hown
    obtain ⟨hdirty, hstate, hhold, hpage⟩ := Frame.forget_flags own g c
    have hcw := hn.ne_of_latchable (w := w) (by simp [hpc, Pc.latched]) hf hl
    have hco' : c ≠ o := by
      rintro rfl
      simp [ho] at hc
    constructor
    case pages =>
      refine h.pages.serve hn hcw hp.not_guard.2 (by simp) ?_
      rintro _ ⟨rfl⟩ -
      exact hpage.trans (h.pages.page _ own hown (.inr ⟨w, hh, by simp [hpc, Pc.acquired]⟩))
    case home =>
      refine (h.home.gone hco' (k := 4)).keep (hn.placed.frame (by simp)) (f := own) ?_ ?_ ?_ ?_
        (fun hx => absurd hx hp.not_guard.1) ?_
      · simpa [hcw.symm] using hown
      · simp [hdirty]
      · simp [hstate]
      · exact fun _ _ => .inr ⟨w, hh, by simp [hpc, Pc.seizes, ht]⟩
      · simp [hhold, hh]
  | @invalidateRetry w g t e pending c f hpc hc hf =>
    constructor
    case pages =>
      refine h.pages.frame hn ?_
      rintro _ ⟨rfl⟩ hc
      exact h.pages.page c f hf hc
    case home => exact h.home.frame hf id id (fun _ => id) (fun _ => id)
  | @copy w g t e shared c f x own hpc hf hh hx hown =>
    obtain ⟨hhold, -, -, -, ht, -⟩ := hn.fits hpc rfl hown
    obtain ⟨hpos, -, hpage, -⟩ := Frame.handleCopy_ok hx
    have hlive := hn.source_live hf hh hpos (by simp [hpage])
    have hlast := h.pages.page c f hf (hlive.carries (.inl hh))
    constructor
    case pages =>
      refine h.pages.set hn (by simp) ?_
      rintro _ ⟨rfl⟩ -
      exact hpage.symm.trans hlast
    case home =>
      refine h.home.keep hn.placed hown id id ?_ (by simp) (by simp [hhold])
      intro _ hs
      refine .inl ((hs.of_worker hhold).resolve_right ?_)
      simp [Pc.seizes, ht]
  | copyFailed hpc =>
    exact h.pc hn (by simp) (by simp) (by simp [Pc.acquired]) (by simp [Pc.seizes])
  | @update w t old f r f' hpc hf hl hr =>
    obtain ⟨own, hown, -⟩ := (hn (node w)).holds w rfl (by simp [hpc, Pc.latched])
    obtain ⟨hh, -, hno, hhot, -⟩ := hn.fits hpc rfl hown
    obtain ⟨-, -, -, -, rfl⟩ := Frame.handleUpdate_ok hr
    have hpro := hn.provider_of_worker hown hh
    constructor
    case pages =>
      refine h.pages.reply hn (by simp) ?_ ?_
      · rintro _ ⟨rfl⟩ hc
        have hst := (hc.live (by simp [hl.1])).1
        cases hst
      · intro own' hown'
        rw [hown] at hown'
        obtain rfl := Option.some.inj hown'
        have hlive : own.Live (node w) (s.provider (node w)) := ⟨hhot.1, hhot.2.1, by simp [hpro]⟩
        exact .inl (h.pages.page _ own hown (hlive.carries (.inr ⟨w, hh⟩)))
    case home =>
      refine Home.pc ?_ (by simp) fun _ => .inr ?_
      · exact h.home.frame hf (fun _ => rfl) (by simp) (fun w' => id) (fun hne => absurd rfl hne)
      · intro g hg
        simp only [PageState.setFrame_frame, Function.update_self, Option.some.injEq] at hg
        rw [← hg]
  | @updateFailed w t old f k hpc hf hlt hk =>
    constructor
    case pages =>
      refine h.pages.reply hn (by simp) ?_ (fun _ _ => .inr (by simp [Pc.acquired]))
      rintro _ ⟨rfl⟩ hc
      refine h.pages.page o f hf (hc.imp_right ?_)
      rintro ⟨w', hh, ha⟩
      refine ⟨w', hh, ?_⟩
      by_cases hw : w' = w
      · subst hw
        simp [Pc.acquired] at ha
      · simpa [hw] using ha
    case home =>
      refine Home.pc ?_ (by simp) (by simp [Pc.seizes])
      exact h.home.frame hf id id (fun w' => id) (fun hne => absurd rfl hne)
  | @updateRetry w t old f hpc hf hv =>
    constructor
    case pages =>
      refine h.pages.frame hn ?_
      rintro _ ⟨rfl⟩ hc
      exact h.pages.page o f hf hc
    case home => exact h.home.frame hf id id (fun _ => id) (fun _ => id)
  | allocation hkn' => simp [hkn] at hkn'

/-! ## Page providers -/

omit [DecidableEq W] in
/-- A frame in flight changes hands. -/
theorem Contents.provide {n : NodeID} {f f' : Frame W C} {k : Nat} {p : Provider}
    (h : Contents o node s) (hn : Nodes o node s) (hno : n ≠ o) (hf : s.frame n = some f)
    (hsame : f' = { f with holder := f'.holder }) (hh : ∀ w, f'.holder ≠ some (.worker w))
    (hp : s.provider n ≠ .acked) :
    Contents o node ((s.setFrame n (some f') k).setProvider n p) := by
  have hlive : ∀ {q : Provider}, f'.Live n q → f.Live n (s.provider n) := by
    intro q hl
    rw [hsame] at hl
    exact ⟨hl.1, hl.2.1, hp⟩
  have hret : f.holder ≠ some .retriever := fun hr => hno ((hn n).system f hf (.inr hr)).1
  constructor
  case pages =>
    refine h.pages.step hn rfl ?_ (fun _ _ _ hpc => hpc) ?_
    · intro m
      by_cases hm : m = n <;> simp [hm]
    · intro m g hg hc
      by_cases hm : m = n
      · subst hm
        obtain rfl : f' = g := by simpa using hg
        refine .inl ?_
        rw [show f'.page = f.page by rw [hsame]]
        exact h.pages.page m f hf (.inl ⟨hlive (hc.live hh), hret⟩)
      · exact .inr ⟨by simpa [hm] using hg, by simpa [hm] using hc⟩
  case home =>
    refine h.home.step rfl rfl ?_ ?_ ?_
    · intro g hg
      exact ⟨g, by simpa [hno.symm] using hg, id, id⟩
    · intro m g g' hmo hg hs hg'
      have hgo : s.frame o = some g' := by simpa [hno.symm] using hg'
      refine .inr ⟨g', ?_⟩
      by_cases hm : m = n
      · subst hm
        obtain rfl : f' = g := by simpa using hg
        obtain ⟨hl, hx⟩ := hs.live hh
        rw [hsame] at hx
        exact ⟨f, hgo, hf, .inl ⟨hlive hl, hx⟩⟩
      · exact ⟨g, hgo, by simpa [hm] using hg, by simpa [hm] using hs⟩
    · exact fun w g hg hh' hpc => h.home.held w g (by simpa [hno.symm] using hg) hh' hpc

omit [DecidableEq W] in
/-- The owner's frame after an answer, seen from the page. -/
theorem Answer.page {ssd : Bool} {n : NodeID} {x : C} {f f' : Frame W C} {ev : Eviction W C}
    (h : Answer ssd o n x f ev) (hn : n ≠ o) (hl : f.Latchable) (hf' : ev.frame = some f') :
    (∀ w, f'.holder ≠ some (.worker w)) ∧ (f.dirty = true → f'.dirty = true) ∧
      (f'.state = .ioSsd → f.state = .ioSsd) ∧
      (f'.holder = some .retriever ∨
        (f'.holder = none ∧ f'.page = f.page ∧ ∀ p, f'.Live o p → f.Live o p)) := by
  cases h with
  | retrieveExclusive =>
    obtain rfl := Option.some.inj hf'
    exact ⟨by simp, by simp, by simp, .inl rfl⟩
  | retrieveShared =>
    obtain rfl := Option.some.inj hf'
    exact ⟨by simp, by simp, by simp, .inl rfl⟩
  | keep hx =>
    obtain rfl := Option.some.inj hf'
    refine ⟨by simp [hl.1], id, id, .inr ⟨hl.1, rfl, fun p hlive => ⟨hlive.1, ?_, hlive.2.2⟩⟩⟩
    have := hlive.2.1
    simpa [Frame.isPossessor, hx, hn.symm] using this
  | remove => cases hf'

omit [DecidableEq W] in
/-- The owner's clean frame is removed. -/
theorem Contents.remove {f : Frame W C} {k : Nat} (h : Contents o node s) (hn : Nodes o node s)
    (hf : s.frame o = some f) (hd : f.dirty = false) :
    Contents o node (s.setFrame o none k) := by
  have hdisk : s.disk = s.last := by
    refine h.home.saved fun g hg hdirty => ?_
    rw [hf] at hg
    obtain rfl := Option.some.inj hg
    simp [hd] at hdirty
  exact ⟨h.pages.frame hn (by simp), fun _ => hdisk, by simp, by simp⟩

omit [DecidableEq W] in
theorem ProviderStep.contents (ha : Accounted o node s) (hstale : ¬ StaleRemoval s s')
    (h : Contents o node s) (hr : Retrieval o s) (st : ProviderStep cfg o s s') :
    Contents o node s' := by
  obtain ⟨hco, l, hok, hexact⟩ := ha
  have hn := hco.nodes
  cases st with
  | @select n f _ hno hf hl hst hp =>
    exact h.provide hn hno hf rfl (by simp) (by simp [hp])
  | @refuse n v hp =>
    obtain ⟨f, hf, hh⟩ := (hn n).provides (by simp [hp])
    have hno := ((hn n).provided f hf hh).1
    constructor
    case pages =>
      refine h.pages.step hn rfl (fun m => le_rfl) (fun _ _ _ hpc => hpc) ?_
      intro m g hg hc
      refine .inr ⟨hg, ?_⟩
      by_cases hm : m = n
      · subst hm
        exact hc.imp_left (And.imp_left fun hl => ⟨hl.1, hl.2.1, by simp [hp]⟩)
      · simpa [hm] using hc
    case home =>
      refine h.home.step rfl rfl (fun g hg => ⟨g, hg, id, id⟩) ?_ h.home.held
      intro m f' g hmo hf' hs hg
      refine .inr ⟨g, f', hg, hf', ?_⟩
      by_cases hm : m = n
      · subst hm
        exact hs.imp_left fun hl => ⟨⟨hl.1.1, hl.1.2.1, by simp [hp]⟩, hl.2⟩
      · simpa [hm] using hs
  | @accept n v f ev x hp hf hl hmw hv hc =>
    have hans := Frame.answerEviction_ok hc
    obtain ⟨g, hg, hhg⟩ := (hn n).provides (by simp [hp])
    obtain ⟨hno, hhot, -⟩ := (hn n).provided g hg hhg
    constructor
    case pages =>
      refine h.pages.step hn rfl ?_ (fun _ _ _ hpc => hpc) ?_
      · intro m
        by_cases hm : m = o <;> simp [hm]
      · intro m f' hf' hcar
        by_cases hmo : m = o
        · subst hmo
          obtain ⟨hh, -, -, hret | ⟨-, hpage, hback⟩⟩ := hans.page hno hl (by simpa using hf')
          · exact absurd hret hcar.not_retriever
          · rw [hpage]
            have hlive := hback _ (hcar.live hh)
            exact .inl (h.pages.page m f hf (Frame.Live.carries (by simpa [hno.symm] using hlive)
              (.inl hl.1)))
        · have hfm : s.frame m = some f' := by simpa [hmo] using hf'
          by_cases hm : m = n
          · subst hm
            rw [hg] at hfm
            obtain rfl := Option.some.inj hfm
            have := (hcar.live (by simp [hhg])).2.2
            simp at this
          · exact .inr ⟨hfm, by simpa [hm] using hcar⟩
    case home =>
      rcases hev : ev.frame with _ | f'
      · -- the frame is clean
        have hd : f.dirty = false := by
          cases hans with
          | remove _ hd => exact hd
          | _ => cases hev
        exact ⟨fun _ => (h.remove hn hf hd (k := ev.bump)).home.saved (by simp), by simp, by simp⟩
      · obtain ⟨hh, hdirty, hio, -⟩ := hans.page hno hl hev
        refine h.home.step rfl rfl ?_ ?_ ?_
        · intro g₀ hg₀
          rw [hf] at hg₀
          obtain rfl := Option.some.inj hg₀
          exact ⟨f', by simp, hdirty, hio⟩
        · intro m f₁ g₁ hmo hf₁ hs _
          have hfm : s.frame m = some f₁ := by simpa [hmo] using hf₁
          refine .inr ⟨f, f₁, hf, hfm, ?_⟩
          by_cases hm : m = n
          · subst hm
            rw [hg] at hfm
            obtain rfl := Option.some.inj hfm
            have := (hs.live (by simp [hhg])).1.2.2
            simp at this
          · simpa [hm] using hs
        · intro w g₁ hg₁ hhold
          obtain rfl : f' = g₁ := by simpa using hg₁
          exact absurd hhold (hh w)
  | @landed n f g x _ hf hh =>
    have hpages : Pages node (s.setFrame o (some { f with page := some x }) 0) := by
      refine h.pages.frame hn ?_
      rintro _ ⟨rfl⟩ hc
      exact absurd hh hc.not_retriever
    have hhome : Home o (s.setFrame o (some { f with page := some x }) 0) :=
      h.home.frame hf id id (fun _ => id) (fun hne => absurd rfl hne)
    exact ⟨⟨hpages.page, hpages.seen⟩, hhome.saved, hhome.away, hhome.held⟩
  | overlooked =>
    exact ⟨⟨h.pages.page, h.pages.seen⟩, h.home.saved, h.home.away, h.home.held⟩
  | @retrieved f hf hh hread =>
    constructor
    case pages =>
      refine h.pages.frame hn ?_
      rintro _ ⟨rfl⟩ -
      exact hr.landed f hf hh hread
    case home => exact h.home.frame hf id id (by simp) (fun hne => absurd rfl hne)
  | @applyAcked n f hp _ hf =>
    obtain ⟨g, hg, hh⟩ := (hn n).provides (by simp [hp])
    have hno := ((hn n).provided g hg hh).1
    constructor
    case pages =>
      refine h.pages.step hn rfl ?_ (fun _ _ _ hpc => hpc) ?_
      · intro m
        by_cases hm : m = n <;> simp [hm]
      · intro m f' hf' hc
        have hm : m ≠ n := by
          rintro rfl
          simp at hf'
        exact .inr ⟨by simpa [hm] using hf', by simpa [hm] using hc⟩
    case home =>
      have h' : Home o (s.setFrame n none 2) := h.home.gone hno
      refine h'.step rfl rfl (fun g hg => ⟨g, hg, id, id⟩) ?_ h'.held
      intro m f' g' hmo hf' hs hg'
      have hm : m ≠ n := by
        rintro rfl
        simp at hf'
      exact .inr ⟨g', f', hg', hf', by simpa [hm] using hs⟩
  | @applyRefused n f hp hf =>
    obtain ⟨g, hg, hh⟩ := (hn n).provides (by simp [hp])
    exact h.provide hn ((hn n).provided g hg hh).1 hf rfl (by simp) (by simp [hp])
  | @applyStale n f hp hf => exact absurd ⟨n, hp, by simp [hf], by simp⟩ hstale
  | @evictOwner f ev dice _ hf hl _ hc =>
    cases Frame.evictOwnerPage_ok hc with
    | unlatch =>
      constructor
      case pages =>
        refine h.pages.frame hn ?_
        rintro _ ⟨rfl⟩ hcar
        exact h.pages.page o f hf hcar
      case home => exact h.home.frame hf id id (fun _ => id) (fun _ => id)
    | remove _ hd _ _ _ => exact h.remove hn hf hd
    | evict _ _ _ =>
      constructor
      case pages =>
        refine h.pages.frame hn ?_
        rintro _ ⟨rfl⟩ hcar
        have hst := (hcar.live (by simp [hl.1])).1
        cases hst
      case home =>
        exact h.home.frame hf id (by simp) (fun _ => id) (fun hne => absurd rfl hne)
  | @writeBack f x _ _ hf hh hst hd hx =>
    have hhot := (hn.settled hf hh).of_hot hst
    have hlast : x = s.last := by
      have := h.pages.page o f hf ((hn.hot_live hhot).carries (.inl hh))
      rw [hx] at this
      exact Option.some.inj this
    constructor
    case pages =>
      have h' : Pages node (s.setFrame o (some { f with dirty := false }) 0) := by
        refine h.pages.frame hn ?_
        rintro _ ⟨rfl⟩ hcar
        exact h.pages.page o f hf hcar
      exact ⟨h'.page, h'.seen⟩
    case home =>
      refine ⟨fun _ => hlast, ?_, ?_⟩
      · intro n f' g hno hf' hs _
        exact absurd hs (hn.not_seizes_of_hot hok hf hhot hh hno (by simpa [hno] using hf'))
      · intro w g hg hhold
        obtain rfl : { f with dirty := false } = g := by simpa using hg
        simp [hh] at hhold

/-! ## Runs -/

theorem Step.contents (hkn : s.known = true) (ha : Accounted o node s) (h : Contents o node s)
    (hr : Retrieval o s) (st : Step cfg o node s s') (hk : Keeps cfg node s s') :
    Contents o node s' := by
  cases st with
  | worker st => exact st.contents hkn hk.claimed ha h
  | handler st => exact st.contents hkn ha h
  | provider st => exact st.contents ha hk.acknowledged h hr

theorem Step.accounted (hkn : s.known = true) (ha : Accounted o node s)
    (st : Step cfg o node s s') (hstale : ¬ StaleRemoval s s')
    (hr : cfg.reclaim = true → ¬ ReclaimsAway o node s s') : Accounted o node s' := by
  obtain ⟨l, hok, hx⟩ := ha.exact
  have hm : Ledger.Moves true (ledger o node s) (ledger o node s') :=
    st.moves hkn ha.coherent.nodes ha.coherent.waits hok (fun _ => hstale) fun _ => hr
  exact ⟨ha.coherent.step hkn (.step st), hm.exact rfl l hok hx⟩

end Steps

end ScaleStore.Protocol
