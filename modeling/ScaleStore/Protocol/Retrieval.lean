/-
# Pages on their way back

When a node gives a page up that nobody else has, its owner retrieves it: a READ is
posted, and both frames stay latched until it has landed.  Workers and handlers
leave such frames alone, so the page stays where it is read from, and the owner
has it when the frames are given back.
-/

import ScaleStore.Protocol.ContentsSteps

namespace ScaleStore.Protocol

variable {W C : Type} {cfg : Config} {o : NodeID} {node : W → NodeID} {s s' : PageState W C}

/-- A READ is taken for complete before it has landed. -/
def Overlooks (s s' : PageState W C) : Prop := s.astray = false ∧ s'.astray = true

/-! ## Frames of the page providers -/

/-- A page provider has latched the frame, to give the page up or to get it back. -/
def Frame.Provided (f : Frame W C) : Prop :=
  f.holder = some .provider ∨ f.holder = some .retriever

theorem Frame.not_provided {f : Frame W C}
    (h : f.holder = none ∨ f.holder = some .handler ∨ ∃ w, f.holder = some (.worker w)) :
    ¬ f.Provided := by
  rcases h with h | h | ⟨w, h⟩ <;> simp [Frame.Provided, h]

/-- Frames that a page provider has latched keep all but a flag. -/
structure Spares (s s' : PageState W C) : Prop where
  kept : ∀ n f, s.frame n = some f → f.Provided → ∃ b, s'.frame n = some { f with mhWaiting := b }
  back : ∀ n f, s'.frame n = some f → f.Provided → ∃ b, s.frame n = some { f with mhWaiting := b }

namespace Spares

theorem of_frame (h : s'.frame = s.frame) : Spares s s' :=
  ⟨fun n f hf _ => ⟨f.mhWaiting, by rw [h, hf]⟩, fun n f hf _ => ⟨f.mhWaiting, by rw [← h, hf]⟩⟩

/-- The frame of one node changes, but no page provider holds it, then or now. -/
theorem set {m : NodeID} {fr : Option (Frame W C)} {k : Nat}
    (hm : ∀ f, s.frame m = some f → ¬ f.Provided) (hfr : ∀ f, fr = some f → ¬ f.Provided) :
    Spares s (s.setFrame m fr k) := by
  constructor
  case kept =>
    intro n f hf hp
    by_cases hn : n = m
    · exact absurd hp (hm f (hn ▸ hf))
    · exact ⟨f.mhWaiting, by simp [hn, hf]⟩
  case back =>
    intro n f hf hp
    by_cases hn : n = m
    · subst hn
      exact absurd hp (hfr f (by simpa using hf))
    · exact ⟨f.mhWaiting, by simpa [hn] using hf⟩

theorem flag {m : NodeID} {f : Frame W C} {b : Bool} {k : Nat} (hf : s.frame m = some f) :
    Spares s (s.setFrame m (some { f with mhWaiting := b }) k) := by
  constructor
  case kept =>
    intro n g hg _
    by_cases hn : n = m
    · subst hn
      rw [hf] at hg
      obtain rfl := Option.some.inj hg
      exact ⟨b, by simp⟩
    · exact ⟨g.mhWaiting, by simp [hn, hg]⟩
  case back =>
    intro n g hg _
    by_cases hn : n = m
    · subst hn
      obtain rfl : { f with mhWaiting := b } = g := by simpa using hg
      exact ⟨f.mhWaiting, hf⟩
    · exact ⟨g.mhWaiting, by simpa [hn] using hg⟩

theorem trans {s'' : PageState W C} (h : Spares s s') (h' : Spares s' s'') : Spares s s'' := by
  constructor
  case kept =>
    intro n f hf hp
    obtain ⟨b, hb⟩ := h.kept n f hf hp
    exact h'.kept n { f with mhWaiting := b } hb hp
  case back =>
    intro n f hf hp
    obtain ⟨b, hb⟩ := h'.back n f hf hp
    exact h.back n { f with mhWaiting := b } hb hp

end Spares

/-- Who looks at a frame of its node without a latch, or holds the latch, is no page provider. -/
theorem Nodes.not_provided {w : W} {f : Frame W C} (h : Nodes o node s)
    (hf : s.frame (node w) = some f) (hl : f.holder = none ∨ (s.pc w).latched = true) :
    ¬ f.Provided := by
  refine Frame.not_provided ?_
  rcases hl with hl | hl
  · exact .inl hl
  · exact .inr (.inr ⟨w, (h (node w)).holder_eq hf rfl hl⟩)

section Steps

variable [DecidableEq W]

/-- A worker changes the frame of its node. -/
theorem Nodes.spares {w : W} {f f' : Frame W C} {k : Nat} {p : Pc C} (h : Nodes o node s)
    (hf : s.frame (node w) = some f) (hl : f.holder = none ∨ (s.pc w).latched = true)
    (hf' : f'.Provided → f.Provided) :
    Spares s ((s.setFrame (node w) (some f') k).setPc w p) := by
  have hnot := h.not_provided hf hl
  have hset : Spares s (s.setFrame (node w) (some f') k) := by
    refine .set ?_ ?_
    · intro g hg
      rw [hf] at hg
      exact Option.some.inj hg ▸ hnot
    · rintro _ ⟨rfl⟩
      exact fun hp => hnot (hf' hp)
  exact ⟨hset.kept, hset.back⟩

theorem WorkerStep.spares (hkn : s.known = true) (h : Nodes o node s)
    (st : WorkerStep cfg o node s s') : Spares s s' := by
  cases st with
  | @insert w t c hpc hf =>
    have hset : Spares s (s.setFrame (node w) (some (.fresh (.worker w)
        (if node w = o then .ioSsd else .ioRdma) c)) 2) := by
      refine .set (by simp [hf]) ?_
      rintro _ ⟨rfl⟩
      exact Frame.not_provided (.inr (.inr ⟨w, rfl⟩))
    exact ⟨hset.kept, hset.back⟩
  | undo hf hl =>
    refine .set ?_ ?_
    · intro g hg
      rw [hf] at hg
      exact Option.some.inj hg ▸ Frame.not_provided (.inl hl.1)
    · rintro _ ⟨rfl⟩
      exact Frame.not_provided (.inl hl.1)
  | hitExclusive _ hf _ hl => exact h.spares hf (.inl hl.1) (by simp [Frame.Provided])
  | hitShared _ hf _ hfree => exact h.spares hf (.inl hfree) id
  | changeLocal c _ hf _ hl => exact h.spares hf (.inl hl.1) (by simp [Frame.Provided])
  | changeRemote _ hf _ hl => exact h.spares hf (.inl hl.1) (by simp [Frame.Provided])
  | load hpc hf => exact h.spares hf (.inr (by simp [hpc, Pc.latched])) id
  | receive hpc hf => exact h.spares hf (.inr (by simp [hpc, Pc.latched])) id
  | completeExclusive hpc hf hc =>
    rw [Frame.complete_eq] at hc
    obtain rfl := Except.ok.inj hc
    exact h.spares hf (.inr (by simp [hpc, Pc.latched])) id
  | completeShared hpc hf =>
    exact h.spares hf (.inr (by simp [hpc, Pc.latched])) (by simp [Frame.Provided])
  | completeOptimistic hpc hf =>
    exact h.spares hf (.inr (by simp [hpc, Pc.latched])) (by simp [Frame.Provided])
  | completeDiscarded hpc hf =>
    exact h.spares hf (.inr (by simp [hpc, Pc.latched])) (by simp [Frame.Provided])
  | downgraded _ hf _ hfree => exact h.spares hf (.inl hfree) id
  | updateFailed hpc hf =>
    exact h.spares hf (.inr (by simp [hpc, Pc.latched])) (by simp [Frame.Provided])
  | copyAbandoned hpc hf =>
    exact h.spares hf (.inr (by simp [hpc, Pc.latched])) (by simp [Frame.Provided])
  | copyAbandonedLocal hpc hf =>
    exact h.spares hf (.inr (by simp [hpc, Pc.latched])) (by simp [Frame.Provided])
  | @write w f c hpc hf =>
    have hset :
        Spares s ((s.setFrame (node w) (some { f with page := some c }) 0).setPc w .guardX) :=
      h.spares hf (.inr (by simp [hpc, Pc.latched])) id
    exact ⟨hset.kept, hset.back⟩
  | releaseExclusive hpc hf =>
    exact h.spares hf (.inr (by simp [hpc, Pc.latched])) (by simp [Frame.Provided])
  | releaseShared hpc hf => exact h.spares hf (.inl (h.free_of_reader hpc hf)) id
  | exclusiveToShared hpc hf =>
    exact h.spares hf (.inr (by simp [hpc, Pc.latched])) (by simp [Frame.Provided])
  | exclusiveToOptimistic hpc hf =>
    exact h.spares hf (.inr (by simp [hpc, Pc.latched])) (by simp [Frame.Provided])
  | sharedToOptimistic hpc hf => exact h.spares hf (.inl (h.free_of_reader hpc hf)) id
  | optimisticToShared _ hf hfree => exact h.spares hf (.inl hfree) id
  | newPage c hkn' => simp [hkn] at hkn'
  | @allocate w c hpc => exact absurd hpc ((h (node w)).allocated w rfl)
  | @reclaimPage w f _ hpc hf =>
    have hset : Spares s (s.setFrame (node w) none 2) := by
      refine .set ?_ (by simp)
      intro g hg
      exact h.not_provided hg (.inr (by simp [hpc, Pc.latched]))
    exact ⟨hset.kept, hset.back⟩
  | _ => exact .of_frame rfl

/-- A handler changes a frame and the one of the worker that it answers. -/
theorem Nodes.spares_answer {w : W} {m : NodeID} {f own own' : Frame W C}
    {fr : Option (Frame W C)} {k j : Nat} {p : Pc C} (h : Nodes o node s)
    (hf : s.frame m = some f) (hl : f.Latchable) (hfr : ∀ f', fr = some f' → f'.holder = none)
    (hown : s.frame (node w) = some own) (hw : (s.pc w).latched = true)
    (hown' : own'.holder = own.holder) :
    Spares s (((s.setFrame m fr k).setFrame (node w) (some own') j).setPc w p) := by
  have hfirst : Spares s (s.setFrame m fr k) := by
    refine .set ?_ fun f' hf' => Frame.not_provided (.inl (hfr f' hf'))
    intro g hg
    rw [hf] at hg
    exact Option.some.inj hg ▸ Frame.not_provided (.inl hl.1)
  have hholder := (h (node w)).holder_eq hown rfl hw
  have hmw : m ≠ node w := by
    rintro rfl
    rw [hf] at hown
    obtain rfl := Option.some.inj hown
    simp [hl.1] at hholder
  have hsecond : Spares (s.setFrame m fr k)
      ((s.setFrame m fr k).setFrame (node w) (some own') j) := by
    refine .set ?_ ?_
    · intro g hg
      exact h.not_provided (by simpa [hmw.symm] using hg) (.inr hw)
    · rintro _ ⟨rfl⟩
      exact Frame.not_provided (.inr (.inr ⟨w, hown'.trans hholder⟩))
  exact ⟨(hfirst.trans hsecond).kept, (hfirst.trans hsecond).back⟩

theorem HandlerStep.spares (hkn : s.known = true) (h : Nodes o node s)
    (st : HandlerStep o node s s') : Spares s s' := by
  cases st with
  | requestLoad _ hf =>
    refine .set (by simp [hf]) ?_
    rintro _ ⟨rfl⟩
    exact Frame.not_provided (.inr (.inl rfl))
  | loaded hf hh =>
    refine .set ?_ ?_
    · intro g hg
      rw [hf] at hg
      exact Option.some.inj hg ▸ Frame.not_provided (.inr (.inl hh))
    · rintro _ ⟨rfl⟩
      exact Frame.not_provided (.inl rfl)
  | request hpc hf hl hr hown =>
    refine h.spares_answer hf hl ?_ hown (by simp [hpc, Pc.latched]) rfl
    rintro _ ⟨rfl⟩
    exact (Frame.handlePossessionRequest_grant hr).page.2.1.trans hl.1
  | @move w g t e c rest f x own p hpc hf hl hx hown =>
    exact h.spares_answer hf hl (by simp) hown (by simp [hpc, Pc.latched])
      (own.forget_flags g c).2.2.1
  | @invalidate w g t e pending c f x own p hpc _ hf hl hx hown =>
    exact h.spares_answer hf hl (by simp) hown (by simp [hpc, Pc.latched])
      (own.forget_flags g c).2.2.1
  | invalidateRetry _ _ hf => exact .flag hf
  | copy hpc _ _ _ hown => exact h.spares hown (.inr (by simp [hpc, Pc.latched])) id
  | copyFailed => exact .of_frame rfl
  | @update w t old f r f' _ hf hl hr =>
    obtain ⟨-, -, -, -, hf'⟩ := Frame.handleUpdate_ok hr
    have hset : Spares s (s.setFrame o (some f') 4) := by
      refine .set ?_ ?_
      · intro g hg
        rw [hf] at hg
        exact Option.some.inj hg ▸ Frame.not_provided (.inl hl.1)
      · rintro _ ⟨rfl⟩
        exact Frame.not_provided (.inl (by rw [hf']; exact hl.1))
    exact ⟨hset.kept, hset.back⟩
  | @updateFailed w t old f k _ hf =>
    have hset : Spares s (s.setFrame o (some { f with mhWaiting := false }) k) := .flag hf
    exact ⟨hset.kept, hset.back⟩
  | updateRetry _ hf => exact .flag hf
  | allocation hkn' => simp [hkn] at hkn'

/-! ## The page under a step -/

omit [DecidableEq W] in
/-- While a worker has an exclusive guard, nothing is retrieved. -/
theorem Coherent.not_retrieving {w : W} {f : Frame W C} (h : Coherent o node s)
    (hpc : s.pc w = .guardX) (hf : s.frame o = some f) : f.holder ≠ some .retriever := by
  intro hh
  obtain ⟨l, hok⟩ := h.ordered
  obtain ⟨-, hhot, -⟩ := (h.nodes o).system f hf (.inr hh)
  obtain ⟨c, hc, -⟩ : ∃ c, (ledger o node s).live o = some c ∧ _ :=
    (h.nodes.hot_live hhot).live hf
  obtain ⟨d, hd, hx⟩ := h.copy_of_guardX hpc
  have how := hok.excl_alone (node w) o d c hd hx hc
  have hheld := (h.nodes (node w)).holder_eq (how ▸ hf) rfl (by simp [hpc, Pc.latched])
  simp [hh] at hheld

namespace Retrieval

omit [DecidableEq W] in
/-- Nothing is on its way. -/
theorem quiet (hr : s.read = none) (hf : ∀ f, s.frame o = some f → f.holder ≠ some .retriever) :
    Retrieval o s :=
  ⟨fun f h hh => absurd hh (hf f h), by simp [hr]⟩

omit [DecidableEq W] in
theorem read_none (h : Retrieval o s)
    (hf : ∀ f, s.frame o = some f → f.holder ≠ some .retriever) : s.read = none := by
  rcases hr : s.read with _ | n
  · rfl
  · obtain ⟨-, ⟨f, hf', hh⟩, -⟩ := h.pending n hr
    exact absurd hh (hf f hf')

omit [DecidableEq W] in
theorem spared (h : Retrieval o s) (hs : Spares s s') (hr : s'.read = s.read)
    (hp : s'.provider = s.provider) (hl : s'.last = s.last) : Retrieval o s' := by
  constructor
  case landed =>
    intro f hf hh hread
    obtain ⟨b, hb⟩ := hs.back o f hf (.inr hh)
    exact hl ▸ h.landed { f with mhWaiting := b } hb hh (hr ▸ hread)
  case pending =>
    intro n hread
    obtain ⟨hpro, ⟨f, hf, hh⟩, g, hg, hhg, hpage⟩ := h.pending n (hr ▸ hread)
    obtain ⟨b, hb⟩ := hs.kept o f hf (.inr hh)
    obtain ⟨b', hb'⟩ := hs.kept n g hg (.inl hhg)
    exact ⟨hp ▸ hpro, ⟨_, hb, hh⟩, _, hb', hhg, hl ▸ hpage⟩

omit [DecidableEq W] in
/-- A page provider changes a frame that is not the owner's and from which nothing is read. -/
theorem elsewhere {n : NodeID} {fr : Option (Frame W C)} {k : Nat} {p : Provider}
    (h : Retrieval o s) (hn : n ≠ o) (hr : s.read ≠ some n) :
    Retrieval o ((s.setFrame n fr k).setProvider n p) := by
  constructor
  case landed => exact fun f hf => h.landed f (by simpa [hn.symm] using hf)
  case pending =>
    intro m hread
    have hm : m ≠ n := by
      rintro rfl
      exact hr hread
    obtain ⟨hpro, ⟨f, hf, hh⟩, g, hg, hhg, hpage⟩ := h.pending m hread
    exact ⟨by simpa [hm] using hpro, ⟨f, by simpa [hn.symm] using hf, hh⟩, g,
      by simpa [hm] using hg, hhg, hpage⟩

end Retrieval

theorem WorkerStep.retrieval (hkn : s.known = true) (hco : Coherent o node s) (h : Retrieval o s)
    (st : WorkerStep cfg o node s s') : Retrieval o s' := by
  have hs := st.spares hkn hco.nodes
  cases st with
  | write c hpc hf =>
    refine .quiet (h.read_none fun f hf => hco.not_retrieving hpc hf) fun f' hf' hh => ?_
    obtain ⟨b, hb⟩ := hs.back o f' hf' (.inr hh)
    exact hco.not_retrieving hpc hb hh
  | newPage c hkn' => simp [hkn] at hkn'
  | @allocate w c hpc => exact absurd hpc ((hco.nodes (node w)).allocated w rfl)
  | _ => exact h.spared hs rfl rfl rfl

theorem HandlerStep.retrieval (hkn : s.known = true) (hn : Nodes o node s) (h : Retrieval o s)
    (st : HandlerStep o node s s') : Retrieval o s' := by
  have hs := st.spares hkn hn
  cases st with
  | allocation hkn' => simp [hkn] at hkn'
  | _ => exact h.spared hs rfl rfl rfl

omit [DecidableEq W] in
theorem ProviderStep.retrieval (hn : Nodes o node s) (hc : Contents o node s)
    (h : Retrieval o s) (ha : s.astray = false) (hov : ¬ Overlooks s s')
    (st : ProviderStep cfg o s s') : Retrieval o s' := by
  have hfree : ∀ {f}, s.frame o = some f → f.holder = none → s.read = none := by
    intro f hf hh
    refine h.read_none fun g hg => ?_
    rw [hf] at hg
    simp [← Option.some.inj hg, hh]
  have hunread : ∀ n, s.provider n ≠ .acked → s.read ≠ some n :=
    fun n hp hr => hp (h.pending n hr).1
  cases st with
  | @select n f _ hno hf hl hst hp => exact h.elsewhere hno (hunread n (by simp [hp]))
  | @refuse n v hp =>
    constructor
    case landed => exact h.landed
    case pending =>
      intro m hr
      have hm : m ≠ n := by
        rintro rfl
        exact hunread m (by simp [hp]) hr
      obtain ⟨hpro, hrest⟩ := h.pending m hr
      exact ⟨by simpa [hm] using hpro, hrest⟩
  | @accept n v f ev c hp hf hl hmw hv hans =>
    have hanswer := Frame.answerEviction_ok hans
    obtain ⟨g, hg, hhg⟩ := (hn n).provides (by simp [hp])
    obtain ⟨hno, hhot, -⟩ := (hn n).provided g hg hhg
    -- the page on offer is in use
    have hpage : g.page = some s.last :=
      hc.pages.page n g hg (.inl ⟨⟨hhot.1, hhot.2.1, by simp [hp]⟩, by simp [hhg]⟩)
    cases hev : ev with
    | unlatch f' =>
      subst hev
      refine .quiet (by simp [Eviction.read]) ?_
      cases hanswer
      simp [Eviction.frame, hl.1]
    | remove => exact .quiet (by simp [Eviction.read]) (by simp [Eviction.frame])
    | retrieve f' =>
      constructor
      case landed => simp [Eviction.read]
      case pending =>
        rintro m ⟨rfl⟩
        exact ⟨by simp, ⟨{ f' with holder := some .retriever }, by simp [Eviction.frame], rfl⟩, g,
          by simp [hno, hg], hhg, hpage⟩
  | @landed n f g x hr hf hh hg hx =>
    constructor
    case landed =>
      intro f' hf' _ _
      obtain ⟨-, -, g', hg', -, hpage⟩ := h.pending n hr
      rw [hg] at hg'
      obtain rfl := Option.some.inj hg'
      obtain rfl : { f with page := some x } = f' := by simpa using hf'
      exact hx.symm.trans hpage
    case pending => simp
  | overlooked => exact absurd ⟨ha, rfl⟩ hov
  | retrieved hf hh hr => exact .quiet hr (by simp)
  | @applyAcked n f hp hr hf =>
    obtain ⟨g, hg, hh⟩ := (hn n).provides (by simp [hp])
    exact h.elsewhere ((hn n).provided g hg hh).1 hr
  | @applyRefused n f hp hf =>
    obtain ⟨g, hg, hh⟩ := (hn n).provides (by simp [hp])
    exact h.elsewhere ((hn n).provided g hg hh).1 (hunread n (by simp [hp]))
  | @applyStale n f hp hf =>
    obtain ⟨g, hg, hh⟩ := (hn n).provides (by simp [hp])
    exact h.elsewhere ((hn n).provided g hg hh).1 (hunread n (by simp [hp]))
  | @evictOwner f ev dice _ hf hl _ hans =>
    refine .quiet (hfree hf hl.1) ?_
    cases Frame.evictOwnerPage_ok hans <;> simp [Eviction.frame, hl.1]
  | writeBack _ _ hf hh => exact .quiet (hfree hf hh) (by simp [hh])

theorem Step.retrieval (hkn : s.known = true) (hco : Coherent o node s) (hc : Contents o node s)
    (h : Retrieval o s) (ha : s.astray = false) (hov : ¬ Overlooks s s')
    (st : Step cfg o node s s') : Retrieval o s' := by
  cases st with
  | worker st => exact st.retrieval hkn hco h
  | handler st => exact st.retrieval hkn hco.nodes h
  | provider st => exact st.retrieval hco.nodes hc h ha hov

end Steps

end ScaleStore.Protocol
