/-
# Single writer, multiple readers

The machine as a transition system, for one page and for all pages of the store,
and the invariant that the simulation by ledgers gives: in every reachable state
the frames, the directory and the requests on their way form a ledger in order.
While a node holds an exclusive guard, no other node can use the page.
-/

import ScaleStore.Lib.System
import ScaleStore.Protocol.Acts
import ScaleStore.Protocol.SimulationHandlers

namespace ScaleStore.Protocol

variable {W C : Type} {cfg : Config} {o : NodeID} {node : W → NodeID} {s s' : PageState W C}

/-! ## Pages that have not been handed out -/

/-- Nobody uses the page, and only its owner may have a frame of it. -/
structure Unused (o : NodeID) (s : PageState W C) : Prop where
  pc : ∀ w, s.pc w = .idle
  provider : ∀ n, s.provider n = .idle
  frame : ∀ n, n ≠ o → s.frame n = none
  owner : ∀ f, s.frame o = some f → f.Latchable ∧ f.Settled o ∧ f.state = .evicted
  read : s.read = none

/-- The page has not been handed out; at most one allocation of it is under way. -/
inductive Fresh (o : NodeID) (node : W → NodeID) (s : PageState W C) : Prop where
  | unused : Unused o s → s.frame o = none → Fresh o node s
  | allocating (w : W) : node w ≠ o → s.pc w = .allocate → (∀ w', w' ≠ w → s.pc w' = .idle) →
    (∀ n, s.provider n = .idle) → (∀ n, n ≠ o → s.frame n = none) →
    s.frame o = some (allocatedFrame (node w)) → s.read = none → Fresh o node s

theorem Unused.nodes (h : Unused o s) : Nodes o node s := by
  intro n
  by_cases hn : n = o
  · subst hn
    constructor
    case held =>
      intro f w hf hh
      simp [(h.owner f hf).1.1] at hh
    case holds =>
      intro w _ hl
      simp [h.pc, Pc.latched] at hl
    case rest => exact fun f hf _ => .inl ⟨rfl, (h.owner f hf).2.1⟩
    case provided =>
      intro f hf hh
      simp [(h.owner f hf).1.1] at hh
    case provides =>
      intro hp
      exact absurd (h.provider n) hp
    case system =>
      intro f hf hh
      simp [(h.owner f hf).1.1] at hh
    case readers =>
      intro f w hf
      simp [(h.owner f hf).1.2, h.pc, Pc.shares]
    case reads =>
      intro w _ hs
      simp [h.pc, Pc.shares] at hs
    case excl => exact fun f hf _ => (h.owner f hf).1.2
    case stamp =>
      intro w v _ hst
      simp [h.pc, Pc.stamp] at hst
    case allocated =>
      intro w _
      simp [h.pc]
  · have hf := h.frame n hn
    constructor <;> simp [hf, h.pc, h.provider, Pc.latched, Pc.shares, Pc.stamp]

theorem Unused.waits (h : Unused o s) : Waits o s := by
  intro n f hn hf
  simp [h.frame n hn] at hf

/-- The machine is in order: nodes, flags and ledger. -/
structure Coherent (o : NodeID) (node : W → NodeID) (s : PageState W C) : Prop where
  nodes : Nodes o node s
  waits : Waits o s
  ordered : ∃ l, (ledger o node s).Ok l

/-- What holds in every reachable state. -/
def Invariant (o : NodeID) (node : W → NodeID) (s : PageState W C) : Prop :=
  if s.known = true then Coherent o node s else Fresh o node s

theorem Unused.ledger_empty (h : Unused o s) :
    (∀ n, (ledger o node s).live n = none) ∧ (∀ w, (ledger o node s).acq w = none) ∧
      ∀ n, (ledger o node s).left n = none := by
  refine ⟨fun n => ?_, fun w => by simp [h.pc, Pc.acquisition], fun n => ?_⟩
  all_goals
    by_cases hn : n = o
    · subst hn
      rcases hf : s.frame n with _ | f
      · simp [hf]
      · simp [hf, Frame.copy, Frame.left, (h.owner f hf).2.2]
    · simp [h.frame n hn]

theorem Unused.coherent (h : Unused o s) : Coherent o node s :=
  ⟨h.nodes, h.waits, _, .empty h.ledger_empty.1 h.ledger_empty.2.1⟩

theorem Init.unused (h : Init s) : Unused o s :=
  ⟨h.pc, h.provider, fun n _ => h.frame n, fun f hf => by simp [h.frame o] at hf, h.read⟩

theorem Init.invariant (h : Init s) : Invariant o node s := by
  unfold Invariant
  split
  · exact h.unused.coherent
  · exact .unused h.unused (h.frame o)

/-! ## Allocation -/

theorem newFrame_hot (n : NodeID) (w : W) (c : C) :
    (newFrame n w c).Hot n ∧ (newFrame n w c).possession = .exclusive := by
  simp [newFrame, Frame.Hot, Frame.isPossessor]

theorem newFrame_copy (n : NodeID) (w : W) (c : C) :
    (newFrame n w c).copy n .idle = some ⟨0, true⟩ := by
  simp [newFrame, Frame.copy, Frame.isPossessor]

/-- What a worker finds after `newPage` or `newRemotePage`: its node's copy is the only one. -/
structure Allocated (o : NodeID) (node : W → NodeID) (s : PageState W C) : Prop where
  nodes : Nodes o node s
  waits : Waits o s
  epoch : (ledger o node s).epoch = 0
  dirExcl : (ledger o node s).dirExcl = true
  quiet : ∀ w, (ledger o node s).acq w = none
  left : ∀ n, (ledger o node s).left n = none
  copy : ∃ n, (ledger o node s).live n = some ⟨0, true⟩ ∧ (ledger o node s).dir = {n} ∧
    ∀ m, m ≠ n → (ledger o node s).live m = none

theorem Allocated.ok (h : Allocated o node s) : (ledger o node s).Ok (ledger o node s).epoch := by
  obtain ⟨n, hn, hd, hm⟩ := h.copy
  exact Ledger.Ok.single (by rw [hn, h.epoch, h.dirExcl]) hm h.quiet (by simp [hd])

theorem Allocated.exact (h : Allocated o node s) :
    (ledger o node s).Exact (ledger o node s).epoch := by
  obtain ⟨n, hn, hd, -⟩ := h.copy
  refine Ledger.Exact.quiet ?_ h.quiet h.left
  intro m hm
  rw [hd, Set.mem_singleton_iff] at hm
  exact hm ▸ ⟨_, hn⟩

section Allocation

variable [DecidableEq W] {w : W}

theorem Unused.newPage (h : Unused o s) (hn : node w = o) (hf : s.frame o = none) (c : C) :
    Allocated o node { (s.setFrame o (some (newFrame o w c)) 2).setPc w .guardX with
      known := true, last := c } := by
  subst hn
  have hnodes : Nodes (node w) node ((s.setFrame (node w) (some (newFrame (node w) w c)) 2).setPc w
      .guardX) :=
    h.nodes.latch (by simp [hf]) (by simp) rfl rfl (newFrame_hot (node w) w c)
  have hwaits : Waits (node w) ((s.setFrame (node w) (some (newFrame (node w) w c)) 2).setPc w
      .guardX) := by
    apply Waits.pc
    · exact h.waits.frame fun hn => absurd rfl hn
    · simp [h.pc, Pc.wants]
  have hview : (newFrame (node w) w c).view (node w) (Function.update s.pc w .guardX) =
      ({node w}, true) := by
    rw [Frame.view_of_worker rfl, Function.update_self]
    simp [Pc.view, newFrame, Frame.entry, Frame.named]
  constructor
  case nodes => exact hnodes.congr rfl rfl rfl rfl
  case waits => exact hwaits.congr rfl rfl
  case epoch => simp [ledger, newFrame]
  case dirExcl => simp [ledger, hview]
  case quiet =>
    intro w'
    by_cases hw : w' = w
    · subst hw
      simp [Pc.acquisition]
    · simp [hw, h.pc, Pc.acquisition]
  case left =>
    intro n
    by_cases hn : n = node w
    · subst hn
      simp [newFrame, Frame.left]
    · simp [hn, h.frame n hn]
  case copy =>
    refine ⟨node w, ?_, by simp [ledger, hview], ?_⟩
    · simpa [h.provider] using newFrame_copy (node w) w c
    · intro m hm
      simp [hm, h.frame m hm]

theorem Fresh.allocate (hn : node w ≠ o) (hpc : s.pc w = .allocate)
    (hidle : ∀ w', w' ≠ w → s.pc w' = .idle) (hp : ∀ n, s.provider n = .idle)
    (hf : ∀ n, n ≠ o → s.frame n = none) (ho : s.frame o = some (allocatedFrame (node w)))
    (hr : s.read = none) (c : C) :
    Allocated o node { (s.setFrame (node w) (some (newFrame (node w) w c)) 2).setPc w .guardX with
      known := true, last := c } := by
  -- without the worker that allocates, nobody uses the page
  have hun : Unused o (s.setPc w .idle) := by
    constructor
    case pc =>
      intro w'
      by_cases hw : w' = w
      · simp [hw]
      · simp [hw, hidle w' hw]
    case provider => exact hp
    case frame => exact hf
    case owner =>
      intro f hf'
      rw [PageState.setPc_frame, ho] at hf'
      obtain rfl := Option.some.inj hf'
      refine ⟨⟨rfl, rfl⟩, ⟨by simp [allocatedFrame], .inr ⟨rfl, ?_, rfl⟩, by simp [allocatedFrame]⟩,
        rfl⟩
      simp [allocatedFrame, Frame.isPossessor, hn]
    case read => exact hr
  have hnodes : Nodes o node (((s.setPc w .idle).setFrame (node w)
      (some (newFrame (node w) w c)) 2).setPc w .guardX) :=
    hun.nodes.latch (by simp [hf _ hn]) (by simp) rfl rfl (newFrame_hot (node w) w c)
  have hwaits : Waits o (((s.setPc w .idle).setFrame (node w)
      (some (newFrame (node w) w c)) 2).setPc w .guardX) := by
    apply Waits.pc
    · apply hun.waits.frame
      rintro - _ ⟨rfl⟩ hm
      cases hm
    · simp [Pc.wants]
  have hview : (allocatedFrame (node w) : Frame W C).view o (Function.update s.pc w .guardX) =
      ({node w}, true) := by
    rw [Frame.view_of_free rfl]
    simp [allocatedFrame, Frame.entry, Frame.named]
  constructor
  case nodes => exact hnodes.congr rfl rfl rfl (by simp [PageState.setPc, PageState.setFrame])
  case waits => exact hwaits.congr rfl (by simp [PageState.setPc, PageState.setFrame])
  case epoch => simp [ledger, hn.symm, ho, allocatedFrame]
  case dirExcl => simp [ledger, hn.symm, ho, hview]
  case quiet =>
    intro w'
    by_cases hw : w' = w
    · subst hw
      simp [Pc.acquisition]
    · simp [hw, hidle w' hw, Pc.acquisition]
  case left =>
    intro n
    by_cases hnw : n = node w
    · subst hnw
      simp [newFrame, Frame.left]
    · by_cases hno : n = o
      · subst hno
        simp [hnw, ho, allocatedFrame, Frame.left]
      · simp [hnw, hf n hno]
  case copy =>
    refine ⟨node w, ?_, by simp [ledger, hn.symm, ho, hview], ?_⟩
    · simpa [hp] using newFrame_copy (node w) w c
    · intro m hm
      by_cases hmo : m = o
      · subst hmo
        simp [hm, ho, allocatedFrame, Frame.copy]
      · simp [hm, hf m hmo]

/-- A page that has not been handed out stays so until it is allocated. -/
theorem Fresh.step (hk : s.known = false) (h : Fresh o node s) (st : Step cfg o node s s') :
    (s'.known = false ∧ Fresh o node s' ∧ s'.last = s.last) ∨
      (s'.known = true ∧ Allocated o node s' ∧ ∃ w, s'.pc w = .guardX ∧
        (∃ f, s'.frame (node w) = some f ∧ f.page = some s'.last) ∧
        (ledger o node s').live (node w) = some ⟨0, true⟩ ∧
        ∀ w', w' ≠ w → s'.pc w' = .idle) := by
  cases h with
  | unused hun hf =>
    have hnone : ∀ n, s.frame n = none := by
      intro n
      by_cases hn : n = o
      · rw [hn, hf]
      · exact hun.frame n hn
    cases st with
    | worker st =>
      cases st with
      | start hk' => simp [hk] at hk'
      | undo hf' => simp [hnone] at hf'
      | @newPage w c _ _ hn _ =>
        have hal := hun.newPage hn hf c
        refine .inr ⟨rfl, hal, w, by simp, ⟨newFrame o w c, ?_, rfl⟩, ?_, ?_⟩
        · simp [hn]
        · subst hn
          simpa [hun.provider] using newFrame_copy (node w) w c
        · intro w' hw
          simp [hw, hun.pc]
      | insert c hpc => simp [hun.pc] at hpc
      | changeLocal c hpc => simp [hun.pc] at hpc
      | write c hpc => simp [hun.pc] at hpc
      | read c hpc => simp [hun.pc] at hpc
      | allocate c hpc => simp [hun.pc] at hpc
      | reclaimPage _ hpc => simp [hun.pc] at hpc
      | _ hpc => simp [hun.pc] at hpc
    | handler st =>
      cases st with
      | loaded hf' => simp [hnone] at hf'
      | @allocation w _ _ hn _ =>
        refine .inl ⟨hk, .allocating w hn (by simp) ?_ hun.provider ?_ (by simp) hun.read, rfl⟩
        · intro w' hw
          simp [hw, hun.pc]
        · intro n hno
          simp [hno, hun.frame n hno]
      | _ hpc => simp [hun.pc] at hpc
    | provider st =>
      cases st with
      | refuse hp => simp [hun.provider] at hp
      | accept _ hp => simp [hun.provider] at hp
      | applyAcked hp => simp [hun.provider] at hp
      | applyRefused hp => simp [hun.provider] at hp
      | applyStale hp => simp [hun.provider] at hp
      | select _ _ hf' => simp [hnone] at hf'
      | landed hr => simp [hun.read] at hr
      | overlooked hr => simp [hun.read] at hr
      | retrieved hf' => simp [hnone] at hf'
      | evictOwner _ _ hf' => simp [hnone] at hf'
      | writeBack _ _ hf' => simp [hnone] at hf'
  | allocating w hn hpc hidle hp hf ho hread =>
    have hpcs : ∀ w', s.pc w' = .idle ∨ (s.pc w' = .allocate ∧ w' = w) := by
      intro w'
      by_cases hw : w' = w
      · exact .inr ⟨hw ▸ hpc, hw⟩
      · exact .inl (hidle w' hw)
    -- nobody but the allocating worker has anything to do
    have stuck : ∀ w' (p : Pc C), s.pc w' = p → p ≠ .idle → p ≠ .allocate → False := by
      intro w' p hp h1 h2
      rcases hpcs w' with h | ⟨h, -⟩
      · exact h1 (hp ▸ h)
      · exact h2 (hp ▸ h)
    cases st with
    | worker st =>
      cases st with
      | start hk' => simp [hk] at hk'
      | @undo n f hf' hl =>
        have hno : n = o := by
          by_contra hno
          simp [hf n hno] at hf'
        subst hno
        refine .inl ⟨hk, .allocating w hn hpc hidle hp ?_ ?_ hread, rfl⟩
        · intro m hm
          simp [hm, hf m hm]
        · simp [← ho, hf']
      | newPage _ _ _ _ hf' => simp [ho] at hf'
      | @allocate w' c hpc' _ =>
        have hw : w' = w := by
          rcases hpcs w' with h | ⟨-, h⟩
          · simp [h] at hpc'
          · exact h
        subst hw
        refine .inr ⟨rfl, Fresh.allocate hn hpc hidle hp hf ho hread c, w', by simp,
          ⟨newFrame (node w') w' c, by simp, rfl⟩, ?_, ?_⟩
        · simpa [hp] using newFrame_copy (node w') w' c
        · intro w'' hw
          simp [hw, hidle w'' hw]
      | insert c hpc' => exact (stuck _ _ hpc' (by simp) (by simp)).elim
      | changeLocal c hpc' => exact (stuck _ _ hpc' (by simp) (by simp)).elim
      | write c hpc' => exact (stuck _ _ hpc' (by simp) (by simp)).elim
      | read c hpc' => exact (stuck _ _ hpc' (by simp) (by simp)).elim
      | reclaimPage _ hpc' => exact (stuck _ _ hpc' (by simp) (by simp)).elim
      | _ hpc' => exact (stuck _ _ hpc' (by simp) (by simp)).elim
    | handler st =>
      cases st with
      | loaded hf' hh =>
        rw [ho] at hf'
        obtain rfl := Option.some.inj hf'
        cases hh
      | allocation _ _ _ hf' => simp [ho] at hf'
      | _ hpc' => exact (stuck _ _ hpc' (by simp) (by simp)).elim
    | provider st =>
      cases st with
      | refuse hp' => simp [hp] at hp'
      | accept _ hp' => simp [hp] at hp'
      | applyAcked hp' => simp [hp] at hp'
      | applyRefused hp' => simp [hp] at hp'
      | applyStale hp' => simp [hp] at hp'
      | select _ hno hf' => simp [hf _ hno] at hf'
      | landed hr => simp [hread] at hr
      | overlooked hr => simp [hread] at hr
      | retrieved hf' hh =>
        rw [ho] at hf'
        obtain rfl := Option.some.inj hf'
        cases hh
      | evictOwner _ _ hf' _ hst =>
        rw [ho] at hf'
        obtain rfl := Option.some.inj hf'
        exact absurd rfl hst
      | writeBack _ _ hf' _ hst =>
        rw [ho] at hf'
        obtain rfl := Option.some.inj hf'
        cases hst

omit [DecidableEq W] in
/-- A frame of such a page has no buffer for a late READ to land in. -/
theorem Fresh.not_overwrites {n : NodeID} (h : Fresh o node s) : ¬ Overwrites n s s' := by
  rintro @⟨f, c, hf, hpage⟩
  have hno : n = o := by
    by_contra hno
    cases h with
    | unused hun => simp [hun.frame n hno] at hf
    | allocating w _ _ _ _ hfr => simp [hfr n hno] at hf
  subst hno
  cases h with
  | unused _ hnone => simp [hnone] at hf
  | allocating w _ _ _ _ _ ho =>
    rw [ho] at hf
    obtain rfl := Option.some.inj hf
    simp [allocatedFrame] at hpage

theorem Step.known (hk : s.known = true) (st : Step cfg o node s s') : s'.known = true := by
  cases st with
  | worker st => cases st <;> first | rfl | exact hk
  | handler st => cases st <;> exact hk
  | provider st => cases st <;> exact hk

theorem PageStep.known (hk : s.known = true) (st : PageStep cfg o node s s') :
    s'.known = true := by
  cases st with
  | step st => exact st.known hk
  | overwritten st =>
    cases st
    exact hk

theorem Coherent.step (hk : s.known = true) (h : Coherent o node s)
    (st : PageStep cfg o node s s') : Coherent o node s' := by
  obtain ⟨l, hok⟩ := h.ordered
  exact ⟨st.nodes hk h.nodes, st.waits h.nodes h.waits,
    (st.moves hk h.nodes h.waits hok).ok l hok⟩

theorem Invariant.step (h : Invariant o node s) (st : PageStep cfg o node s s') :
    Invariant o node s' := by
  unfold Invariant at h
  split at h
  case isTrue hk =>
    rw [Invariant, if_pos (st.known hk)]
    exact h.step hk st
  case isFalse hk =>
    cases st with
    | overwritten st => exact absurd st h.not_overwrites
    | step st =>
      rcases h.step (by simpa using hk) st with ⟨hk', hf, -⟩ | ⟨hk', ha, -⟩
      · rw [Invariant, if_neg (by simp [hk'])]
        exact hf
      · rw [Invariant, if_pos hk']
        exact ⟨ha.nodes, ha.waits, _, ha.ok⟩

end Allocation

/-! ## All pages -/

section World

variable {PID : Type} [DecidableEq PID] [DecidableEq W]

/-- The machine of one page, whatever becomes of the READs of the others. -/
def machine (cfg : Config) (o : NodeID) (node : W → NodeID) : System (PageState W C) where
  Init := Init
  Step := PageStep cfg o node

/-- What can happen to the page `p` of a store: a step of its own, or that a READ of another page
lands in it, one that the other page's owner has taken for complete before. -/
inductive WorldStep (cfg : Config) (owner : PID → NodeID) (node : W → NodeID)
    (σ : PID → PageState W C) (p : PID) (s' : PageState W C) : Prop where
  | step : Step cfg (owner p) node (σ p) s' → WorldStep cfg owner node σ p s'
  | overwritten {q} : (σ q).astray = true → Overwrites (owner q) (σ p) s' →
    WorldStep cfg owner node σ p s'

/-- All pages of the store, each with its owner. -/
def world (cfg : Config) (owner : PID → NodeID) (node : W → NodeID) :
    System (PID → PageState W C) where
  Init σ := ∀ p, Init (σ p)
  Step σ σ' := ∃ p s', WorldStep cfg owner node σ p s' ∧ σ' = Function.update σ p s'

variable {owner : PID → NodeID} {σ : PID → PageState W C}

omit [DecidableEq PID] in
theorem WorldStep.page {p : PID} {s' : PageState W C} (h : WorldStep cfg owner node σ p s') :
    PageStep cfg (owner p) node (σ p) s' := by
  cases h with
  | step h => exact .step h
  | overwritten _ h => exact .overwritten h

theorem world_page (h : (world cfg owner node).Reachable σ) (p : PID) :
    (machine cfg (owner p) node).Reachable (σ p) := by
  induction h with
  | init h => exact .init (h p)
  | @step σ σ' hs h ih =>
    obtain ⟨p', s', hst, rfl⟩ := h
    by_cases hp : p = p'
    · subst hp
      simpa using ih.step hst.page
    · simpa [hp] using ih

section Acts

variable {as : List (Act W C)}

/-- A run of one page is a run of a store that has no other. -/
theorem acts_world (hs : (world cfg (fun _ : Unit => o) node).Reachable fun _ => s)
    (h : acts cfg o node s as = some s') :
    (world cfg (fun _ : Unit => o) node).Reachable fun _ => s' := by
  refine acts_invariant (P := fun s => (world cfg (fun _ : Unit => o) node).Reachable fun _ => s)
    (fun s s' hs st => hs.step ⟨(), s', .step st, ?_⟩) hs h
  funext p
  simp

theorem acts_any {p : PageState W C → Bool} (hs : Init s)
    (h : (acts cfg o node s as).any p = true) :
    ∃ s', (world cfg (fun _ : Unit => o) node).Reachable (fun _ => s') ∧ p s' = true := by
  rcases hrun : acts cfg o node s as with _ | s'
  · simp [hrun] at h
  · exact ⟨s', acts_world (.init fun _ => hs) hrun, by simpa [hrun] using h⟩

end Acts

theorem machine_invariant (h : (machine cfg o node).Reachable s) : Invariant o node s := by
  apply System.Reachable.invariant _ _ h
  · exact fun s hs => hs.invariant
  · exact fun s s' _ hs hst => hs.step hst

/-- Somebody who has a guard has it on a page that has been handed out. -/
theorem Invariant.coherent {w : W} (h : Invariant o node s) (hi : s.pc w ≠ .idle)
    (ha : s.pc w ≠ .allocate) : Coherent o node s := by
  unfold Invariant at h
  split at h
  case isTrue => exact h
  case isFalse =>
    cases h with
    | unused hun => exact absurd (hun.pc w) hi
    | allocating w' _ hpc hidle =>
      by_cases hw : w = w'
      · exact absurd (hw ▸ hpc) ha
      · exact absurd (hidle w hw) hi

end World

/-! ## Exclusion -/

/-- The node `n` cannot use the page: it has no frame that is HOT, in its possession and not
latched exclusively, no guard, and no optimistic guard that would still be valid. -/
structure Excluded (node : W → NodeID) (s : PageState W C) (n : NodeID) : Prop where
  frame : ∀ f, s.frame n = some f →
    ¬ (f.state = .hot ∧ f.isPossessor n = true ∧ f.holder = none)
  exclusive : ∀ w, node w = n → s.pc w ≠ .guardX
  shared : ∀ w v, node w = n → s.pc w ≠ .guardS v
  optimistic : ∀ w v seen, node w = n → s.pc w = .guardO v seen → v ≠ s.version n

/-- The copy of a node that holds the page exclusively. -/
theorem Coherent.copy_of_guardX {w : W} (h : Coherent o node s) (hpc : s.pc w = .guardX) :
    ∃ c, (ledger o node s).live (node w) = some c ∧ c.excl = true := by
  obtain ⟨f, hf, hh⟩ := (h.nodes (node w)).holds w rfl (by simp [hpc, Pc.latched])
  obtain ⟨-, -, hhot, hx⟩ := h.nodes.fits hpc rfl hf
  have hp := h.nodes.provider_of_worker hf hh
  exact ⟨⟨f.pVersion, true⟩, by simp [hf, Frame.copy, hhot.1, hhot.2.1, hp, hx], rfl⟩

/-- The copy of a node whose frame can be used. -/
theorem Coherent.copy_of_free {n : NodeID} {f : Frame W C} (h : Coherent o node s)
    (hf : s.frame n = some f) (hst : f.state = .hot) (hp : f.isPossessor n = true)
    (hh : f.holder = none) : ∃ c, (ledger o node s).live n = some c := by
  have hpro : s.provider n ≠ .acked := by
    intro hpr
    obtain ⟨f', hf', hh'⟩ := (h.nodes n).provides (by simp [hpr])
    rw [hf] at hf'
    obtain rfl := Option.some.inj hf'
    simp [hh] at hh'
  exact ⟨⟨f.pVersion, decide (f.possession = .exclusive)⟩,
    by simp [hf, Frame.copy, hst, hp, hpro, Frame.byWorker, hh]⟩

/-- A node without a copy cannot use the page. -/
theorem Coherent.excluded_of_none {n : NodeID} (h : Coherent o node s)
    (halone : ∀ d, (ledger o node s).live n ≠ some d) : Excluded node s n := by
  have hframe : ∀ f, s.frame n = some f →
      ¬ (f.state = .hot ∧ f.isPossessor n = true ∧ f.holder = none) := by
    rintro f hf ⟨hst, hp, hh⟩
    obtain ⟨d, hd⟩ := h.copy_of_free hf hst hp hh
    exact halone d hd
  -- a guard that may be used stands on such a frame
  have htrust : ∀ w' v, node w' = n → (s.pc w').stamp = some v → (s.pc w').trusts = true →
      v ≠ s.version n := by
    rintro w' v rfl hst htr rfl
    rcases (h.nodes (node w')).stamp w' _ rfl hst with hlt | ⟨-, f, hf, hh, -, hhot⟩
    · exact absurd hlt (Nat.lt_irrefl _)
    · exact hframe f hf ⟨(hhot htr).1, (hhot htr).2.1, hh⟩
  constructor
  case frame => exact hframe
  case exclusive =>
    rintro w' rfl hpc'
    obtain ⟨d, hd, -⟩ := h.copy_of_guardX hpc'
    exact halone d hd
  case shared =>
    intro w' v hw' hpc'
    obtain ⟨f, hf, hhot⟩ := (h.nodes n).reads w' hw' (by simp [hpc', Pc.shares])
    exact hframe f hf ⟨hhot.1, hhot.2.1, h.nodes.free_of_reader hpc' (hw' ▸ hf)⟩
  case optimistic =>
    intro w' v seen hw' hpc'
    exact htrust w' v hw' (by simp [hpc', Pc.stamp]) (by simp [hpc', Pc.trusts])

theorem Coherent.excluded {w : W} {n : NodeID} (h : Coherent o node s) (hpc : s.pc w = .guardX)
    (hn : n ≠ node w) : Excluded node s n := by
  obtain ⟨l, hok⟩ := h.ordered
  obtain ⟨c, hc, hx⟩ := h.copy_of_guardX hpc
  refine h.excluded_of_none fun d hd => ?_
  exact hn (hok.excl_alone (node w) n c d hc hx hd)

/-- Single writer, multiple readers: while some worker has an exclusive guard on a page, no other
node can use it, whatever else runs: any accesses, all handlers, evictions, and `reclaimPage`,
after which the machine does not hand out the PID again. -/
theorem single_writer {PID : Type} [DecidableEq PID] [DecidableEq W] {owner : PID → NodeID}
    {σ : PID → PageState W C} (h : (world cfg owner node).Reachable σ) (p : PID) {w : W}
    (hX : (σ p).pc w = .guardX) {n : NodeID} (hn : n ≠ node w) : Excluded node (σ p) n := by
  have hinv := machine_invariant (world_page h p)
  exact (hinv.coherent (w := w) (by simp [hX]) (by simp [hX])).excluded hX hn

/-- A page nobody has heard of, with the content `c` on the SSD. -/
def PageState.start (c : C) (known : Bool) : PageState W C where
  frame _ := none
  version _ := 0
  pc _ := .idle
  provider _ := .idle
  known := known
  disk := c
  last := c
  read := none
  astray := false

theorem PageState.start_init (c : C) (known : Bool) :
    Init (PageState.start c known : PageState W C) :=
  ⟨fun _ => rfl, fun _ => rfl, fun _ => rfl, rfl, rfl, rfl⟩

/-- The worker of each node. -/
abbrev oneWorker : NodeID → NodeID := fun n => n

/-- Node 1 remembers the page of node 0, then node 2 gets it exclusively. -/
def invalidatedActs : List (Act NodeID Nat) :=
  [.start 1 .optimistic, .insert 1 9, .requestLoad 1, .loaded, .request 1, .receive 1 0,
    .completeOptimistic 1, .start 2 .exclusive, .insert 2 9, .request 2, .receive 2 0,
    .invalidate 2 1, .completeExclusive 2]

/-- Node 2 has the exclusive guard, and node 1 still the optimistic one. -/
def invalidatedSeen (s : PageState NodeID Nat) : Bool :=
  match s.pc 1, s.pc 2 with
  | .guardO _ _, .guardX => true
  | _, _ => false

theorem single_writer_invalidated : ∃ s : PageState NodeID Nat, invalidatedSeen s = true ∧
    Excluded oneWorker s 1 := by
  have hrun : (acts ⟨true, true, true⟩ 0 oneWorker (PageState.start 0 true)
      invalidatedActs).any invalidatedSeen = true := by decide +kernel
  obtain ⟨s, hs, hseen⟩ := acts_any (PageState.start_init 0 true) hrun
  refine ⟨s, hseen, single_writer hs () (w := 2) ?_ (by decide)⟩
  unfold invalidatedSeen at hseen
  split at hseen
  case h_1 hpc => exact hpc
  case h_2 => cases hseen

end ScaleStore.Protocol
