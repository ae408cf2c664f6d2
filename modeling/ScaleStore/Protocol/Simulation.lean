/-
# Steps move the ledger

Every step of the machine either leaves the ledger of the page as it is or makes
one of its moves.  This is where the owner's bookkeeping, the frames and the
requests on their way meet.
-/

import ScaleStore.Protocol.View
import ScaleStore.Protocol.Waits

namespace ScaleStore.Protocol

variable {W C : Type} {cfg : Config} {o : NodeID} {node : W → NodeID} {s s' : PageState W C}
  {k : Bool}

/-! ## Frames and phases, read as parts of the ledger -/

theorem Frame.entry_eq {f f' : Frame W C} (hp : f'.possession = f.possession)
    (hs : f'.possessors = f.possessors) : f'.entry = f.entry := by
  simp [Frame.entry, Frame.named, hp, hs]

theorem Frame.entry_nobody {f : Frame W C} (h : f.possession = .nobody) :
    f.entry = (∅, false) := by
  simp [Frame.entry, Frame.named, h]

theorem Frame.left_of_holder {f : Frame W C} {x : Holder W} (h : f.holder = some x) :
    f.left = none := by
  simp [Frame.left, h]

theorem Frame.left_of_state {f : Frame W C} (h : f.state ≠ .ioRdma) : f.left = none := by
  simp [Frame.left, h]

theorem Frame.copy_of_state {f : Frame W C} {n : NodeID} {p : Provider} (h : f.state ≠ .hot) :
    f.copy n p = none := by
  simp [Frame.copy, h]

theorem Frame.copy_of_not {f : Frame W C} {n : NodeID} {p : Provider}
    (h : f.isPossessor n = false) : f.copy n p = none := by
  simp [Frame.copy, h]

theorem Frame.Settled.left {f : Frame W C} (h : f.Settled o) : f.left = none := by
  apply Frame.left_of_state
  rcases h.hot with ⟨hh, -⟩ | ⟨hh, -⟩ <;> simp [hh]

theorem Frame.Dim.copy {f : Frame W C} {p : Provider} (h : f.Dim o) : f.copy o p = none := by
  rcases h with h | ⟨-, h⟩
  · exact Frame.copy_of_state (by simp [h])
  · exact Frame.copy_of_not h

/-- While a worker holds the latch, no page provider does. -/
theorem Nodes.provider_of_worker {w : W} {n : NodeID} {f : Frame W C} (h : Nodes o node s)
    (hf : s.frame n = some f) (hh : f.holder = some (.worker w)) : s.provider n = .idle := by
  by_contra hp
  obtain ⟨f', hf', hh'⟩ := (h n).provides hp
  rw [hf] at hf'
  obtain rfl := Option.some.inj hf'
  simp [hh] at hh'

theorem ledger_sets [DecidableEq W] {w : W} {p : Pc C} (h : s'.pc = Function.update s.pc w p) :
    Ledger.Sets (ledger o node s) (ledger o node s') w (p.acquisition (node w)) := by
  constructor
  · simp [h]
  · intro w' hw
    simp [h, hw]

/-- The phases that a plan leads to make the acquisition that the plan stands for. -/
theorem Enters.acquisition {n : NodeID} {g : GuardState} {t : Access} {e : Nat} {plan : Plan}
    {p : Pc C} (h : Enters n g t e plan p) (hg : g ≠ .ssd)
    (ht : ∀ shared, plan = .invalidate shared → t = .exclusive) :
    p.acquisition n = some (plan.acquisition n g t e) := by
  cases h with
  | @move shared c hc hne =>
    have hins : insert c ((shared.reset c).members : Set NodeID) = shared.members := by
      rw [Possessors.members_reset, ← Finset.coe_insert,
        Finset.insert_erase (Possessors.mem_members.mpr hc)]
    simp only [Pc.acquisition, Plan.acquisition, hins]
  | invalidate => rfl
  | @none shared hany =>
    have hm := Possessors.any_eq_false_iff.mp hany
    simp [Pc.acquisition, Plan.acquisition, hg, ht shared rfl, hm]
  | copy => rfl
  | complete => simp [Pc.acquisition, hg]

/-- Steps of workers elsewhere leave the directory alone. -/
theorem Nodes.sameDir_of_ne [DecidableEq W] {w : W} {n : NodeID} {fr : Option (Frame W C)}
    {p : Pc C} {j : Nat} (h : Nodes o node s) (hn : n ≠ o) (hw : node w ≠ o) :
    Ledger.SameDir (ledger o node s) (ledger o node ((s.setFrame n fr j).setPc w p)) := by
  apply h.sameDir
  · simp [hn.symm]
  · intro f w' _ _ hw'
    have hne : w' ≠ w := by
      rintro rfl
      exact hw hw'
    simp [hne]

/-! ## The cold path on the owner -/

theorem Enters.view_local {t : Access} {e : Nat} {plan : Plan} {p : Pc C} {f : Frame W C}
    (h : Enters o .localPossessionChange t e plan p)
    (ht : ∀ shared, plan = .invalidate shared → t = .exclusive) (hc : plan ≠ .complete) :
    p.view o f = match plan with
      | .copy _ => (insert o (f.named : Set NodeID), false)
      | _ => ({o}, decide (t = .exclusive)) := by
  cases h with
  | move => rfl
  | @invalidate shared => simp [Pc.view, ht shared rfl]
  | @none shared => simp [Pc.view, ht shared rfl]
  | copy => rfl
  | complete => exact absurd rfl hc

/-- A worker of the owner opens an epoch for itself. -/
theorem moves_localGrant [DecidableEq W] {w : W} {f f' : Frame W C} {p : Pc C} {j : Nat}
    {q : Acquisition NodeID} (h : Nodes o node s) (hn : node w = o) (hf : s.frame o = some f)
    (hl : f.Latchable) (hs : f.Settled o) (hpc : (s.pc w).acquisition o = none)
    (hh : f'.holder = some (.worker w)) (hv : f'.pVersion = f.pVersion + 1)
    (hcopy : f'.copy o (s.provider o) = none) (hp : p.acquisition o = some q)
    (hview : p.view o f' = ({o}, q.excl)) (hfirst : q.first = true)
    (hepoch : q.epoch = f.pVersion + 1) (hkeeps : q.keeps = false)
    (htargets : q.targets = {n | f.isPossessor n = true ∧ n ≠ o})
    (hready : q.ready = true → f.Hot o ∧ f.possession = .shared) :
    Ledger.Moves k (ledger o node s)
      (ledger o node ((s.setFrame (node w) (some f') j).setPc w p)) := by
  subst hn
  have hnode : q.node = node w := Pc.acquisition_node hp
  have hdir : (ledger (node w) node s).dir = {n | f.isPossessor n = true} := by
    rw [ledger_dir hf, Frame.view_of_free hl.byWorker]
    ext n
    simp [Frame.entry]
  have hlive : ∀ n, n ≠ node w → (ledger (node w) node
      ((s.setFrame (node w) (some f') j).setPc w p)).live n = (ledger (node w) node s).live n := by
    intro n hn
    simp [hn]
  have hlive' : (ledger (node w) node
      ((s.setFrame (node w) (some f') j).setPc w p)).live (node w) = none := by
    simp [hcopy]
  have hepoch' : (ledger (node w) node s).epoch = f.pVersion := ledger_epoch hf
  have hfree := h.not_busy_of_latchable hf hl
  apply Ledger.Moves.grant (w := w) (q := q)
  · constructor
    case sets => exact hp ▸ ledger_sets rfl
    case idle => simpa using hpc
    case epoch =>
      rw [hepoch', ← hv]
      exact ledger_epoch (by simp)
    case first => exact hfirst
    case at_epoch => rw [hepoch', hepoch]
    case dir =>
      rw [ledger_dir (f := f') (by simp), Frame.view_of_worker hh]
      simp [hview, hnode]
    case excl =>
      rw [ledger_dirExcl (f := f') (by simp), Frame.view_of_worker hh]
      simp [hview]
    case free => exact hnode ▸ hfree
    case live =>
      intro n c hc
      by_cases hn : n = node w
      · rw [hn, hlive'] at hc
        cases hc
      · rwa [hlive n hn] at hc
    case keeps =>
      intro c hc
      rw [hnode, hlive'] at hc
      cases hc
    case targets =>
      intro n hm
      by_cases hn : n = node w
      · exact .inr (.inr ⟨hn ▸ hlive', hn ▸ hfree⟩)
      · rw [hdir] at hm
        exact .inl (htargets ▸ ⟨hm, hn⟩)
  · intro n
    by_cases hn : n = node w
    · subst hn
      simp [hf, hs.left, Frame.left_of_holder hh]
    · simp [hn]
  · simp [hnode, hf, hs.left]
  · intro n hm
    rw [htargets] at hm
    exact ⟨hdir ▸ hm.1, hlive n hm.2⟩
  · intro n c hc
    by_cases hn : n = node w
    · subst hn
      refine .inr ?_
      simp only [ledger_live, hf, Option.bind_some, Frame.copy] at hc
      split at hc
      · obtain rfl := Option.some.inj hc
        simp [hepoch', hl.byWorker]
      · cases hc
    · exact .inl (hlive n hn ▸ hc)
  · intro hr
    obtain ⟨hhot, hx⟩ := hready hr
    refine ⟨node w, ⟨f.pVersion, false⟩, ?_, hepoch'.symm, by simp⟩
    have hpro := h.provider_owner
    simp [hf, Frame.copy, hhot.1, hhot.2.1, hpro, hl.byWorker, hx]
  · simp [hkeeps]

/-- LOCAL_POSSESSION_CHANGE, up to its first message. -/
theorem moves_changeLocal [DecidableEq W] {w : W} {t : Access} {f f' : Frame W C} {plan : Plan}
    {p : Pc C} {c : C} {j : Nat} (h : Nodes o node s) (hn : node w = o)
    (hf : s.frame o = some f) (hl : f.Latchable) (hmiss : t.Misses o f)
    (hpc : (s.pc w).acquisition o = none) (hc : f.localChange o t c = .ok (plan, f'))
    (hp : Enters o .localPossessionChange t f'.pVersion plan p) :
    Ledger.Moves k (ledger o node s)
      (ledger o node ((s.setFrame (node w)
        (some { f' with holder := some (.worker w) }) j).setPc w p)) := by
  have hs := h.settled hf hl.1
  obtain ⟨hlc, -⟩ := Frame.localChange_ok hc
  cases hlc with
  | @displace x hx =>
    -- another node possesses the page exclusively
    have hno : f.isPossessor o = false := by
      rcases hmiss with hm | ⟨-, hm⟩
      · exact hm
      · exact absurd hx hm
    refine moves_localGrant h hn hf hl hs hpc rfl rfl ?_ (hp.acquisition (by simp) (by simp))
      ?_ rfl rfl rfl ?_ (by simp [Plan.acquisition])
    · exact Frame.copy_of_not (by simpa [Frame.isPossessor] using hno)
    · rw [hp.view_local (by simp) (by simp)]
      rfl
    · ext n
      simp only [Plan.acquisition, Possessors.members_set, Possessors.members_zero,
        Frame.isPossessor_exclusive hx, insert_empty_eq, Finset.coe_singleton,
        Set.mem_singleton_iff, Set.mem_ofPred_eq]
      constructor
      · rintro rfl
        refine ⟨rfl, fun he => ?_⟩
        rw [(Frame.isPossessor_exclusive hx).mpr he] at hno
        cases hno
      · exact fun hm => hm.1.symm
  | @collect x hx ht hst hany =>
    refine moves_localGrant h hn hf hl hs hpc rfl rfl ?_ (hp.acquisition (by simp) (by simp))
      ?_ rfl rfl rfl ?_ (by simp [Plan.acquisition])
    · exact Frame.copy_of_state (by simp [hst])
    · rw [hp.view_local (by simp) (by simp)]
      rfl
    · ext n
      simp [Plan.acquisition, Frame.isPossessor_shared hx, and_comm]
  | @revoke x hx ht hany _ =>
    -- the owner shares the page: an evicted frame would name somebody else
    have hhot : f.Hot o := by
      rcases hs.hot with hh | ⟨hst, hno, -⟩
      · exact hh
      · obtain ⟨m, hm⟩ := Possessors.any_iff.mp (hs.shared hx)
        rw [Frame.isPossessor_shared hx] at hno
        have hmo : m ≠ o := by
          rintro rfl
          simp [hno] at hm
        have hnone := Possessors.any_eq_false_iff.mp (hany hst)
        have hmem : m ∈ (f.possessors.reset o).members := by
          simpa [hmo] using hm
        simp [hnone] at hmem
    refine moves_localGrant h hn hf hl hs hpc rfl rfl ?_
      (hp.acquisition (by simp) (fun _ _ => ht)) ?_ rfl rfl (by simp [Plan.acquisition]) ?_
      (fun _ => ⟨hhot, hx⟩)
    · exact Frame.copy_of_not (by simp [Frame.isPossessor, hx])
    · rw [hp.view_local (fun _ _ => ht) (by simp)]
      simp [Plan.acquisition, ht]
    · ext n
      simp [Plan.acquisition, Frame.isPossessor_shared hx, and_comm]
  | @join x hx ht hst hany =>
    subst hn
    have hno := (hs.of_evicted hst).1
    have hacq : p.acquisition (node w) = some ⟨node w, f.pVersion, false, false, ∅, false, false⟩ :=
      hp.acquisition (by simp) (by simp)
    have hfr : ((s.setFrame (node w) (some { f with page := x, holder := some (.worker w) })
        j).setPc w p).frame (node w) = some { f with page := x, holder := some (.worker w) } := by
      simp
    have hview : Frame.view { f with page := x, holder := some (.worker w) } (node w)
        (Function.update s.pc w p) = (insert (node w) (f.named : Set NodeID), false) := by
      rw [Frame.view_of_worker rfl, Function.update_self, hp.view_local (by simp) (by simp)]
      rfl
    have hview₀ : f.view (node w) s.pc = ((f.named : Set NodeID), false) := by
      rw [Frame.view_of_free hl.byWorker]
      simp [Frame.entry, hx]
    refine Ledger.Moves.join (w := w) (q := ⟨node w, f.pVersion, false, false, ∅, false, false⟩)
      ?_ ?_ ?_
    · constructor
      case sets => exact hacq ▸ ledger_sets rfl
      case idle => simpa using hpc
      case epoch => rw [ledger_epoch hf, ledger_epoch hfr]
      case first => rfl
      case at_epoch => exact (ledger_epoch hf).symm
      case excl => rfl
      case keeps => rfl
      case dir =>
        rw [ledger_dir hf, ledger_dir hfr, hview₀]
        exact congrArg Prod.fst hview
      case dirExcl =>
        rw [ledger_dirExcl hf, ledger_dirExcl hfr, hview₀]
        exact ⟨rfl, congrArg Prod.snd hview⟩
      case free => exact h.not_busy_of_latchable hf hl
      case live =>
        intro n
        by_cases hn : n = node w
        · subst hn
          simp [hf, Frame.copy, hst]
        · simp [hn]
      case no_live => simp [hf, Frame.copy, hst]
      case ready => simp
    · intro n
      by_cases hn : n = node w
      · subst hn
        simp [hf, Frame.left, hst]
      · simp [hn]
    · simp [hf, hs.left]

/-! ## The end of the cold path -/

theorem Frame.withPossessor_copy {f : Frame W C} {t : Access} {n : NodeID} {x : Option (Holder W)}
    (hx : t = .exclusive ∨ x = none) :
    Frame.copy { f.withPossessor t n with holder := x } n .idle =
      some ⟨f.pVersion, t = .exclusive⟩ := by
  rcases hx with rfl | rfl
  · simp [Frame.copy, Frame.withPossessor, Access.desired, Frame.isPossessor]
  · cases t <;>
      simp [Frame.copy, Frame.withPossessor, Access.desired, Frame.isPossessor, Frame.byWorker]

/-- The directory says the same before and after a worker of the owner completes its access. -/
theorem view_complete_local {f : Frame W C} {t : Access} {e : Nat} {x : Option (Holder W)}
    (hfit : Fits o o f (.complete .localPossessionChange t e)) :
    Frame.entry { f.withPossessor t o with holder := x } =
      (Pc.complete .localPossessionChange t e : Pc C).view o f := by
  by_cases ht : t = .exclusive
  · subst ht
    simp [Frame.withPossessor, Frame.entry, Frame.named, Access.desired, Pc.view]
  · have hd : t.desired = .shared := by
      cases t <;> first | rfl | exact absurd rfl ht
    rcases hfit.2.2 rfl ht with ⟨hx, hz⟩ | ⟨hx, -⟩
    · simp [Frame.withPossessor, Frame.entry, Frame.named, hd, Pc.view, ht, hx, hz]
    · simp [Frame.withPossessor, Frame.entry, Frame.named, hd, Pc.view, ht, hx]

/-- A worker has everything: its node possesses the page. -/
theorem moves_complete [DecidableEq W] {w : W} {g : GuardState} {t : Access} {e j : Nat}
    {f f' : Frame W C} {p : Pc C} {x : Option (Holder W)} (h : Nodes o node s)
    (hpc : s.pc w = .complete g t e) (hf : s.frame (node w) = some f)
    (hf' : ∃ d, f' = { f.withPossessor t (node w) with holder := x, dirty := d })
    (hx : (t = .exclusive ∧ x = some (.worker w) ∧ p = .guardX) ∨
      (x = none ∧ p.acquisition (node w) = none)) :
    Ledger.Moves k (ledger o node s)
      (ledger o node ((s.setFrame (node w) (some f') j).setPc w p)) := by
  obtain ⟨hh, -, hfit⟩ := h.fits hpc rfl hf
  have hpro := h.provider_of_worker hf hh
  have hacq : p.acquisition (node w) = none := by
    rcases hx with ⟨-, -, rfl⟩ | ⟨-, hp⟩
    · rfl
    · exact hp
  have hcopy : f'.copy (node w) (s.provider (node w)) = some ⟨f.pVersion, t = .exclusive⟩ := by
    obtain ⟨d, rfl⟩ := hf'
    rw [hpro]
    exact Frame.withPossessor_copy (hx.imp And.left And.left)
  have hentry : f'.entry = (f.withPossessor t (node w)).entry := by
    obtain ⟨d, rfl⟩ := hf'
    rfl
  have hv : f'.pVersion = f.pVersion := by
    obtain ⟨d, rfl⟩ := hf'
    rfl
  have hleft : ∀ n, (ledger o node ((s.setFrame (node w) (some f') j).setPc w p)).left n =
      (ledger o node s).left n := by
    intro n
    by_cases hn : n = node w
    · subst hn
      have : f'.left = none := by
        obtain ⟨d, rfl⟩ := hf'
        exact Frame.left_of_state (by simp [Frame.withPossessor])
      simp [hf, this, Frame.left_of_holder hh]
    · simp [hn]
  have hother : ∀ n, n ≠ node w →
      (ledger o node ((s.setFrame (node w) (some f') j).setPc w p)).live n =
        (ledger o node s).live n := by
    intro n hn
    simp [hn]
  have hlive : (ledger o node ((s.setFrame (node w) (some f') j).setPc w p)).live (node w) =
      some ⟨f.pVersion, t = .exclusive⟩ := by
    simpa using hcopy
  have hview : f'.view o (Function.update s.pc w p) = f'.entry := by
    rcases hx with ⟨-, rfl, rfl⟩ | ⟨rfl, -⟩
    · have hw : f'.holder = some (.worker w) := by
        obtain ⟨d, rfl⟩ := hf'
        rfl
      rw [Frame.view_of_worker hw, Function.update_self]
      rfl
    · apply Frame.view_of_free
      obtain ⟨d, rfl⟩ := hf'
      rfl
  -- the directory named the node from the grant on
  have hdir : g ≠ .ssd → Ledger.SameDir (ledger o node s)
      (ledger o node ((s.setFrame (node w) (some f') j).setPc w p)) := by
    intro hg
    by_cases hn : node w = o
    · subst hn
      have hfr : ((s.setFrame (node w) (some f') j).setPc w p).frame (node w) = some f' := by simp
      have hsame : f'.view (node w) (Function.update s.pc w p) = f.view (node w) s.pc := by
        rw [hview, hentry, Frame.view_of_worker hh, hpc]
        cases g with
        | initialized => exact hfit.1.elim
        | ssd => exact absurd rfl hg
        | remote => exact absurd rfl hfit.1.1
        | remotePossessionChange => exact absurd rfl hfit.1.1
        | localPossessionChange => exact view_complete_local (x := f.holder) hfit
      constructor
      · rw [ledger_epoch hf, ledger_epoch hfr, hv]
      · rw [ledger_dir hf, ledger_dir hfr]
        exact congrArg Prod.fst hsame
      · rw [ledger_dirExcl hf, ledger_dirExcl hfr]
        exact congrArg Prod.snd hsame
    · exact h.sameDir_of_ne hn hn
  have hepoch : f.pVersion = e := by
    cases g with
    | initialized => exact hfit.1.elim
    | ssd => rw [hfit.1.2.2.1, hfit.1.2.2.2]
    | remote => exact hfit.1.2.2
    | localPossessionChange => exact hfit.1.2.2.2.1
    | remotePossessionChange => exact hfit.1.2.2.2
  by_cases hg : g = .ssd
  · subst hg
    obtain ⟨⟨hn, ⟨-, hnb, hz, -⟩, hv₀, -⟩, -⟩ := hfit
    subst hn
    have hfr : ((s.setFrame (node w) (some f') j).setPc w p).frame (node w) = some f' := by simp
    have hnew : f'.entry = ({node w}, decide (t = .exclusive)) := by
      rw [hentry]
      cases t <;>
        simp [Frame.withPossessor, Frame.entry, Frame.named, Access.desired, hz]
    refine .appear (n := node w) ?_ ?_ ?_ ?_ hother ?_ hleft
    · rw [ledger_epoch hf, hv₀]
    · rw [ledger_dir hf, Frame.view_of_worker hh, hpc]
      simp [Pc.view, Frame.entry_nobody hnb]
    · intro w'
      by_cases hw : w' = w
      · subst hw
        simp only [ledger_acq, PageState.setPc_pc, Function.update_self, hacq, hpc]
        rfl
      · simp [hw]
    · rw [hlive, ledger_epoch hfr, ledger_dirExcl hfr, hv]
      exact congrArg (fun b => some (Copy.mk f.pVersion b))
        (congrArg Prod.snd (hview.trans hnew)).symm
    · rw [ledger_dir hfr]
      exact congrArg Prod.fst (hview.trans hnew)
  · have hq : (s.pc w).acquisition (node w) = some (Plan.complete.acquisition (node w) g t e) := by
      simp [hpc, Pc.acquisition, hg]
    have hsets : Ledger.Sets (ledger o node s)
        (ledger o node ((s.setFrame (node w) (some f') j).setPc w p)) w
        (p.acquisition (node w)) := ledger_sets rfl
    rw [hacq] at hsets
    by_cases ht : t = .exclusive
    · subst ht
      exact .finish ⟨hq, hsets, hdir hg, rfl, rfl, rfl,
        by simpa [Plan.acquisition, hepoch] using hlive,
        hother⟩ hleft rfl
    · simp only [Plan.acquisition, ht, if_false] at hq
      exact .joinFinish ⟨hq, hsets, hdir hg, rfl, rfl, by simpa [ht, hepoch] using hlive, hother⟩
        hleft

/-! ## Failed copies -/

theorem moves_copyAbandoned [DecidableEq W] {w : W} {t : Access} {e j : Nat}
    {shared : Possessors} {f : Frame W C} (h : Nodes o node s) (hwt : Waits o s)
    (hpc : s.pc w = .copyFailed .remote t e shared) (hf : s.frame (node w) = some f)
    (hm : f.mhWaiting = true) :
    Ledger.Moves k (ledger o node s)
      (ledger o node ((s.setFrame (node w) (some { f with holder := none }) j).setPc w
        (.fix t))) := by
  obtain ⟨hh, -, ⟨hn, ⟨hst, -⟩, hv⟩, -⟩ := h.fits hpc rfl hf
  have hd : Ledger.SameDir (ledger o node s) (ledger o node
      ((s.setFrame (node w) (some { f with holder := none }) j).setPc w (.fix t))) :=
    h.sameDir_of_ne hn hn
  refine .abandon (w := w) (q := ⟨node w, e, false, false, ∅, false, false⟩) ?_ ?_ ?_ ?_ ?_
  · constructor
    case had => simp [hpc, Pc.acquisition, Plan.acquisition]
    case sets => exact ledger_sets (p := .fix t) rfl
    case epoch => exact hd.epoch
    case excl => exact hd.excl
    case sub => exact fun n hn => hd.dir ▸ hn
    case dir => exact fun n hn => .inr (hd.dir ▸ hn)
    case first => rfl
    case live =>
      intro n
      by_cases hn : n = node w
      · subst hn
        simp [hf, Frame.copy, hst]
      · simp [hn]
  · intro n
    rw [hd.dir]
  · simp [Frame.left, hst, hv]
  · intro n hn
    simp [show n ≠ node w from hn]
  · -- the PMR that set the flag is still on its way
    obtain ⟨w', hw'⟩ := hwt (node w) f hn hf hm
    cases hp : s.pc w' with
    | invalidate g t' e' pending =>
      rw [hp] at hw'
      exact ⟨w', _, by simp [hp, Pc.acquisition]; rfl, rfl, rfl, by
        simpa [Plan.acquisition, Pc.wants] using hw'⟩
    | _ => simp [hp, Pc.wants] at hw'

theorem moves_copyAbandonedLocal [DecidableEq W] {w : W} {t : Access} {e j : Nat}
    {shared : Possessors} {f : Frame W C} (h : Nodes o node s)
    (hpc : s.pc w = .copyFailed .localPossessionChange t e shared)
    (hf : s.frame (node w) = some f) :
    Ledger.Moves k (ledger o node s)
      (ledger o node ((s.setFrame (node w) (some { f with page := none, holder := none }) j).setPc w
        (.fix t))) := by
  obtain ⟨hh, -, ⟨hn, -, -, hv, -⟩, -, -, hl⟩ := h.fits hpc rfl hf
  obtain ⟨hst, hx, rfl, hno, hany⟩ := hl rfl
  subst hn
  have hfr : ((s.setFrame (node w) (some { f with page := none, holder := none }) j).setPc w
      (.fix t)).frame (node w) = some { f with page := none, holder := none } := by simp
  have hdir₀ : (ledger (node w) node s).dir = insert (node w) (f.named : Set NodeID) := by
    rw [ledger_dir hf, Frame.view_of_worker hh, hpc]
    rfl
  have hdir : (ledger (node w) node ((s.setFrame (node w)
      (some { f with page := none, holder := none }) j).setPc w (.fix t))).dir = f.named := by
    rw [ledger_dir hfr, Frame.view_of_free rfl]
    rfl
  refine .abandonLatest (w := w) (q := ⟨node w, e, false, false, ∅, false, false⟩) ?_ ?_ ?_ ?_
  · constructor
    case had => simp [hpc, Pc.acquisition, Plan.acquisition]
    case sets => exact ledger_sets (p := .fix t) rfl
    case epoch => rw [ledger_epoch hf, ledger_epoch hfr]
    case excl =>
      rw [ledger_dirExcl hf, ledger_dirExcl hfr, Frame.view_of_worker hh, hpc,
        Frame.view_of_free rfl]
      simp [Pc.view, Frame.entry, hx]
    case sub =>
      intro n hn
      rw [hdir] at hn
      exact hdir₀ ▸ Set.mem_insert_of_mem _ hn
    case dir =>
      intro n hn
      rw [hdir₀] at hn
      rw [hdir]
      exact hn
    case first => rfl
    case live =>
      intro n
      by_cases hn : n = node w
      · subst hn
        simp [hf, Frame.copy, hst]
      · simp [hn]
  · exact hv.symm.trans (ledger_epoch hf).symm
  · rw [hdir]
    simp [Frame.isPossessor_shared hx, hno]
  · intro n
    by_cases hn : n = node w
    · subst hn
      simp [hf, Frame.left, hst]
    · simp [hn]

/-! ## Reclaimed pages -/

theorem moves_reclaimPage [DecidableEq W] {w : W} {f : Frame W C} {j : Nat} (h : Nodes o node s)
    (hk : node w ≠ o → k = false) (hpc : s.pc w = .guardX) (hf : s.frame (node w) = some f) :
    Ledger.Moves k (ledger o node s)
      (ledger o node ((s.setFrame (node w) none j).setPc w .idle)) := by
  obtain ⟨hh, -, hhot, hx⟩ := h.fits hpc rfl hf
  have hpro := h.provider_of_worker hf hh
  have hacq : ∀ w', (ledger o node ((s.setFrame (node w) none j).setPc w .idle)).acq w' =
      (ledger o node s).acq w' := by
    intro w'
    by_cases hw : w' = w
    · subst hw
      simp [hpc, Pc.acquisition]
    · simp [hw]
  have hsub : ∀ n c, (ledger o node ((s.setFrame (node w) none j).setPc w .idle)).live n = some c →
      (ledger o node s).live n = some c := by
    intro n c hc
    by_cases hn : n = node w
    · simp [hn] at hc
    · simpa [hn] using hc
  by_cases hn : node w = o
  · subst hn
    have hbusy := h.not_busy_of_holder (w := w) (by simp [hpc, Pc.latched])
      (by simp [hpc, Pc.acquisition])
    refine .vanish ⟨node w, ⟨f.pVersion, true⟩, ?_, (ledger_epoch hf).symm⟩ ?_ hsub hacq ?_ ?_
    · simp [hf, Frame.copy, hhot.1, hhot.2.1, hpro, hx]
    · intro n hm
      rw [ledger_dir hf, Frame.view_of_worker hh, hpc] at hm
      have hm' : f.isPossessor n = true := by simpa [Pc.view, Frame.entry] using hm
      rw [Frame.isPossessor_exclusive hx, (Frame.isPossessor_exclusive hx).mp hhot.2.1] at hm'
      subst hm'
      exact ⟨by simp, hbusy⟩
    · exact (ledger_none (by simp)).2
    · intro n
      by_cases hn : n = node w
      · subst hn
        simp [hf, Frame.left_of_holder hh]
      · simp [hn]
  · have hd : Ledger.SameDir (ledger o node s)
        (ledger o node ((s.setFrame (node w) none j).setPc w .idle)) := h.sameDir_of_ne hn hn
    refine .lose (hk hn) ⟨hacq, hd.epoch, hd.excl, hsub, fun n hm => .inl (hd.dir ▸ hm)⟩
      ⟨node w, ⟨f.pVersion, true⟩, ?_⟩
    simp [hf, Frame.copy, hhot.1, hhot.2.1, hpro, hx]

/-! ## Steps of workers -/

theorem Response.Fits.exclusive {r : Response} {t : Access} {shared : Possessors}
    (h : r.Fits o t) (hp : r.planned = .invalidate shared) : t = .exclusive := by
  unfold Response.planned at hp
  unfold Response.Fits at h
  cases hr : r.result with
  | withPageSharedConflict =>
    rw [hr] at h
    exact h.1
  | _ => simp [hr] at hp

/-- Giving back or taking the latch of a frame in exclusive possession does not show. -/
theorem Nodes.quiet_exclusive [DecidableEq W] {w : W} {p : Pc C} {f : Frame W C} {d : Bool}
    {x : Option (Holder W)} {y : Option C} {j : Nat} (h : Nodes o node s)
    (hf : s.frame (node w) = some f) (hhot : f.Hot (node w)) (hx : f.possession = .exclusive)
    (hacq : p.acquisition (node w) = (s.pc w).acquisition (node w))
    (hview : node w = o → f.view o s.pc = f.entry ∧ (x = none ∨ x = some (.worker w))
      ∧ ∀ f' : Frame W C, p.view o f' = f'.entry) :
    ledger o node ((s.setFrame (node w)
      (some { f with holder := x, dirty := d, page := y }) j).setPc w p) = ledger o node s := by
  refine h.quiet_own hf ?_ ?_ hacq ?_
  · simp [Frame.copy, Frame.isPossessor, hx]
  · rw [Frame.left_of_state (by simp [hhot.1]), Frame.left_of_state (by simp [hhot.1])]
  · intro hn
    obtain ⟨h1, h2, h3⟩ := hview hn
    refine ⟨rfl, ?_⟩
    rw [h1]
    rcases h2 with rfl | rfl
    · rw [Frame.view_of_free rfl]
      exact Frame.entry_eq rfl rfl
    · rw [Frame.view_of_worker rfl, Function.update_self, h3]
      exact Frame.entry_eq rfl rfl

/-- The same for the shared latch. -/
theorem Nodes.quiet_readers [DecidableEq W] {w : W} {p : Pc C} {f : Frame W C} {r : Finset W}
    {j : Nat} (h : Nodes o node s) (hf : s.frame (node w) = some f) (hfree : f.holder = none)
    (hacq : p.acquisition (node w) = (s.pc w).acquisition (node w)) :
    ledger o node ((s.setFrame (node w) (some { f with readers := r }) j).setPc w p) =
      ledger o node s := by
  refine h.quiet_own hf rfl rfl hacq fun _ => ⟨rfl, ?_⟩
  have hb : f.byWorker = false := by simp [Frame.byWorker, hfree]
  rw [Frame.view_of_free hb, Frame.view_of_free (show Frame.byWorker { f with readers := r } = false
    from hb)]
  exact Frame.entry_eq rfl rfl

theorem Nodes.free_of_reader {w : W} {v : Nat} {f : Frame W C} (h : Nodes o node s)
    (hpc : s.pc w = .guardS v) (hf : s.frame (node w) = some f) : f.holder = none := by
  by_contra hne
  have hmem := ((h (node w)).readers f w hf).mpr ⟨rfl, by simp [hpc, Pc.shares]⟩
  simp [(h (node w)).excl f hf hne] at hmem

/-- A frame that is put into the table, and removed again or completed later, is not part of the
ledger yet. -/
theorem Nodes.quiet_insert [DecidableEq W] {w : W} {p : Pc C} {st : BfState} {c : C} {j : Nat}
    (h : Nodes o node s) (hf : s.frame (node w) = none)
    (hacq : p.acquisition (node w) = (s.pc w).acquisition (node w))
    (hview : ∀ f : Frame W C, p.view o f = f.entry) :
    ledger o node ((s.setFrame (node w) (some (.fresh (.worker w) st c)) j).setPc w p) =
      ledger o node s := by
  apply ledger_eq
  · by_cases ho : node w = o
    · subst ho
      constructor <;>
        simp [ledger, hf, Frame.fresh, Frame.view, hview, Frame.entry, Frame.named]
    · exact h.sameDir_of_ne ho ho
  · intro n
    by_cases hn : n = node w
    · subst hn
      simp [hf, Frame.fresh, Frame.copy, Frame.isPossessor]
    · simp [hn]
  · intro w'
    by_cases hw : w' = w
    · subst hw
      simp [hacq]
    · simp [hw]
  · intro n
    by_cases hn : n = node w
    · subst hn
      simp [hf, Frame.fresh, Frame.left]
    · simp [hn]

/-- A frame is removed under an exclusive guard: the page is reclaimed. -/
def Reclaims (node : W → NodeID) (s s' : PageState W C) : Prop :=
  ∃ w, s.pc w = .guardX ∧ s.frame (node w) ≠ none ∧ s'.frame (node w) = none

/-- A node that does not own the page reclaims it. -/
def ReclaimsAway [DecidableEq W] (o : NodeID) (node : W → NodeID) (s s' : PageState W C) : Prop :=
  ∃ w, node w ≠ o ∧ s.pc w = .guardX ∧ s.frame (node w) ≠ none ∧
    s' = (s.setFrame (node w) none 2).setPc w .idle

theorem ReclaimsAway.reclaims [DecidableEq W] (h : ReclaimsAway o node s s') :
    Reclaims node s s' := by
  obtain ⟨w, -, hpc, hf, rfl⟩ := h
  exact ⟨w, hpc, hf, by simp⟩

theorem WorkerStep.moves [DecidableEq W] (hkn : s.known = true) (h : Nodes o node s)
    (hwt : Waits o s) (st : WorkerStep cfg o node s s')
    (hk : k = true → cfg.reclaim = true → ¬ ReclaimsAway o node s s') :
    Ledger.Moves k (ledger o node s) (ledger o node s') := by
  cases st with
  | start _ hpc =>
    exact .of_eq (h.quiet_pc (by simp [hpc, Pc.acquisition]) (by simp [hpc, Pc.latched]))
  | @insert w t c hpc hf =>
    refine .of_eq (h.quiet_insert hf ?_ ?_)
    · by_cases ho : node w = o <;> simp [hpc, ho, Pc.acquisition]
    · by_cases ho : node w = o <;> simp [ho, Pc.view]
  | peek hpc =>
    exact .of_eq (h.quiet_pc (by simp [hpc, Pc.acquisition]) (by simp [hpc, Pc.latched]))
  | retry hpc =>
    exact .of_eq (h.quiet_pc (by simp [hpc, Pc.acquisition]) (by simp [hpc, Pc.latched]))
  | undo hf => exact .of_eq (quiet_frame hf rfl rfl fun _ => ⟨rfl, rfl⟩)
  | @hitExclusive w v f hpc hf hv hl hfun =>
    have hcur := h.current (by simp [hpc, Pc.stamp]) hv hf
    obtain ⟨hhot, hx⟩ := hot_of_initialized ((h (node w)).rest f hf hcur.1) hcur.2.1 hfun
    exact .of_eq (h.quiet_exclusive hf hhot (hx rfl) (by simp [hpc, Pc.acquisition])
      fun _ => ⟨Frame.view_of_free hl.byWorker, .inr rfl, fun _ => rfl⟩)
  | hitShared hpc hf _ hfree =>
    exact .of_eq (h.quiet_readers hf hfree (by simp [hpc, Pc.acquisition]))
  | hitOptimistic hpc =>
    exact .of_eq (h.quiet_pc (by simp [hpc, Pc.acquisition]) (by simp [hpc, Pc.latched]))
  | @changeLocal w t v f plan f' p c hpc hf hv hl hfun hc hp =>
    obtain ⟨hn, hmiss⟩ := Access.functor_local hfun
    rw [hn] at hf hmiss hc hp
    exact moves_changeLocal h hn hf hl hmiss (by simp [hpc, Pc.acquisition]) hc hp
  | @changeRemote w t v f old f' hpc hf hv hl hfun hc =>
    obtain ⟨hn, -⟩ := Access.functor_remote hfun
    obtain ⟨hx, hst, rfl, rfl⟩ := Frame.remoteChange_ok hc
    refine .of_eq (h.quiet_own hf ?_ ?_ (by simp [hpc, Pc.acquisition]) fun ho => absurd ho hn)
    · simp [Frame.copy, Frame.isPossessor, Frame.byWorker, hx, hl.1]
    · simp [Frame.left, hst]
  | @load w t f hpc hf =>
    obtain ⟨hh, -, hn, ⟨hst, hnb, -⟩, -⟩ := h.fits hpc rfl hf
    refine .of_eq (h.quiet_own hf rfl rfl (by simp [hpc, Pc.acquisition]) fun _ => ⟨rfl, ?_⟩)
    rw [Frame.view_of_worker hh, Frame.view_of_worker (f := { f with page := some s.disk }) hh, hpc,
      Function.update_self]
    exact Frame.entry_eq rfl rfl
  | @receive w t r f plan p hpc hf hplan hp =>
    obtain ⟨hh, -, hn, ⟨hst, -⟩, hr⟩ := h.fits hpc rfl hf
    obtain rfl := Response.plan_eq hplan
    have hq := hp.acquisition (by simp) fun shared => hr.exclusive
    refine .of_eq (h.quiet_own hf ?_ ?_ (by rw [hq, hpc]; rfl) fun ho => absurd ho hn)
    · simp [Frame.copy, hst]
    · simp [Frame.left, hh]
  | @completeExclusive w g e f f' hpc hf hc =>
    obtain ⟨hh, -, -⟩ := h.fits hpc rfl hf
    rw [Frame.complete_eq] at hc
    obtain rfl := Except.ok.inj hc
    exact moves_complete h hpc hf ⟨true, rfl⟩ (.inl ⟨rfl, hh, rfl⟩)
  | @completeShared w g e f f' hpc hf hc =>
    rw [Frame.complete_eq] at hc
    obtain rfl := Except.ok.inj hc
    exact moves_complete h hpc hf ⟨f.dirty, rfl⟩ (.inr ⟨rfl, rfl⟩)
  | @completeOptimistic w g e f f' hpc hf hc =>
    rw [Frame.complete_eq] at hc
    obtain rfl := Except.ok.inj hc
    exact moves_complete h hpc hf ⟨f.dirty, rfl⟩ (.inr ⟨rfl, rfl⟩)
  | @completeDiscarded w g e f f' hpc hf hc =>
    rw [Frame.complete_eq] at hc
    obtain rfl := Except.ok.inj hc
    exact moves_complete h hpc hf ⟨f.dirty, rfl⟩ (.inr ⟨rfl, rfl⟩)
  | downgraded hpc hf _ hfree =>
    exact .of_eq (h.quiet_readers hf hfree (by simp [hpc, Pc.acquisition]))
  | @downgradeFailed w v again hpc =>
    cases again <;>
      exact .of_eq (h.quiet_pc (by simp [hpc, Pc.acquisition]) (by simp [hpc, Pc.latched]))
  | @updateFailed w t old f hpc hf =>
    obtain ⟨hh, -, ⟨hn, hhot, hx, hv⟩, -⟩ := h.fits hpc rfl hf
    refine .of_eq (h.quiet_own hf ?_ ?_ (by simp [hpc, Pc.acquisition]) fun ho => absurd ho hn)
    · simp [Frame.copy, Frame.isPossessor, Frame.byWorker, hx, hh, hv]
    · simp [Frame.left, hhot.1]
  | @updateDone w t old e f hpc hf hv =>
    obtain ⟨hh, -, ⟨hn, -⟩, -⟩ := h.fits hpc rfl hf
    exact .of_eq (h.quiet_pc (by simp [hpc, Pc.acquisition, Plan.acquisition])
      fun ho => absurd ho hn)
  | @updateConflict w t old e shared f p hpc hf hv hp =>
    obtain ⟨hh, -, ⟨hn, -⟩, -⟩ := h.fits hpc rfl hf
    have hq := hp.acquisition (by simp) fun _ _ => rfl
    exact .of_eq (h.quiet_pc (by rw [hq, hpc]; rfl) fun ho => absurd ho hn)
  | @copyAgain w t e shared f p hpc hf hmh hp =>
    obtain ⟨hh, -, ⟨hn, -⟩, -⟩ := h.fits hpc rfl hf
    have hq := hp.acquisition (by simp) (by simp)
    exact .of_eq (h.quiet_pc (by rw [hq, hpc]; rfl) fun ho => absurd ho hn)
  | copyAbandoned hpc hf hm => exact moves_copyAbandoned h hwt hpc hf hm
  | copyAbandonedLocal hpc hf => exact moves_copyAbandonedLocal h hpc hf
  | @write w f c hpc hf =>
    obtain ⟨hh, -, hhot, hx⟩ := h.fits hpc rfl hf
    have heq := h.quiet_exclusive (p := .guardX) (d := f.dirty) (x := f.holder) (y := some c)
      (j := 0) hf hhot hx (by simp [hpc])
      fun _ => ⟨by rw [Frame.view_of_worker hh, hpc]; rfl, .inr hh, fun _ => rfl⟩
    have hpc' : Function.update s.pc w (.guardX) = s.pc := by
      rw [← hpc, Function.update_eq_self]
    rw [← heq]
    exact .of_eq (by simp [ledger, hpc'])
  | read c hpc =>
    exact .of_eq (h.quiet_pc (by simp [hpc, Pc.acquisition]) (by simp [hpc, Pc.latched]))
  | @releaseExclusive w f hpc hf =>
    obtain ⟨hh, -, hhot, hx⟩ := h.fits hpc rfl hf
    exact .of_eq (h.quiet_exclusive hf hhot hx (by simp [hpc, Pc.acquisition])
      fun _ => ⟨by rw [Frame.view_of_worker hh, hpc]; rfl, .inl rfl, fun _ => rfl⟩)
  | @releaseShared w v f hpc hf =>
    exact .of_eq (h.quiet_readers hf (h.free_of_reader hpc hf) (by simp [hpc, Pc.acquisition]))
  | releaseOptimistic hpc =>
    exact .of_eq (h.quiet_pc (by simp [hpc, Pc.acquisition]) (by simp [hpc, Pc.latched]))
  | @exclusiveToShared w f hpc hf =>
    obtain ⟨hh, -, hhot, hx⟩ := h.fits hpc rfl hf
    exact .of_eq (h.quiet_exclusive hf hhot hx (by simp [hpc, Pc.acquisition])
      fun _ => ⟨by rw [Frame.view_of_worker hh, hpc]; rfl, .inl rfl, fun _ => rfl⟩)
  | @exclusiveToOptimistic w f hpc hf =>
    obtain ⟨hh, -, hhot, hx⟩ := h.fits hpc rfl hf
    exact .of_eq (h.quiet_exclusive hf hhot hx (by simp [hpc, Pc.acquisition])
      fun _ => ⟨by rw [Frame.view_of_worker hh, hpc]; rfl, .inl rfl, fun _ => rfl⟩)
  | sharedToOptimistic hpc hf =>
    exact .of_eq (h.quiet_readers hf (h.free_of_reader hpc hf) (by simp [hpc, Pc.acquisition]))
  | optimisticToShared hpc hf hfree =>
    exact .of_eq (h.quiet_readers hf hfree (by simp [hpc, Pc.acquisition]))
  | newPage c hkn' => simp [hkn] at hkn'
  | @allocate w c hpc => exact absurd hpc ((h (node w)).allocated w rfl)
  | @reclaimPage w f hr hpc hf =>
    refine moves_reclaimPage h (fun hn => ?_) hpc hf
    cases hkb : k with
    | false => rfl
    | true => exact absurd ⟨w, hn, hpc, by simp [hf], rfl⟩ (hk hkb hr)

end ScaleStore.Protocol
