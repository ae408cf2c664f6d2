/-
# Message handlers and page providers move the ledger

The second half of the simulation: the steps in which the owner changes its
directory for another node, and those in which a node gives its copy up.
-/

import ScaleStore.Protocol.Simulation

namespace ScaleStore.Protocol

variable {W C : Type} {cfg : Config} {o : NodeID} {node : W → NodeID} {s s' : PageState W C}
  {k : Bool}

/-! ## Requests to the owner -/

section Owner

variable {w : W} {f f' : Frame W C} {p : Pc C} {q : Acquisition NodeID}

/-- The copy of the owner, while no worker holds its frame. -/
theorem Nodes.owner_copy (h : Nodes o node s) (hf : s.frame o = some f) (hl : f.Latchable)
    (hhot : f.Hot o) :
    (ledger o node s).live o = some ⟨f.pVersion, f.possession = .exclusive⟩ := by
  have hpro := h.provider_owner
  simp [hf, Frame.copy, hhot.1, hhot.2.1, hpro, hl.byWorker]

theorem Nodes.owner_dir (h : f.Latchable) (hf : s.frame o = some f) :
    (ledger o node s).dir = {n | f.isPossessor n = true} := by
  rw [ledger_dir hf, Frame.view_of_free h.byWorker]
  ext n
  simp [Frame.entry]

/-- The owner opens an epoch for a worker of another node, and gives up its own copy. -/
theorem moves_ownerGrant [DecidableEq W] (h : Nodes o node s) (hf : s.frame o = some f)
    (hl : f.Latchable)
    (hfr : s'.frame o = some f') (hpc : s'.pc = Function.update s.pc w p)
    (hlive : ∀ n, n ≠ o → (ledger o node s').live n = (ledger o node s).live n)
    (hleft : ∀ n, n ≠ o → (ledger o node s').left n = (ledger o node s).left n)
    (hh : f'.holder = none) (hst : f'.state = .evicted) (hv : f'.pVersion = f.pVersion + 1)
    (hentry : f'.entry = ({node w}, q.excl)) (hn : node w ≠ o)
    (hlat : (s.pc w).latched = true) (hidle : (s.pc w).acquisition (node w) = none)
    (hp : p.acquisition (node w) = some q) (hfirst : q.first = true)
    (hepoch : q.epoch = f.pVersion + 1)
    (hkeeps : if q.keeps then q.ready = true ∧ ∃ c, (ledger o node s).live (node w) = some c
      else (ledger o node s).live (node w) = none)
    (htargets : ∀ n, f.isPossessor n = true → n ≠ o →
      n ∈ q.targets ∨ (q.keeps = true ∧ node w = n))
    (hsub : ∀ n ∈ q.targets, f.isPossessor n = true ∧ n ≠ o)
    (hready : q.ready = true → f.Hot o ∨
      ∃ c, (ledger o node s).live (node w) = some c ∧ c.epoch = f.pVersion ∧ c.excl = false) :
    Ledger.Moves k (ledger o node s) (ledger o node s') := by
  have hnode : q.node = node w := Pc.acquisition_node hp
  have hepoch' : (ledger o node s).epoch = f.pVersion := ledger_epoch hf
  have hdir : (ledger o node s).dir = {n | f.isPossessor n = true} := Nodes.owner_dir hl hf
  have hs := h.settled hf hl.1
  have hlive' : (ledger o node s').live o = none := by
    simp [hfr, Frame.copy_of_state (f := f') (by simp [hst])]
  have hview : f'.view o s'.pc = ({node w}, q.excl) := by
    rw [Frame.view_of_free (by simp [Frame.byWorker, hh]), hentry]
  apply Ledger.Moves.grant (w := w) (q := q)
  · constructor
    case sets => exact hp ▸ ledger_sets hpc
    case idle => simpa using hidle
    case epoch => rw [hepoch', ledger_epoch hfr, hv]
    case first => exact hfirst
    case at_epoch => rw [hepoch', hepoch]
    case dir => rw [ledger_dir hfr, hview, hnode]
    case excl => rw [ledger_dirExcl hfr, hview]
    case free => exact hnode ▸ h.not_busy_of_holder hlat hidle
    case live =>
      intro n c hc
      by_cases hno : n = o
      · rw [hno, hlive'] at hc
        cases hc
      · rwa [hlive n hno] at hc
    case keeps =>
      intro c hc
      rw [hnode, hlive _ hn] at hc
      by_contra hne
      rw [if_neg hne, hc] at hkeeps
      cases hkeeps
    case targets =>
      intro n hm
      by_cases hno : n = o
      · subst hno
        exact .inr (.inr ⟨hlive', h.not_busy_of_latchable hf hl⟩)
      · rw [hdir] at hm
        rcases htargets n hm hno with ht | ⟨hk, hw⟩
        · exact .inl ht
        · exact .inr (.inl ⟨hk, hnode.trans hw⟩)
  · intro n
    by_cases hno : n = o
    · subst hno
      simp [hf, hfr, hs.left, Frame.left_of_state (f := f') (by simp [hst])]
    · exact hleft n hno
  · obtain ⟨own, hown, hw⟩ := (h (node w)).holds w rfl hlat
    simp [hnode, hown, Frame.left_of_holder hw]
  · intro n hm
    obtain ⟨h1, h2⟩ := hsub n hm
    exact ⟨hdir ▸ h1, hlive n h2⟩
  · intro n c hc
    by_cases hno : n = o
    · subst hno
      refine .inr ?_
      simp only [ledger_live, hf, Option.bind_some, Frame.copy] at hc
      split at hc
      · obtain rfl := Option.some.inj hc
        simp [hepoch', hl.byWorker]
      · cases hc
    · exact .inl (hlive n hno ▸ hc)
  · intro hr
    rcases hready hr with hhot | ⟨c, hc, he, hx⟩
    · exact ⟨o, _, h.owner_copy hf hl hhot, hepoch'.symm, fun _ => hlive'⟩
    · exact ⟨node w, c, hc, he.trans hepoch'.symm, by simp [hx]⟩
  · intro hk
    rw [hk] at hkeeps
    rw [hnode, hlive _ hn]
    simpa using hkeeps

/-- The owner lets a worker of another node join its epoch. -/
theorem moves_ownerJoin [DecidableEq W] (h : Nodes o node s) (hf : s.frame o = some f)
    (hl : f.Latchable)
    (hfr : s'.frame o = some f') (hpc : s'.pc = Function.update s.pc w p)
    (hlive : ∀ n, n ≠ o → (ledger o node s').live n = (ledger o node s).live n)
    (hleft : ∀ n, n ≠ o → (ledger o node s').left n = (ledger o node s).left n)
    (hpro : s'.provider o = s.provider o)
    (hf' : f' = { f with possessors := f.possessors.set (node w) })
    (hx : f.possession = .shared) (hn : node w ≠ o)
    (hlat : (s.pc w).latched = true) (hidle : (s.pc w).acquisition (node w) = none)
    (hp : p.acquisition (node w) = some q)
    (hq : q = ⟨node w, f.pVersion, false, false, ∅, q.ready, false⟩)
    (hnone : (ledger o node s).live (node w) = none) (hready : q.ready = true → f.Hot o) :
    Ledger.Moves k (ledger o node s) (ledger o node s') := by
  have hs := h.settled hf hl.1
  have hview : f'.view o s'.pc = (insert (node w) (f.named : Set NodeID), false) := by
    subst hf'
    rw [Frame.view_of_free (by simp [Frame.byWorker, hl.1])]
    simp [Frame.entry, Frame.named, hx]
  have hview₀ : f.view o s.pc = ((f.named : Set NodeID), false) := by
    rw [Frame.view_of_free hl.byWorker]
    simp [Frame.entry, hx]
  have hlive' : ∀ n, (ledger o node s').live n = (ledger o node s).live n := by
    intro n
    by_cases hno : n = o
    · subst hno
      have hcopy : f'.copy n (s'.provider n) = f.copy n (s.provider n) := by
        subst hf'
        simp [Frame.copy, Frame.isPossessor, Frame.byWorker, hx, hpro, hn.symm]
      simp [hf, hfr, hcopy]
    · exact hlive n hno
  apply Ledger.Moves.join (w := w) (q := q)
  · constructor
    case sets => exact hp ▸ ledger_sets hpc
    case idle => simpa using hidle
    case epoch => rw [ledger_epoch hf, ledger_epoch hfr, hf']
    case first => rw [hq]
    case at_epoch => rw [ledger_epoch hf, hq]
    case excl => rw [hq]
    case keeps => rw [hq]
    case dir =>
      rw [ledger_dir hf, ledger_dir hfr, hview, hview₀, hq]
    case dirExcl =>
      rw [ledger_dirExcl hf, ledger_dirExcl hfr, hview, hview₀]
      exact ⟨rfl, rfl⟩
    case free =>
      rw [hq]
      exact h.not_busy_of_holder hlat hidle
    case live => exact hlive'
    case no_live =>
      rw [hq]
      exact hnone
    case ready =>
      intro hr
      exact ⟨o, _, h.owner_copy hf hl (hready hr), (ledger_epoch hf).symm⟩
  · intro n
    by_cases hno : n = o
    · subst hno
      have hl' : f'.left = f.left := by
        subst hf'
        rfl
      simp [hf, hfr, hl']
    · exact hleft n hno
  · obtain ⟨own, hown, hw⟩ := (h (node w)).holds w rfl hlat
    rw [hq]
    simp [hown, Frame.left_of_holder hw]

end Owner

/-- The owner turns its exclusive possession into shared possession and hands a copy out. -/
theorem moves_downgrade [DecidableEq W] {w : W} {f f' : Frame W C} {p : Pc C}
    (h : Nodes o node s) (hf : s.frame o = some f)
    (hl : f.Latchable) (hfr : s'.frame o = some f') (hpc : s'.pc = Function.update s.pc w p)
    (hlive : ∀ n, n ≠ o → (ledger o node s').live n = (ledger o node s).live n)
    (hleft : ∀ n, n ≠ o → (ledger o node s').left n = (ledger o node s).left n)
    (hpro : s'.provider o = s.provider o)
    (hf' : f' = { f with
      pVersion := f.pVersion + 1
      possession := .shared
      possessors := (Possessors.set 0#64 o).set (node w) })
    (hhot : f.Hot o) (hx : f.possession = .exclusive) (hn : node w ≠ o)
    (hlat : (s.pc w).latched = true) (hidle : (s.pc w).acquisition (node w) = none)
    (hp : p.acquisition (node w) =
      some ⟨node w, f.pVersion + 1, false, false, ∅, true, false⟩)
    (hnone : (ledger o node s).live (node w) = none) :
    Ledger.Moves k (ledger o node s) (ledger o node s') := by
  have hhad := h.owner_copy hf hl hhot
  have hepoch : (ledger o node s).epoch = f.pVersion := ledger_epoch hf
  have hview : f'.view o s'.pc = ({node w, o}, false) := by
    subst hf'
    rw [Frame.view_of_free (by simp [Frame.byWorker, hl.1])]
    simp [Frame.entry, Frame.named]
  have hlive' : (ledger o node s').live o = some ⟨f.pVersion + 1, false⟩ := by
    have hacked : s'.provider o ≠ .acked := by simp [hpro, h.provider_owner]
    subst hf'
    simp [hfr, Frame.copy, Frame.isPossessor, Frame.byWorker, hl.1, hhot.1, hacked]
  -- first the owner's own copy, then the new one
  let b : Ledger NodeID W :=
    { ledger o node s with
      epoch := f.pVersion + 1
      dir := {o}
      dirExcl := false
      live := (ledger o node s').live }
  have h1 : Ledger.Moves k (ledger o node s) b := by
    refine .bump (n := o) ?_ fun _ => rfl
    constructor
    case acq => exact fun _ => rfl
    case had => rw [hhad, hepoch, hx]; simp
    case epoch => rw [hepoch]
    case dir => rfl
    case excl => rfl
    case live => rw [hepoch]; exact hlive'
    case other => exact hlive
  have h2 : Ledger.Moves k b (ledger o node s') := by
    refine .join (w := w) (q := ⟨node w, f.pVersion + 1, false, false, ∅, true, false⟩) ?_ ?_ ?_
    · constructor
      case sets =>
        have hsets : Ledger.Sets (ledger o node s) (ledger o node s') w (p.acquisition (node w)) :=
          ledger_sets hpc
        exact ⟨hsets.self.trans hp, hsets.other⟩
      case idle => exact hidle
      case epoch => rw [ledger_epoch hfr, hf']
      case first => rfl
      case at_epoch => rfl
      case excl => rfl
      case keeps => rfl
      case dir => rw [ledger_dir hfr, hview]
      case dirExcl => exact ⟨rfl, by rw [ledger_dirExcl hfr, hview]⟩
      case free => exact h.not_busy_of_holder hlat hidle
      case live => exact fun _ => rfl
      case no_live => exact (hlive _ hn).trans hnone
      case ready => exact fun _ => ⟨o, _, hlive', rfl⟩
    · intro n
      by_cases hno : n = o
      · subst hno
        have hl' : f'.left = f.left := by
          subst hf'
          rw [Frame.left_of_state (by simp [hhot.1]), Frame.left_of_state (by simp [hhot.1])]
        change (s'.frame n).bind Frame.left = (s.frame n).bind Frame.left
        simp [hf, hfr, hl']
      · exact hleft n hno
    · obtain ⟨own, hown, hw⟩ := (h (node w)).holds w rfl hlat
      change (s.frame (node w)).bind Frame.left = none
      simp [hown, Frame.left_of_holder hw]
  exact .trans h1 h2 (.inr ⟨o, _, hlive'⟩)

theorem Access.ne_of_desired {t : Access} (h : t.desired = .shared) : t ≠ .exclusive := by
  rintro rfl
  cases h

theorem Access.eq_of_desired {t : Access} (h : t.desired = .exclusive) : t = .exclusive := by
  cases t <;> first | rfl | cases h

/-- PRX and PRS. -/
theorem moves_request [DecidableEq W] {w : W} {t : Access} {f f' own : Frame W C} {r : Response}
    {page : Option C} {j : Nat} (h : Nodes o node s) (hpc : s.pc w = .request t)
    (hf : s.frame o = some f) (hl : f.Latchable)
    (hc : f.handlePossessionRequest t.desired o (node w) = .ok ((r, page), f'))
    (hown : s.frame (node w) = some own) :
    Ledger.Moves k (ledger o node s)
      (ledger o node (((s.setFrame o (some f') j).setFrame (node w)
        (some { own with page := page.or own.page }) 0).setPc w (.response t r))) := by
  obtain ⟨hh, -, hn, ⟨hst, -⟩⟩ := h.fits hpc rfl hown
  have hs := h.settled hf hl.1
  have hlat : (s.pc w).latched = true := by simp [hpc, Pc.latched]
  have hidle : (s.pc w).acquisition (node w) = none := by simp [hpc, Pc.acquisition]
  have hnone : (ledger o node s).live (node w) = none := by
    simp [hown, Frame.copy_of_state (f := own) (by simp [hst])]
  have hfr : (((s.setFrame o (some f') j).setFrame (node w)
      (some { own with page := page.or own.page }) 0).setPc w (.response t r)).frame o =
      some f' := by
    simp [hn.symm]
  have hlive : ∀ n, n ≠ o → (ledger o node (((s.setFrame o (some f') j).setFrame (node w)
      (some { own with page := page.or own.page }) 0).setPc w (.response t r))).live n =
      (ledger o node s).live n := by
    intro n hno
    by_cases hnw : n = node w
    · subst hnw
      simp [hown, Frame.copy, hst]
    · simp [hno, hnw]
  have hleft : ∀ n, n ≠ o → (ledger o node (((s.setFrame o (some f') j).setFrame (node w)
      (some { own with page := page.or own.page }) 0).setPc w (.response t r))).left n =
      (ledger o node s).left n := by
    intro n hno
    by_cases hnw : n = node w
    · subst hnw
      simp [hown, Frame.left, hh]
    · simp [hno, hnw]
  have g := Frame.handlePossessionRequest_grant hc
  generalize hd : t.desired = d at g
  cases g with
  | downgrade hx ho hst' hpage =>
    have ht := Access.ne_of_desired hd
    have hhot := hs.of_hot hst'
    exact moves_downgrade h hf hl hfr rfl hlive hleft rfl rfl hhot hx hn hlat hidle
      (by simp [Pc.acquisition, Response.planned, Plan.acquisition, ht]) hnone
  | displace hx ho hst' =>
    have ht := Access.ne_of_desired hd
    refine moves_ownerGrant h hf hl hfr rfl hlive hleft hl.1 hst' rfl ?_ hn hlat hidle rfl rfl rfl
      ?_ ?_ ?_ (by simp [Response.planned, Plan.acquisition])
    · simp [Frame.entry, Frame.named, Response.planned, Plan.acquisition, ht]
    · simpa [Response.planned, Plan.acquisition] using hnone
    · intro n hpn hno
      rw [Frame.isPossessor_exclusive hx] at hpn
      simp [Response.planned, Plan.acquisition, hpn]
    · intro n hm
      obtain rfl : n = f.possessors.toNode := by
        simpa [Response.planned, Plan.acquisition] using hm
      exact ⟨(Frame.isPossessor_exclusive hx).mpr rfl, ho⟩
  | join hx hm ho hst' =>
    have ht := Access.ne_of_desired hd
    exact moves_ownerJoin h hf hl hfr rfl hlive hleft rfl rfl hx hn hlat hidle rfl rfl hnone
      (by simp [Response.planned, Plan.acquisition])
  | share hx hm hst' hpage =>
    have ht := Access.ne_of_desired hd
    exact moves_ownerJoin h hf hl hfr rfl hlive hleft rfl rfl hx hn hlat hidle rfl
      (by simp [Response.planned, Plan.acquisition, ht]) hnone fun _ => hs.of_hot hst'
  | collect hx hany hst' =>
    have ht := Access.eq_of_desired hd
    refine moves_ownerGrant h hf hl hfr rfl hlive hleft hl.1 hst' rfl ?_ hn hlat hidle rfl rfl rfl
      ?_ ?_ ?_ (by simp [Response.planned, Plan.acquisition])
    · simp [Frame.entry, Frame.named, Response.planned, Plan.acquisition, ht]
    · simpa [Response.planned, Plan.acquisition] using hnone
    · intro n hpn hno
      rw [Frame.isPossessor_shared hx] at hpn
      simp [Response.planned, Plan.acquisition, hpn, hno]
    · intro n hm
      rw [Frame.isPossessor_shared hx]
      simpa [Response.planned, Plan.acquisition, and_comm] using hm
  | revoke hx hany hst' hpage =>
    have ht := Access.eq_of_desired hd
    refine moves_ownerGrant h hf hl hfr rfl hlive hleft hl.1 rfl rfl ?_ hn hlat hidle rfl rfl rfl
      ?_ ?_ ?_ (fun _ => .inl (hs.of_hot hst'))
    · simp [Frame.entry, Frame.named, Response.planned, Plan.acquisition]
    · simpa [Response.planned, Plan.acquisition] using hnone
    · intro n hpn hno
      rw [Frame.isPossessor_shared hx] at hpn
      simp [Response.planned, Plan.acquisition, hpn, hno]
    · intro n hm
      rw [Frame.isPossessor_shared hx]
      simpa [Response.planned, Plan.acquisition, and_comm] using hm
  | give hx hst' hpage =>
    have ht := Access.eq_of_desired hd
    have hq : Pc.acquisition (node w) (.response t ⟨.withPage, 0#64, f.pVersion + 1⟩ : Pc C) =
        some ⟨node w, f.pVersion + 1, true, true, ∅, true, false⟩ := by
      simp [Pc.acquisition, Response.planned, Plan.acquisition, ht]
    refine moves_ownerGrant h hf hl hfr rfl hlive hleft hl.1 rfl rfl ?_ hn hlat hidle hq rfl rfl
      ?_ ?_ (by simp) (fun _ => .inl (hs.of_hot hst'))
    · simp [Frame.entry, Frame.named]
    · simpa using hnone
    · -- nobody but the owner possesses the page
      intro n hpn hno
      rcases hx with ⟨hx, hany⟩ | ⟨hx, ho⟩
      · rw [Frame.isPossessor_shared hx] at hpn
        have hmem : n ∈ (f.possessors.reset o).members := by simp [hpn, hno]
        simp [Possessors.any_eq_false_iff.mp hany] at hmem
      · rw [Frame.isPossessor_exclusive hx, ho] at hpn
        exact absurd hpn.symm hno
  | replace hx ho hm hst' =>
    have ht := Access.eq_of_desired hd
    refine moves_ownerGrant h hf hl hfr rfl hlive hleft hl.1 hst' rfl ?_ hn hlat hidle rfl rfl rfl
      ?_ ?_ ?_ (by simp [Response.planned, Plan.acquisition])
    · simp [Frame.entry, Frame.named, Response.planned, Plan.acquisition, ht, hx]
    · simpa [Response.planned, Plan.acquisition] using hnone
    · intro n hpn hno
      rw [Frame.isPossessor_exclusive hx] at hpn
      simp [Response.planned, Plan.acquisition, hpn]
    · intro n hm'
      obtain rfl : n = f.possessors.toNode := by
        simpa [Response.planned, Plan.acquisition] using hm'
      exact ⟨(Frame.isPossessor_exclusive hx).mpr rfl, ho⟩

/-- PUR, when the versions agree. -/
theorem moves_update [DecidableEq W] {w : W} {t : Access} {old j : Nat} {f f' : Frame W C}
    {r : UpdateResponse} (h : Nodes o node s) (hpc : s.pc w = .update t old)
    (hf : s.frame o = some f) (hl : f.Latchable)
    (hc : f.handleUpdate o (node w) old = .ok (r, f')) :
    Ledger.Moves k (ledger o node s)
      (ledger o node ((s.setFrame o (some f') j).setPc w (.updated t old r))) := by
  have hlat : (s.pc w).latched = true := by simp [hpc, Pc.latched]
  obtain ⟨own, hown, hh⟩ := (h (node w)).holds w rfl hlat
  obtain ⟨-, -, hn, hhot, hx', hv⟩ := h.fits hpc rfl hown
  obtain ⟨he, hx, htest, rfl, hf'⟩ := Frame.handleUpdate_ok hc
  have hany : (f.possessors.reset o).any = true :=
    Possessors.any_iff.mpr ⟨node w, by simp [htest, hn]⟩
  have hpro := h.provider_of_worker hown hh
  have hlive : (ledger o node s).live (node w) = some ⟨f.pVersion, false⟩ := by
    simp [hown, Frame.copy, hhot.1, hhot.2.1, hpro, hx', Frame.byWorker, hh, hv, he]
  simp only [hany, if_true]
  have hfr : ((s.setFrame o (some f') j).setPc w (.updated t old
      (.succeedWithSharedConflict (old + 1) (f.possessors.reset o)))).frame o = some f' := by simp
  refine moves_ownerGrant h hf hl hfr rfl ?_ ?_ (by rw [hf']; exact hl.1) (by rw [hf'])
    (by simp [hf', he]) ?_ hn hlat (by simp [hpc, Pc.acquisition]) rfl rfl
    (by simp [Plan.acquisition, he]) ?_ ?_ ?_
    (fun _ => .inr ⟨_, hlive, rfl, rfl⟩)
  · intro n hno
    simp [hno]
  · intro n hno
    simp [hno]
  · simp [hf', Frame.entry, Frame.named, Plan.acquisition]
  · exact ⟨rfl, _, hlive⟩
  · intro n hpn hno
    rw [Frame.isPossessor_shared hx] at hpn
    by_cases hnw : n = node w
    · exact .inr ⟨rfl, hnw.symm⟩
    · exact .inl (by simp [Plan.acquisition, hpn, hno, hnw])
  · intro n hm
    rw [Frame.isPossessor_shared hx]
    have hm' : (f.possessors.test n = true ∧ n ≠ o) ∧ n ≠ node w := by
      simpa [Plan.acquisition] using hm
    exact hm'.1

/-! ## Pages that move -/

theorem Frame.forget_keeps (f : Frame W C) (g : GuardState) (c : NodeID) :
    (f.forget g c).state = f.state ∧ (f.forget g c).possession = f.possession ∧
      (f.forget g c).pVersion = f.pVersion ∧ (f.forget g c).holder = f.holder := by
  unfold Frame.forget
  split
  · split
    · exact ⟨rfl, rfl, rfl, rfl⟩
    · next hx => exact ⟨rfl, hx.symm ▸ rfl, rfl, rfl⟩
    · next hx => exact ⟨rfl, hx.symm ▸ rfl, rfl, rfl⟩
  · exact ⟨rfl, rfl, rfl, rfl⟩

theorem Frame.forget_of_ne {f : Frame W C} {g : GuardState} {c : NodeID}
    (h : g ≠ .localPossessionChange) : f.forget g c = f := by
  simp [Frame.forget, h]

/-- The frame of `c` has been collected; everything else stays what it was for the ledger. -/
structure Collects (o : NodeID) (node : W → NodeID) (s s' : PageState W C)
    (c : NodeID) : Prop where
  gone : s'.frame c = none
  dir : Ledger.SameDir (ledger o node s) (ledger o node s')
  live : ∀ n, n ≠ c → (ledger o node s').live n = (ledger o node s).live n
  left : ∀ n, n ≠ c → (ledger o node s').left n = (ledger o node s).left n
  free : ¬ (ledger o node s).Busy c

theorem Collects.live_gone {c : NodeID} (h : Collects o node s s' c) :
    (ledger o node s').live c = none := by
  simp [h.gone]

theorem Collects.left_gone {c : NodeID} (h : Collects o node s s' c) :
    (ledger o node s').left c = none := by
  simp [h.gone]

/-- The common part of PMR with and without page. -/
theorem Nodes.collects [DecidableEq W] {w : W} {c : NodeID} {g : GuardState} {t : Access} {e : Nat}
    {f own own' : Frame W C} {rest : Possessors} {p : Pc C} {j : Nat}
    (h : Nodes o node s) (hlat : (s.pc w).latched = true) (hf : s.frame c = some f)
    (hl : f.Latchable) (hown : s.frame (node w) = some own) (hc : c ≠ o)
    (hown' : ∃ page, own' = { own.forget g c with page := page })
    (hent : Enters (node w) g t e (.invalidate rest) p) (hg : Ground o (node w) own e g)
    (hssd : g ≠ .ssd)
    (hev : g = .localPossessionChange → own.possession = .exclusive → own.state = .evicted)
    (hview : g = .localPossessionChange →
      (s.pc w).view o own = ({o}, decide (t = .exclusive)) ∧ (t ≠ .exclusive →
        own.possession = .exclusive) ∧ (rest.any = true → t = .exclusive)) :
    Collects o node s (((s.setFrame c none j).setFrame (node w) (some own') 0).setPc w p) c := by
  have hcw := h.ne_of_latchable hlat hf hl
  have hh := (h (node w)).holder_eq hown rfl hlat
  obtain ⟨hst, hpos, hver, hhold⟩ : own'.state = own.state ∧ own'.possession = own.possession ∧
      own'.pVersion = own.pVersion ∧ own'.holder = own.holder := by
    obtain ⟨page, rfl⟩ := hown'
    exact own.forget_keeps g c
  have hcopy : own'.copy (node w) (s.provider (node w)) =
      own.copy (node w) (s.provider (node w)) := by
    by_cases hloc : g = .localPossessionChange
    · subst hloc
      obtain ⟨hn, hne, -, -, hdim⟩ := hg
      rw [hn, hdim.copy]
      rcases hx : own.possession with _ | _ | _
      · exact absurd hx hne
      · exact Frame.copy_of_state (by simp [hst, hev rfl hx])
      · rcases hdim with hd | ⟨-, hd⟩
        · exact Frame.copy_of_state (by simp [hst, hd])
        · rw [Frame.isPossessor_shared hx] at hd
          obtain ⟨page, rfl⟩ := hown'
          exact Frame.copy_of_not (by simp [Frame.forget, Frame.isPossessor, hx, hd])
    · obtain ⟨page, rfl⟩ := hown'
      rw [Frame.forget_of_ne hloc]
      rfl
  constructor
  case gone => simp [hcw]
  case dir =>
    by_cases hn : node w = o
    · subst hn
      have hfr : (((s.setFrame c none j).setFrame (node w) (some own') 0).setPc w p).frame
          (node w) = some own' := by simp
      have hloc : g = .localPossessionChange := by
        cases g with
        | initialized => exact hg.elim
        | ssd => exact absurd rfl hssd
        | localPossessionChange => rfl
        | remote => exact absurd rfl hg.1
        | remotePossessionChange => exact absurd rfl hg.1
      obtain ⟨hv, hx, ht⟩ := hview hloc
      have hnew : p.view (node w) own' = ({node w}, decide (t = .exclusive)) := by
        subst hloc
        cases hent with
        | invalidate hany => simp [Pc.view, ht hany]
        | none =>
          by_cases hte : t = .exclusive
          · simp [Pc.view, hte]
          · simp [Pc.view, hte, hpos, hx hte]
      have hsame : own'.view (node w) (Function.update s.pc w p) = own.view (node w) s.pc := by
        rw [Frame.view_of_worker hh, hv, Frame.view_of_worker (hhold.trans hh),
          Function.update_self, hnew]
      constructor
      · rw [ledger_epoch hown, ledger_epoch hfr, hver]
      · rw [ledger_dir hown, ledger_dir hfr]
        exact congrArg Prod.fst hsame
      · rw [ledger_dirExcl hown, ledger_dirExcl hfr]
        exact congrArg Prod.snd hsame
    · apply h.sameDir
      · simp [Ne.symm hn, hc.symm]
      · intro f₀ w₀ _ _ hw₀
        have hne : w₀ ≠ w := by
          rintro rfl
          exact hn hw₀
        simp [hne]
  case live =>
    intro n hnc
    by_cases hn : n = node w
    · subst hn
      simp [hown, hcopy]
    · simp [hn, hnc]
  case left =>
    intro n hnc
    by_cases hn : n = node w
    · subst hn
      simp [hown, Frame.left, hhold, hh]
    · simp [hn, hnc]
  case free => exact h.not_busy_of_latchable hf hl

/-- A collected frame is taken from the targets of the worker's acquisition. -/
theorem Collects.moves [DecidableEq W] {w : W} {c : NodeID} {p : Pc C} {q : Acquisition NodeID}
    (h : Collects o node s s' c) (hpc : s'.pc = Function.update s.pc w p)
    (hq : (s.pc w).acquisition (node w) = some q) (hfirst : q.first = true) (hc : c ∈ q.targets)
    (hp : p.acquisition (node w) = some { q with targets := q.targets \ {c}, ready := true })
    (hsource : q.ready = true ∨ (∃ d, (ledger o node s).live c = some d) ∨
      ∃ e, (ledger o node s).left c = some e) :
    Ledger.Moves k (ledger o node s) (ledger o node s') := by
  refine .take (w := w) (q := q) (c := c) (r := true) ?_ hc h.left_gone h.left (fun _ => rfl)
    fun _ => hsource
  exact ⟨hq, hp ▸ ledger_sets hpc, h.dir, hfirst, h.free, h.live_gone, h.live⟩

/-- The last page a shared acquisition waits for has moved. -/
theorem Collects.moves_settle [DecidableEq W] {w : W} {c : NodeID} {p : Pc C}
    {q : Acquisition NodeID} (h : Collects o node s s' c) (hpc : s'.pc = Function.update s.pc w p)
    (hq : (s.pc w).acquisition (node w) = some q) (hfirst : q.first = true)
    (hx : q.excl = false) (hkeeps : q.keeps = false) (hc : q.targets = {c})
    (hp : p.acquisition (node w) =
      some { q with first := false, targets := q.targets \ {c}, ready := true })
    (hsource : (∃ d, (ledger o node s).live c = some d) ∨ ∃ e, (ledger o node s).left c = some e) :
    Ledger.Moves k (ledger o node s) (ledger o node s') := by
  have hsets : Ledger.Sets (ledger o node s) (ledger o node s') w (p.acquisition (node w)) :=
    ledger_sets hpc
  have hempty : q.targets \ {c} = ∅ := by simp [hc]
  let b : Ledger NodeID W :=
    { ledger o node s' with
      acq := Function.update (ledger o node s').acq w
        (some { q with targets := q.targets \ {c}, ready := true }) }
  have h1 : Ledger.Moves k (ledger o node s) b := by
    refine .take (w := w) (q := q) (c := c) (r := true) ?_ (by simp [hc]) h.left_gone h.left
      (fun _ => rfl) fun _ => .inr hsource
    constructor
    case had => exact hq
    case sets =>
      constructor
      · simp [b]
      · intro w' hw
        rw [← hsets.other w' hw]
        simp [b, hw]
    case dir => exact ⟨h.dir.epoch, h.dir.dir, h.dir.excl⟩
    case first => exact hfirst
    case free => exact h.free
    case live => exact h.live_gone
    case other => exact h.live
  have h2 : Ledger.Moves k b (ledger o node s') := by
    refine .settle (w := w) (q := { q with targets := q.targets \ {c}, ready := true }) ?_
      (fun _ => rfl) rfl
    constructor
    case had => simp [b]
    case sets =>
      constructor
      · exact hsets.self.trans hp
      · intro w' hw
        simp [b, hw]
    case dir => exact ⟨rfl, rfl, rfl⟩
    case first => exact hfirst
    case excl => exact hx
    case keeps => exact hkeeps
    case targets => exact hempty
    case live => exact fun _ => rfl
  exact .trans h1 h2 (.inl ⟨w, _, Function.update_self ..⟩)

/-- A frame of another node that nobody has latched is a copy, or was left behind. -/
theorem Nodes.source {c : NodeID} {f : Frame W C} (h : Nodes o node s) (hc : c ≠ o)
    (hf : s.frame c = some f) (hl : f.Latchable) :
    (∃ d, (ledger o node s).live c = some d) ∨ ∃ e, (ledger o node s).left c = some e := by
  rcases (h c).rest f hf hl.1 with ⟨hco, -⟩ | ⟨-, hhot | ⟨hleft, -⟩⟩
  · exact absurd hco hc
  · have hpro : s.provider c ≠ .acked := by
      intro hp
      obtain ⟨g, hg, hh⟩ := (h c).provides (by simp [hp])
      rw [hf] at hg
      obtain rfl := Option.some.inj hg
      simp [hl.1] at hh
    have hlive : (ledger o node s).live c ≠ none := by
      simp [hf, Frame.copy, hhot.1, hhot.2.1, hpro]
    exact .inl (Option.ne_none_iff_exists'.mp hlive)
  · exact .inr ⟨f.pVersion, by simp [hf, Frame.left, hleft.1, hl.1]⟩

theorem moves_move [DecidableEq W] {w : W} {g : GuardState} {t : Access} {e j : Nat} {c : NodeID}
    {rest : Possessors} {f own : Frame W C} {x : C} {p : Pc C} (h : Nodes o node s)
    (hpc : s.pc w = .move g t e c rest) (hf : s.frame c = some f) (hl : f.Latchable)
    (hown : s.frame (node w) = some own) (hent : Enters (node w) g t e (.invalidate rest) p) :
    Ledger.Moves k (ledger o node s)
      (ledger o node (((s.setFrame c none j).setFrame (node w)
        (some { own.forget g c with page := some x }) 0).setPc w p)) := by
  obtain ⟨hh, -, hg, hway, hc, ho, hcr, ht, hloc⟩ := h.fits hpc rfl hown
  have hssd : g ≠ .ssd := by rcases hway with rfl | rfl <;> simp
  have hrpc : g ≠ .remotePossessionChange := by rcases hway with rfl | rfl <;> simp
  have htx : rest.any = true → t = .exclusive := by
    intro hany
    by_contra hne
    simp [ht hne] at hany
  have hcol := h.collects (j := j) (by simp [hpc, Pc.latched]) hf hl hown hc ⟨some x, rfl⟩ hent hg
    hssd (fun hg' _ => (hloc hg').1) fun hg' =>
      ⟨by rw [hpc, hg']; rfl, (hloc hg').2.2, htx⟩
  have hq : (s.pc w).acquisition (node w) = some ⟨node w, e, true, decide (t = .exclusive),
      insert c (rest.members : Set NodeID), false, false⟩ := by
    rw [hpc]
    rfl
  have hdiff : insert c (rest.members : Set NodeID) \ {c} = rest.members := by
    ext n
    simp only [Set.mem_sdiff, Set.mem_insert_iff, Finset.mem_coe, Possessors.mem_members,
      Set.mem_singleton_iff]
    constructor
    · rintro ⟨rfl | hn, hne⟩
      · exact absurd rfl hne
      · exact hn
    · intro hn
      refine ⟨.inr hn, ?_⟩
      rintro rfl
      simp [hcr] at hn
  have hsource := h.source hc hf hl
  by_cases hx : t = .exclusive
  · refine hcol.moves rfl hq rfl (by simp) ?_ (.inr hsource)
    rw [hent.acquisition hssd fun _ _ => hx, hdiff]
    simp [Plan.acquisition, hx, hrpc]
  · have hnone := Possessors.any_eq_false_iff.mp (ht hx)
    refine hcol.moves_settle rfl hq rfl (by simp [hx]) rfl (by simp [hnone]) ?_ hsource
    rw [hdiff]
    cases hent with
    | invalidate hany => simp [ht hx] at hany
    | none => simp [Pc.acquisition, Plan.acquisition, hssd, hx, hnone]

theorem moves_invalidate [DecidableEq W] {w : W} {g : GuardState} {t : Access} {e j : Nat}
    {c : NodeID} {pending : Possessors} {f own : Frame W C} {p : Pc C} (h : Nodes o node s)
    (hpc : s.pc w = .invalidate g t e pending) (hc : pending.test c = true)
    (hf : s.frame c = some f) (hl : f.Latchable) (hown : s.frame (node w) = some own)
    (hent : Enters (node w) g t e (.invalidate (pending.reset c)) p) :
    Ledger.Moves k (ledger o node s)
      (ledger o node (((s.setFrame c none j).setFrame (node w)
        (some (own.forget g c)) 0).setPc w p)) := by
  obtain ⟨hh, -, hg, hssd, rfl, ho, -, hsh⟩ := h.fits hpc rfl hown
  have hco : c ≠ o := by
    rintro rfl
    simp [ho] at hc
  have hcol := h.collects (j := j) (by simp [hpc, Pc.latched]) hf hl hown hco
    ⟨(own.forget g c).page, rfl⟩ hent hg hssd (fun hg' hx => by simp [hsh hg'] at hx)
    fun hg' => ⟨by rw [hpc, hg']; rfl, by simp, by simp⟩
  have hq : (s.pc w).acquisition (node w) =
      some ((Plan.invalidate pending).acquisition (node w) g .exclusive e) := by
    rw [hpc]
    rfl
  refine hcol.moves rfl hq rfl (by simpa [Plan.acquisition] using hc) ?_ (.inl rfl)
  rw [hent.acquisition hssd fun _ _ => rfl]
  simp [Plan.acquisition]

/-! ## Copies -/

theorem moves_copy [DecidableEq W] {w : W} {g : GuardState} {t : Access} {e j : Nat} {c : NodeID}
    {shared : Possessors} {f own : Frame W C} {x : C} (h : Nodes o node s)
    (hpc : s.pc w = .copy g t e shared c) (hf : s.frame c = some f) (hfree : f.holder = none)
    (hx : f.handleCopy e = .ok (some x)) (hown : s.frame (node w) = some own) :
    Ledger.Moves k (ledger o node s)
      (ledger o node ((s.setFrame (node w) (some { own with page := some x }) j).setPc w
        (.complete g t e))) := by
  obtain ⟨hh, -, hg, hway, ht, hloc⟩ := h.fits hpc rfl hown
  obtain ⟨hsh, hv, hpage, -⟩ := Frame.handleCopy_ok hx
  have hssd : g ≠ .ssd := by rcases hway with rfl | rfl <;> simp
  have hb : f.byWorker = false := by simp [Frame.byWorker, hfree]
  -- the page comes from a copy in use
  have hhot : f.Hot c := by
    rcases (h c).rest f hf hfree with ⟨rfl, hs⟩ | ⟨-, hs | ⟨hs, -⟩⟩
    · rcases hs.hot with hs | ⟨-, -, hs⟩
      · exact hs
      · simp [hpage] at hs
    · exact hs
    · simp [hs.2.1] at hsh
  have hpro : s.provider c ≠ .acked := by
    intro hp
    obtain ⟨f', hf', hh'⟩ := (h c).provides (by simp [hp])
    rw [hf] at hf'
    obtain rfl := Option.some.inj hf'
    simp [hfree] at hh'
  refine .copyIn (w := w) (q := ⟨node w, e, false, false, ∅, false, false⟩) ?_ ?_
  · constructor
    case had => simp [hpc, Pc.acquisition, Plan.acquisition]
    case sets =>
      have hsets : Ledger.Sets (ledger o node s) (ledger o node
          ((s.setFrame (node w) (some { own with page := some x }) j).setPc w (.complete g t e)))
          w ((.complete g t e : Pc C).acquisition (node w)) := ledger_sets rfl
      simpa [Pc.acquisition, hssd, Plan.acquisition, ht] using hsets
    case dir =>
      by_cases hn : node w = o
      · subst hn
        have hfr : ((s.setFrame (node w) (some { own with page := some x }) j).setPc w
            (.complete g t e)).frame (node w) = some { own with page := some x } := by simp
        have hg' : g = .localPossessionChange := by
          rcases hway with rfl | rfl
          · exact absurd rfl hg.1
          · rfl
        have hsame : Frame.view { own with page := some x } (node w)
            (Function.update s.pc w (.complete g t e)) = own.view (node w) s.pc := by
          obtain ⟨-, hsh', -⟩ := hloc hg'
          rw [Frame.view_of_worker hh,
            Frame.view_of_worker (f := { own with page := some x }) hh, hpc, Function.update_self,
            hg']
          simp [Pc.view, ht, hsh', Frame.named]
        constructor
        · rw [ledger_epoch hown, ledger_epoch hfr]
        · rw [ledger_dir hown, ledger_dir hfr]
          exact congrArg Prod.fst hsame
        · rw [ledger_dirExcl hown, ledger_dirExcl hfr]
          exact congrArg Prod.snd hsame
      · exact h.sameDir_of_ne hn hn
    case first => rfl
    case live =>
      intro n
      by_cases hn : n = node w
      · subst hn
        simp only [ledger_live, PageState.setPc_frame, PageState.setFrame_frame, hown,
          Function.update_self, Option.bind_some]
        rfl
      · simp [hn]
    case source =>
      refine ⟨c, ⟨f.pVersion, false⟩, ?_, hv⟩
      simp [hf, Frame.copy, hhot.1, hhot.2.1, hpro, hb, hsh]
  · intro n
    by_cases hn : n = node w
    · subst hn
      simp [hown, Frame.left]
    · simp [hn]

theorem HandlerStep.moves [DecidableEq W] (hkn : s.known = true) (h : Nodes o node s)
    (st : HandlerStep o node s s') : Ledger.Moves k (ledger o node s) (ledger o node s') := by
  cases st with
  | @requestLoad w t hpc hf =>
    obtain ⟨he, hd⟩ : (ledger o node s).epoch = 0 ∧ (ledger o node s).dir = ∅ := ledger_none hf
    have hfr : (s.setFrame o (some (ssdFrame o s.disk)) 2).frame o = some (ssdFrame o s.disk) := by
      simp
    have hpro := h.provider_owner
    refine .appear (n := o) he hd (fun _ => rfl) ?_ ?_ ?_ ?_
    · rw [ledger_epoch hfr, ledger_dirExcl hfr, Frame.view_of_free rfl]
      simp [ssdFrame, Frame.copy, Frame.isPossessor, Frame.byWorker, Frame.entry, hpro]
    · intro m hm
      simp [hm]
    · rw [ledger_dir hfr, Frame.view_of_free rfl]
      simp [ssdFrame, Frame.entry, Frame.named]
    · intro m
      by_cases hm : m = o
      · subst hm
        simp [hf, ssdFrame, Frame.left]
      · simp [hm]
  | @loaded f hf hh =>
    obtain ⟨-, hhot, -⟩ := (h o).system f hf (.inl hh)
    refine .of_eq (quiet_frame hf ?_ ?_ fun _ => ⟨rfl, ?_⟩)
    · simp [Frame.copy, Frame.isPossessor, Frame.byWorker, hh]
    · simp [Frame.left, hhot.1]
    · rw [Frame.view_of_free rfl, Frame.view_of_free (by simp [Frame.byWorker, hh])]
      exact Frame.entry_eq rfl rfl
  | request hpc hf hl hc hown => exact moves_request h hpc hf hl hc hown
  | move hpc hf hl _ hown hent => exact moves_move h hpc hf hl hown hent
  | invalidate hpc hc hf hl _ hown hent => exact moves_invalidate h hpc hc hf hl hown hent
  | invalidateRetry _ _ hf => exact .of_eq (quiet_frame hf rfl rfl fun _ => ⟨rfl, rfl⟩)
  | copy hpc hf hfree hx hown => exact moves_copy h hpc hf hfree hx hown
  | @copyFailed w g t e shared c hpc =>
    refine .of_eq (h.quiet_pc (by rw [hpc]; rfl) fun _ _ f _ => ?_)
    rw [hpc]
    cases g <;> rfl
  | update hpc hf hl hc => exact moves_update h hpc hf hl hc
  | @updateFailed w t old f j hpc hf _ _ =>
    have hlat : (s.pc w).latched = true := by simp [hpc, Pc.latched]
    obtain ⟨own, hown, -⟩ := (h (node w)).holds w rfl hlat
    obtain ⟨-, -, hn, -⟩ := h.fits hpc rfl hown
    have heq : ledger o node (s.setFrame o (some { f with mhWaiting := false }) j) =
        ledger o node s := quiet_frame hf rfl rfl fun _ => ⟨rfl, rfl⟩
    rw [← heq]
    apply Ledger.Moves.of_eq
    apply ledger_eq
    · have hview : f.view o (Function.update s.pc w (.updated t old .failed)) = f.view o s.pc := by
        apply h.view_congr hf
        intro w' _ hw'
        have hne : w' ≠ w := by
          rintro rfl
          exact hn hw'
        exact Function.update_of_ne hne _ _
      have hview' : Frame.view { f with mhWaiting := false } o
          (Function.update s.pc w (.updated t old .failed)) =
          Frame.view { f with mhWaiting := false } o s.pc := hview
      constructor <;> simp [ledger, hview']
    · exact fun _ => rfl
    · intro w'
      by_cases hw : w' = w
      · subst hw
        simp [hpc, Pc.acquisition]
      · simp [hw]
    · exact fun _ => rfl
  | updateRetry _ hf => exact .of_eq (quiet_frame hf rfl rfl fun _ => ⟨rfl, rfl⟩)
  | allocation hkn' => simp [hkn] at hkn'

/-! ## Page providers -/

/-- A frame in flight is removed although the owner has refused to let it go. -/
def StaleRemoval (s s' : PageState W C) : Prop :=
  ∃ n, s.provider n = .refused ∧ s.frame n ≠ none ∧ s'.frame n = none

/-- A frame of another node than the owner changes hands with its page provider, unseen. -/
theorem quiet_provide {n : NodeID} {fr : Option (Frame W C)} {p : Provider} {j : Nat} (hn : n ≠ o)
    (hlive : (fr.bind fun f => f.copy n p) = (s.frame n).bind fun f => f.copy n (s.provider n))
    (hleft : fr.bind Frame.left = (s.frame n).bind Frame.left) :
    ledger o node ((s.setFrame n fr j).setProvider n p) = ledger o node s := by
  apply ledger_eq
  · constructor <;> simp [ledger, hn.symm]
  · intro m
    by_cases hm : m = n
    · subst hm
      simpa using hlive
    · simp [hm]
  · exact fun _ => rfl
  · intro m
    by_cases hm : m = n
    · subst hm
      simpa using hleft
    · simp [hm]

/-- A frame in flight is a copy in use until the owner has acknowledged it. -/
theorem Nodes.offered_copy {n : NodeID} {v : Nat} (h : Nodes o node s)
    (hp : s.provider n = .offered v) :
    ∃ c, (ledger o node s).live n = some c ∧ c.epoch = v := by
  obtain ⟨f, hf, hh⟩ := (h n).provides (by simp [hp])
  obtain ⟨-, hhot, -, hv⟩ := (h n).provided f hf hh
  have hb : f.byWorker = false := by simp [Frame.byWorker, hh]
  refine ⟨⟨f.pVersion, decide (f.possession = .exclusive)⟩, ?_, hv v hp⟩
  simp [hf, Frame.copy, hhot.1, hhot.2.1, hp, hb]

theorem Nodes.provider_not_busy {n : NodeID} (h : Nodes o node s) (hp : s.provider n ≠ .idle) :
    ¬ (ledger o node s).Busy n := by
  obtain ⟨f, hf, hh⟩ := (h n).provides hp
  apply h.not_busy
  intro f' hf'
  rw [hf] at hf'
  obtain rfl := Option.some.inj hf'
  simp [Frame.byWorker, hh]

/-- What the owner's page provider knows when it accepts the offer of `n`. -/
structure Offer (o : NodeID) (node : W → NodeID) (s : PageState W C) (f : Frame W C)
    (n : NodeID) : Prop where
  frame : s.frame o = some f
  latchable : f.Latchable
  ne : n ≠ o
  copy : ∃ c, (ledger o node s).live n = some c ∧ c.epoch = (ledger o node s).epoch
  named : f.isPossessor n = true
  free : ¬ (ledger o node s).Busy n

theorem Nodes.offer {n : NodeID} {l : Nat} {f : Frame W C} (h : Nodes o node s)
    (hok : Ledger.Ok (ledger o node s) l) (hp : s.provider n = .offered f.pVersion)
    (hf : s.frame o = some f) (hl : f.Latchable) : Offer o node s f n := by
  obtain ⟨c, hc, hce⟩ := h.offered_copy hp
  have hepoch : (ledger o node s).epoch = f.pVersion := ledger_epoch hf
  have hlat : l = (ledger o node s).epoch := by rw [← hok.live_epoch n c hc, hce, hepoch]
  have hmem := (hok.live_dir n c hc hlat).1
  rw [Nodes.owner_dir hl hf] at hmem
  refine ⟨hf, hl, ?_, ⟨c, hc, hce.trans hepoch.symm⟩, hmem, h.provider_not_busy (by simp [hp])⟩
  rintro rfl
  simp [h.provider_owner] at hp

section Accepted

variable {n : NodeID} {f f' : Frame W C} {j : Nat}

theorem Offer.gone (h : Offer o node s f n) {fr : Option (Frame W C)} :
    (ledger o node ((s.setFrame o fr j).setProvider n .acked)).live n = none := by
  rcases hn : s.frame n with _ | g <;> simp [h.ne, hn, Frame.copy]

theorem live_of_accepted {fr : Option (Frame W C)} {m : NodeID} (hm : m ≠ n)
    (hmo : m ≠ o) : (ledger o node ((s.setFrame o fr j).setProvider n .acked)).live m =
      (ledger o node s).live m := by
  simp [hm, hmo]

theorem Offer.left (h : Offer o node s f n) (hs : f.Settled o) {fr : Option (Frame W C)}
    (hfr : fr.bind Frame.left = none) (m : NodeID) :
    (ledger o node ((s.setFrame o fr j).setProvider n .acked)).left m =
      (ledger o node s).left m := by
  by_cases hm : m = o
  · subst hm
    simpa [h.frame, hs.left] using hfr
  · simp [hm]

/-- The copy of `n` goes over to the owner. -/
theorem Offer.moves_retrieve (h : Offer o node s f n) (hn : Nodes o node s)
    (hv : f'.pVersion = f.pVersion) (hb : f'.byWorker = false)
    (hcopy : f'.copy o .idle = some ⟨f.pVersion, decide (f.possession = .exclusive)⟩)
    (hleft : f'.left = none) (hx : f'.possession = f.possession)
    (hnamed : ∀ m, f'.isPossessor m = true ↔ m = o ∨ (f.isPossessor m = true ∧ m ≠ n)) :
    Ledger.Moves k (ledger o node s)
      (ledger o node ((s.setFrame o (some f') j).setProvider n .acked)) := by
  have hf := h.frame
  have hfr : ((s.setFrame o (some f') j).setProvider n .acked).frame o = some f' := by simp
  have hfree := hn.not_busy_of_latchable hf h.latchable
  have hpo := hn.provider_owner
  refine .handOver (n := n) (m := o) ?_ (h.left (hn.settled hf h.latchable.1) (by simp [hleft]))
  constructor
  case acq => exact fun _ => rfl
  case had => exact h.copy
  case ne => exact h.ne
  case free => exact ⟨h.free, hfree⟩
  case epoch => rw [ledger_epoch hfr, ledger_epoch hf, hv]
  case excl =>
    rw [ledger_dirExcl hfr, ledger_dirExcl hf, Frame.view_of_free hb,
      Frame.view_of_free h.latchable.byWorker]
    simp [Frame.entry, hx]
  case gone => exact h.gone
  case live =>
    rw [ledger_epoch hf, ledger_dirExcl hf, Frame.view_of_free h.latchable.byWorker]
    simpa [h.ne.symm, hpo, Frame.entry] using hcopy
  case other => exact fun m hm hmo => live_of_accepted hm hmo
  case dir =>
    rw [ledger_dir hfr, Frame.view_of_free hb, Nodes.owner_dir h.latchable hf]
    ext m
    simp [Frame.entry, hnamed]

/-- The copy of `n` is dropped. -/
theorem Offer.moves_keep (h : Offer o node s f n) (hn : Nodes o node s)
    (hx : f.possession = .shared) :
    Ledger.Moves k (ledger o node s) (ledger o node ((s.setFrame o
      (some { f with possessors := f.possessors.reset n }) j).setProvider n .acked)) := by
  have hf := h.frame
  have hfr : ((s.setFrame o (some { f with possessors := f.possessors.reset n }) j).setProvider n
      .acked).frame o = some { f with possessors := f.possessors.reset n } := by simp
  have hl : Frame.Latchable { f with possessors := f.possessors.reset n } := h.latchable
  have hlive : ∀ m, m ≠ n → (ledger o node ((s.setFrame o
      (some { f with possessors := f.possessors.reset n }) j).setProvider n .acked)).live m =
      (ledger o node s).live m := by
    intro m hm
    by_cases hmo : m = o
    · subst hmo
      simp [hf, Frame.copy, Frame.isPossessor, Frame.byWorker, hx, hm]
    · exact live_of_accepted hm hmo
  refine .drop (n := n) ?_ h.copy ?_ hlive (h.left (hn.settled hf h.latchable.1) ?_)
  · constructor
    case acq => exact fun _ => rfl
    case epoch => rw [ledger_epoch hfr, ledger_epoch hf]
    case excl =>
      rw [ledger_dirExcl hfr, ledger_dirExcl hf, Frame.view_of_free hl.byWorker,
        Frame.view_of_free h.latchable.byWorker]
      rfl
    case live =>
      intro m d hd
      by_cases hm : m = n
      · rw [hm, h.gone] at hd
        cases hd
      · exact hlive m hm ▸ hd
    case dir =>
      intro m hm
      by_cases hmn : m = n
      · subst hmn
        exact .inr ⟨h.gone, h.free⟩
      · rw [Nodes.owner_dir h.latchable hf] at hm
        rw [Nodes.owner_dir hl hfr]
        exact .inl (by simpa [Frame.isPossessor, hx, hmn] using hm)
  · intro m hm
    rw [Nodes.owner_dir hl hfr] at hm
    rw [Nodes.owner_dir h.latchable hf]
    simpa [Frame.isPossessor, hx] using hm
  · exact (hn.settled hf h.latchable.1).left

end Accepted

theorem moves_accept {n : NodeID} {l : Nat} {f : Frame W C} {x : C} {ev : Eviction W C}
    {ssd : Bool} (h : Nodes o node s) (hok : Ledger.Ok (ledger o node s) l)
    (hp : s.provider n = .offered f.pVersion) (hf : s.frame o = some f) (hl : f.Latchable)
    (ha : Answer ssd o n x f ev) :
    Ledger.Moves k (ledger o node s)
      (ledger o node ((s.setFrame o ev.frame ev.bump).setProvider n .acked)) := by
  have hoff := h.offer hok hp hf hl
  cases ha with
  | retrieveExclusive hx _ =>
    have hto := (Frame.isPossessor_exclusive hx).mp hoff.named
    apply hoff.moves_retrieve h
    · rfl
    · rfl
    · simp [Frame.copy, Frame.isPossessor, Frame.byWorker, hx]
    · simp [Frame.left]
    · rfl
    · intro m
      simp only [Frame.isPossessor, hx, Possessors.toNode_ofNode, hto, beq_iff_eq]
      constructor
      · exact fun hm => .inl hm.symm
      · rintro (rfl | ⟨hm, hne⟩)
        · rfl
        · exact absurd hm.symm hne
  | retrieveShared hx _ =>
    apply hoff.moves_retrieve h
    · rfl
    · rfl
    · simp [Frame.copy, Frame.isPossessor, Frame.byWorker, hx]
    · simp [Frame.left]
    · rfl
    · intro m
      simp [Frame.isPossessor, hx, or_comm]
  | keep hx _ _ => exact hoff.moves_keep h hx
  | remove hssd _ hx hany hst =>
    refine .vanish ⟨n, hoff.copy⟩ ?_ ?_ (fun _ => rfl) ?_ (hoff.left (h.settled hf hl.1) rfl)
    · intro m hm
      obtain rfl : m = n := by
        by_contra hmn
        rw [Nodes.owner_dir hl hf] at hm
        have hm' : m ∈ (f.possessors.reset n).members := by
          simpa [Frame.isPossessor, hx, hmn] using hm
        simp [Possessors.any_eq_false_iff.mp hany] at hm'
      exact ⟨hoff.gone, hoff.free⟩
    · intro m d hd
      by_cases hm : m = n
      · rw [hm, hoff.gone] at hd
        cases hd
      · by_cases hmo : m = o
        · subst hmo
          simp [Eviction.frame] at hd
        · rwa [live_of_accepted hm hmo] at hd
    · exact (ledger_none (by simp [Eviction.frame])).2

/-- The owner drops its own copy while others share the page. -/
theorem moves_dropOwner {f f' : Frame W C} {j : Nat} (h : Nodes o node s)
    (hf : s.frame o = some f) (hl : f.Latchable) (hhot : f.Hot o) (hx : f.possession = .shared)
    (hf' : f' = { f with possessors := f.possessors.reset o, page := none, state := .evicted }) :
    Ledger.Moves k (ledger o node s) (ledger o node (s.setFrame o (some f') j)) := by
  have hfr : (s.setFrame o (some f') j).frame o = some f' := by simp
  have hl' : f'.Latchable := hf' ▸ hl
  have hlive := h.owner_copy hf hl hhot
  have hgone : (ledger o node (s.setFrame o (some f') j)).live o = none := by
    simp [hf', Frame.copy]
  have hnamed : ∀ m, f'.isPossessor m = true ↔ f.isPossessor m = true ∧ m ≠ o := by
    intro m
    simp [hf', Frame.isPossessor, hx]
  refine .drop (n := o) ?_ ⟨_, hlive, (ledger_epoch hf).symm⟩ ?_ ?_ ?_
  · constructor
    case acq => exact fun _ => rfl
    case epoch => rw [ledger_epoch hfr, ledger_epoch hf, hf']
    case excl =>
      rw [ledger_dirExcl hfr, ledger_dirExcl hf, Frame.view_of_free hl'.byWorker,
        Frame.view_of_free hl.byWorker]
      simp [Frame.entry, hf']
    case live =>
      intro m d hd
      by_cases hm : m = o
      · rw [hm, hgone] at hd
        cases hd
      · simpa [hm] using hd
    case dir =>
      intro m hm
      by_cases hmo : m = o
      · subst hmo
        exact .inr ⟨hgone, h.not_busy_of_latchable hf hl⟩
      · rw [Nodes.owner_dir hl hf] at hm
        rw [Nodes.owner_dir hl' hfr]
        exact .inl ((hnamed m).mpr ⟨hm, hmo⟩)
  · intro m hm
    rw [Nodes.owner_dir hl' hfr] at hm
    rw [Nodes.owner_dir hl hf]
    exact (hnamed m).mp hm
  · intro m hm
    simp [hm]
  · intro m
    by_cases hm : m = o
    · subst hm
      have hleft := (h.settled hf hl.1).left
      simp only [ledger_left, PageState.setFrame_frame, Function.update_self, hf, Option.bind_some,
        hleft, hf']
      exact Frame.left_of_state (by simp)
    · simp [hm]

theorem moves_evictOwner {f : Frame W C} {ev : Eviction W C} {ssd : Bool} (h : Nodes o node s)
    (hf : s.frame o = some f) (hl : f.Latchable) (he : OwnerEviction o ssd f ev) :
    Ledger.Moves k (ledger o node s) (ledger o node (s.setFrame o ev.frame ev.bump)) := by
  have hs := h.settled hf hl.1
  cases he with
  | unlatch => exact .of_eq (quiet_frame hf rfl rfl fun _ => ⟨rfl, rfl⟩)
  | remove hssd _ hst hpos halone =>
    have hlive := h.owner_copy hf hl (hs.of_hot hst)
    refine .vanish ⟨o, _, hlive, (ledger_epoch hf).symm⟩ ?_ ?_ (fun _ => rfl) ?_ ?_
    · intro m hm
      rw [Nodes.owner_dir hl hf] at hm
      obtain rfl := halone m hm
      exact ⟨by simp [Eviction.frame], h.not_busy_of_latchable hf hl⟩
    · intro m d hd
      by_cases hm : m = o
      · subst hm
        simp [Eviction.frame] at hd
      · simpa [Eviction.frame, hm] using hd
    · exact (ledger_none (by simp [Eviction.frame])).2
    · intro m
      by_cases hm : m = o
      · subst hm
        simp [Eviction.frame, hf, hs.left]
      · simp [hm]
  | evict hst hx hany => exact moves_dropOwner h hf hl (hs.of_hot hst) hx rfl

theorem ProviderStep.moves {l : Nat} (h : Nodes o node s) (hok : Ledger.Ok (ledger o node s) l)
    (st : ProviderStep cfg o s s') (hk : k = true → ¬ StaleRemoval s s') :
    Ledger.Moves k (ledger o node s) (ledger o node s') := by
  cases st with
  | @select n f _ hn hf hl hst hp =>
    refine .of_eq (quiet_provide hn ?_ ?_)
    · simp [hf, hp, Frame.copy, Frame.isPossessor, Frame.byWorker, hl.1]
    · simp [hf, Frame.left, hst]
  | @refuse n v hp =>
    apply Ledger.Moves.of_eq
    apply ledger_eq
    · exact ⟨rfl, rfl, rfl⟩
    · intro m
      by_cases hm : m = n
      · subst hm
        simp [Frame.copy, hp]
      · simp [hm]
    · exact fun _ => rfl
    · exact fun _ => rfl
  | accept c hp hf hl _ hv hc =>
    exact moves_accept h hok (hv ▸ hp) hf hl (Frame.answerEviction_ok hc)
  | @landed n f g x _ hf =>
    have heq : ledger o node (s.setFrame o (some { f with page := some x }) 0) = ledger o node s :=
      quiet_frame hf rfl rfl fun _ => ⟨rfl, rfl⟩
    exact .of_eq heq
  | overlooked => exact .refl _
  | @retrieved f hf hh =>
    obtain ⟨-, hhot, -⟩ := (h o).system f hf (.inr hh)
    refine .of_eq (quiet_frame hf ?_ ?_ fun _ => ⟨rfl, ?_⟩)
    · simp [Frame.copy, Frame.isPossessor, Frame.byWorker, hh]
    · simp [Frame.left, hhot.1]
    · rw [Frame.view_of_free rfl, Frame.view_of_free (by simp [Frame.byWorker, hh])]
      exact Frame.entry_eq rfl rfl
  | @applyAcked n f hp _ hf =>
    obtain ⟨f₁, hf₁, hh⟩ := (h n).provides (by simp [hp])
    rw [hf] at hf₁
    obtain rfl := Option.some.inj hf₁
    refine .of_eq (quiet_provide ((h n).provided f hf hh).1 ?_ ?_)
    · simp [hf, hp, Frame.copy]
    · simp [hf, Frame.left_of_holder hh]
  | @applyRefused n f hp hf =>
    obtain ⟨f₁, hf₁, hh⟩ := (h n).provides (by simp [hp])
    rw [hf] at hf₁
    obtain rfl := Option.some.inj hf₁
    obtain ⟨hn, hhot, -⟩ := (h n).provided f hf hh
    refine .of_eq (quiet_provide hn ?_ ?_)
    · simp [hf, hp, Frame.copy, Frame.isPossessor, Frame.byWorker, hh]
    · simp [hf, Frame.left, hhot.1]
  | @applyStale n f hp hf =>
    obtain ⟨f₁, hf₁, hh⟩ := (h n).provides (by simp [hp])
    rw [hf] at hf₁
    obtain rfl := Option.some.inj hf₁
    obtain ⟨hn, hhot, -⟩ := (h n).provided f hf hh
    have hlive : (ledger o node s).live n ≠ none := by
      simp [hf, hp, Frame.copy, hhot.1, hhot.2.1]
    have hfalse : k = false := by
      cases hkb : k with
      | false => rfl
      | true => exact absurd ⟨n, hp, by simp [hf], by simp⟩ (hk hkb)
    refine .lose hfalse ?_ ⟨n, Option.ne_none_iff_exists'.mp hlive⟩
    constructor
    case acq => exact fun _ => rfl
    case epoch => simp [ledger, hn.symm]
    case excl => simp [ledger, hn.symm]
    case live =>
      intro m c hc
      by_cases hm : m = n
      · simp [hm] at hc
      · simpa [hm] using hc
    case dir =>
      intro m hm
      exact .inl (by simpa [ledger, hn.symm] using hm)
  | evictOwner dice _ hf hl _ hc => exact moves_evictOwner h hf hl (Frame.evictOwnerPage_ok hc)
  | @writeBack f x _ _ hf =>
    have heq : ledger o node (s.setFrame o (some { f with dirty := false }) 0) = ledger o node s :=
      quiet_frame hf rfl rfl fun _ => ⟨rfl, rfl⟩
    exact .of_eq heq

/-- No frame is removed against the owner's word, and the page is not reclaimed. -/
structure Keeps (cfg : Config) (node : W → NodeID) (s s' : PageState W C) : Prop where
  acknowledged : ¬ StaleRemoval s s'
  claimed : cfg.reclaim = true → ¬ Reclaims node s s'

/-- A step of the machine is a move of the ledger; it loses nothing if no frame is reclaimed away
from the owner or removed against the owner's word. -/
theorem Step.moves [DecidableEq W] {l : Nat} (hkn : s.known = true) (h : Nodes o node s)
    (hwt : Waits o s) (hok : Ledger.Ok (ledger o node s) l) (st : Step cfg o node s s')
    (hstale : k = true → ¬ StaleRemoval s s')
    (hr : k = true → cfg.reclaim = true → ¬ ReclaimsAway o node s s') :
    Ledger.Moves k (ledger o node s) (ledger o node s') := by
  cases st with
  | worker st => exact st.moves hkn h hwt hr
  | handler st => exact st.moves hkn h
  | provider st => exact st.moves h hok hstale

/-- What a page holds does not show in the ledger. -/
theorem Overwrites.ledger_eq {n : NodeID} (st : Overwrites n s s') :
    ledger o node s' = ledger o node s := by
  obtain @⟨f, c, hf, -⟩ := st
  exact quiet_frame hf rfl rfl fun _ => ⟨rfl, rfl⟩

theorem PageStep.moves [DecidableEq W] {l : Nat} (hkn : s.known = true) (h : Nodes o node s)
    (hwt : Waits o s) (hok : Ledger.Ok (ledger o node s) l) (st : PageStep cfg o node s s') :
    Ledger.Moves false (ledger o node s) (ledger o node s') := by
  cases st with
  | step st => exact st.moves hkn h hwt hok (by simp) (by simp)
  | overwritten st => exact .of_eq st.ledger_eq

end ScaleStore.Protocol
