/-
# The directory and the copies

Without page providers and reclaimed pages, the owner's directory and the frames of
the other nodes agree, as far as the messages under way allow: who uses the page is
named or is about to be told, and who is named has the page at the owner's version.
-/

import ScaleStore.Protocol.Faults

namespace ScaleStore.Protocol

variable {W C : Type} {o : NodeID} {node : W → NodeID} {s : PageState W C}

/-! ## Directory and copies -/

/-- The nodes that a response names as conflicting. -/
def Response.conflicts (r : Response) : Possessors :=
  match r.planned with
  | .move shared => shared
  | .invalidate shared => shared
  | _ => 0#64

/-- The worker on `n`, granted the version `e`, has still to send the node `m` a PMR, or waits for
its answer. -/
def Pc.Displaces (n m : NodeID) (e : Nat) : Pc C → Prop
  | .response _ r => r.pVersion = e ∧ r.conflicts.test m = true
  | .move _ _ v c rest => v = e ∧ (m = c ∨ rest.test m = true)
  | .invalidate _ _ v pending => v = e ∧ pending.test m = true
  | .updated _ _ (.succeedWithSharedConflict v shared) => v = e ∧ (shared.reset n).test m = true
  | _ => False

/-- The owner has granted what the worker asked for, and `fix` is not through with it. -/
def Pc.granted : Pc C → Bool
  | .response _ _ => true
  | .move _ _ _ _ _ => true
  | .invalidate _ _ _ _ => true
  | .copy _ _ _ _ _ => true
  | .copyFailed _ _ _ _ => true
  | .complete _ _ _ => true
  | .updated _ _ (.succeed _) => true
  | .updated _ _ (.succeedWithSharedConflict _ _) => true
  | .allocate => true
  | _ => false

/-- A PUR of the node `n` has not been answered. -/
def Unanswered (node : W → NodeID) (s : PageState W C) (n : NodeID) : Prop :=
  ∃ w t old, node w = n ∧ s.pc w = .update t old

/-- A PUR of the node `n` has been refused, and the worker has not seen it yet. -/
def Refused (node : W → NodeID) (s : PageState W C) (n : NodeID) : Prop :=
  ∃ w t old, node w = n ∧ s.pc w = .updated t old .failed

/-- Every node in use is named by the owner's entry, or the worker whose request has displaced it
will tell it so. -/
def Named (o : NodeID) (node : W → NodeID) (s : PageState W C) : Prop :=
  ∀ n f, n ≠ o → s.frame n = some f → f.state = .hot → f.possession ≠ .nobody →
    (∃ g, s.frame o = some g ∧ g.isPossessor n = true) ∨
    ∃ w e, (s.pc w).Displaces (node w) n e ∧
      (e = f.pVersion + 1 ∨ (e = f.pVersion ∧ (Unanswered node s n ∨ Refused node s n)))

/-- Every other node that the owner's entry `g` names and that is not acquiring the page has a
frame, and for its version `P` holds. -/
def Copied (node : W → NodeID) (s : PageState W C) (o : NodeID) (g : Frame W C)
    (P : NodeID → Nat → Prop) : Prop :=
  ∀ n, n ≠ o → g.isPossessor n = true → (∀ w, node w = n → (s.pc w).granted = false) →
    ∃ f, s.frame n = some f ∧ P n f.pVersion

/-- The version of the owner's entry `g`, or one more while the node's own PUR is unanswered. -/
def UpToDate (node : W → NodeID) (s : PageState W C) (g : Frame W C) (n : NodeID) (v : Nat) :
    Prop :=
  v = g.pVersion ∨ (v = g.pVersion + 1 ∧ Unanswered node s n)

/-- The version before that of the owner's entry `g`, or one more while the node does not know
better. -/
def Behind (node : W → NodeID) (s : PageState W C) (g : Frame W C) (n : NodeID) (v : Nat) : Prop :=
  v + 1 = g.pVersion ∨ (v = g.pVersion ∧ (Unanswered node s n ∨ Refused node s n))

/-- A worker of the owner has moved the version of its page on, and the entry still lists nodes of
the version before that it has to tell. -/
def Overtaken (s : PageState W C) (g : Frame W C) : Prop :=
  ∃ w, g.holder = some (.worker w) ∧
    ((∃ t e c rest, s.pc w = .move .localPossessionChange t e c rest) ∨
      ∃ t e pending, s.pc w = .invalidate .localPossessionChange t e pending)

/-- A worker of the owner has got the page from the node that possessed it exclusively; the entry
has been reset and names nobody. -/
def Emptied (s : PageState W C) (g : Frame W C) : Prop :=
  g.possession = .exclusive ∧
    ∃ w t e, g.holder = some (.worker w) ∧ s.pc w = .complete .localPossessionChange t e

/-- The directory and the copies agree, and nothing throws. -/
structure Agrees (o : NodeID) (node : W → NodeID) (s : PageState W C) : Prop where
  noFault : ∀ w, NoFault o node s w
  named : Named o node s
  copied : ∀ g, s.frame o = some g → ¬ Overtaken s g → ¬ Emptied s g →
    Copied node s o g (UpToDate node s g)
  overtaken : ∀ g, s.frame o = some g → Overtaken s g →
    Copied node s o g (Behind node s g)

section Agreement

variable {w : W} {n : NodeID} {f g : Frame W C}

theorem Pc.displaces_of_acquisition {p : Pc C} {m : NodeID} {q : Acquisition NodeID}
    (h : p.acquisition n = some q) (hm : m ∈ q.targets) : p.Displaces n m q.epoch := by
  cases p with
  | response t r =>
    obtain rfl := Option.some.inj h
    refine ⟨?_, ?_⟩
    · cases hp : r.planned <;> simp [Plan.acquisition]
      split <;> rfl
    · cases hp : r.planned <;> simp_all [Plan.acquisition, Response.conflicts]
      split at hm <;> simp at hm
  | move g t e c rest =>
    obtain rfl := Option.some.inj h
    exact ⟨rfl, by simpa using hm⟩
  | invalidate g t e pending =>
    obtain rfl := Option.some.inj h
    exact ⟨rfl, by simpa [Plan.acquisition] using hm⟩
  | complete g t e =>
    simp only [Pc.acquisition] at h
    split at h
    · cases h
    · obtain rfl := Option.some.inj h
      simp only [Plan.acquisition] at hm
      split at hm <;> cases hm
  | updated t old r =>
    cases r with
    | failed => cases h
    | succeed e =>
      obtain rfl := Option.some.inj h
      simp [Plan.acquisition] at hm
    | succeedWithSharedConflict e shared =>
      obtain rfl := Option.some.inj h
      exact ⟨rfl, by simpa [Plan.acquisition] using hm⟩
  | copy | copyFailed =>
    obtain rfl := Option.some.inj h
    cases hm
  | _ => cases h

theorem Pc.granted_of_acquisition {p : Pc C} {q : Acquisition NodeID}
    (h : p.acquisition n = some q) : p.granted = true := by
  cases p with
  | updated t old r => cases r <;> first | rfl | cases h
  | _ => first | rfl | cases h

theorem not_busy_of_granted (h : ∀ w, node w = n → (s.pc w).granted = false) :
    ¬ (ledger o node s).Busy n := by
  rintro ⟨w, q, hq, rfl⟩
  have hn := Pc.acquisition_node hq
  exact absurd (Pc.granted_of_acquisition hq) (by simp [h w hn.symm])

theorem Ground.hot {e : Nat} {g : GuardState} (h : Ground o n f e g) (hn : n ≠ o)
    (hs : f.state = .hot) : f.isPossessor n = true ∧ f.possession = .shared ∧ f.pVersion = e ∧
      g = .remotePossessionChange := by
  cases g with
  | initialized => exact h.elim
  | ssd | localPossessionChange => exact absurd h.1 hn
  | remote => exact absurd (hs.symm.trans h.2.1.1) (by simp)
  | remotePossessionChange => exact ⟨h.2.1.2.1, h.2.2.1, h.2.2.2, rfl⟩

/-- The worker of another node that has latched a HOT frame is using it, or asks for an upgrade. -/
theorem Fits.hot {p : Pc C} (h : Fits o n f p) (hn : n ≠ o) (hs : f.state = .hot) :
    f.isPossessor n = true ∧ ((p = .guardX ∧ f.possession = .exclusive) ∨
      (f.possession = .shared ∧
        ((∃ t old, (p = .update t old ∨ p = .updated t old .failed) ∧ f.pVersion = old + 1) ∨
        ∃ q, p.acquisition n = some q ∧ q.keeps = true ∧ q.epoch = f.pVersion))) := by
  cases p with
  | load => exact absurd h.1 hn
  | request => exact absurd (hs.symm.trans h.2.1) (by simp)
  | response => exact absurd (hs.symm.trans h.2.1.1) (by simp)
  | guardX => exact ⟨h.1.2.1, .inl ⟨rfl, h.2⟩⟩
  | update t old =>
    have hg : Ground o n f (old + 1) .remotePossessionChange := h
    obtain ⟨hp, hx, hv, -⟩ := hg.hot hn hs
    exact ⟨hp, .inr ⟨hx, .inl ⟨t, old, .inl rfl, hv⟩⟩⟩
  | updated t old r =>
    obtain ⟨hp, hx, hv, -⟩ := h.1.hot hn hs
    refine ⟨hp, .inr ⟨hx, ?_⟩⟩
    cases r with
    | failed => exact .inl ⟨t, old, .inr rfl, hv⟩
    | succeed e => exact .inr ⟨_, rfl, by simp [Plan.acquisition], h.2.trans hv.symm⟩
    | succeedWithSharedConflict e shared =>
      exact .inr ⟨_, rfl, by simp [Plan.acquisition], h.2.1.trans hv.symm⟩
  | move | copy | copyFailed =>
    obtain ⟨-, -, -, rfl⟩ := h.1.hot hn hs
    simp [Fits] at h
  | invalidate g t e pending =>
    obtain ⟨hp, hx, hv, rfl⟩ := h.1.hot hn hs
    exact ⟨hp, .inr ⟨hx, .inr ⟨_, rfl, by simp [Plan.acquisition], hv.symm⟩⟩⟩
  | complete g t e =>
    obtain ⟨hp, hx, hv, rfl⟩ := h.1.hot hn hs
    obtain rfl := h.2.1 rfl
    exact ⟨hp, .inr ⟨hx, .inr ⟨_, rfl, by simp [Plan.acquisition], hv.symm⟩⟩⟩
  | _ => exact h.elim

/-- A HOT frame of another node says that the node possesses the page. -/
theorem Nodes.possessor_of_hot (h : Nodes o node s) (hn : n ≠ o) (hf : s.frame n = some f)
    (hs : f.state = .hot) : f.isPossessor n = true := by
  rcases hh : f.holder with _ | (w | _ | _ | _)
  case none =>
    rcases (h n).rest f hf hh with ⟨hn', -⟩ | ⟨-, hhot | ⟨hleft, -⟩⟩
    · exact absurd hn' hn
    · exact hhot.2.1
    · simp [hleft.1] at hs
  case some.worker => exact (((h n).held f w hf hh).2.hot hn hs).1
  case some.provider => exact ((h n).provided f hf hh).2.1.2.1
  case some.handler => exact absurd ((h n).system f hf (.inl hh)).1 hn
  case some.retriever => exact absurd ((h n).system f hf (.inr hh)).1 hn

theorem Frame.worker_of_byWorker (h : f.byWorker = true) : ∃ w, f.holder = some (.worker w) := by
  unfold Frame.byWorker at h
  split at h
  case h_1 w hw => exact ⟨w, hw⟩
  case h_2 => cases h

/-- The frame of a copy in use has the version of the copy, except while a PUR is under way. -/
theorem Aligned.version_of_live {c : Copy} (h : Aligned o node s) (hn : n ≠ o)
    (hb : ¬ (ledger o node s).Busy n)
    (hc : (ledger o node s).live n = some c) : ∃ f, s.frame n = some f ∧
      (f.pVersion = c.epoch ∨ (f.pVersion = c.epoch + 1 ∧ (Unanswered node s n ∨
        (Refused node s n ∧ c.epoch < (ledger o node s).epoch)))) := by
  obtain ⟨f, hf, hs, -, rfl⟩ := frame_of_live hc
  refine ⟨f, hf, ?_⟩
  by_cases hby : f.possession = .shared ∧ f.byWorker = true
  case neg => simp [hby]
  obtain ⟨hx, hby⟩ := hby
  obtain ⟨w, hh⟩ := Frame.worker_of_byWorker hby
  obtain ⟨hw, hfit⟩ := (h.accounted.coherent.nodes n).held f w hf hh
  rcases (hfit.hot hn hs).2 with ⟨-, hx'⟩ | ⟨-, ⟨t, old, hpc | hpc, hv⟩ | ⟨q, hq, -⟩⟩
  · simp [hx] at hx'
  · exact .inr ⟨by simp [hx, hby, hv], .inl ⟨w, t, old, hw, hpc⟩⟩
  · have htold := h.told w
    rw [hpc] at htold
    have hold : old < (ledger o node s).epoch := htold
    refine .inr ⟨by simp [hx, hby, hv], .inr ⟨⟨w, t, old, hw, hpc⟩, ?_⟩⟩
    simpa [hx, hby, hv] using hold
  · exact absurd ⟨w, q, by rw [ledger_acq, hw, hq], Pc.acquisition_node hq⟩ hb

/-- The owner names whom the directory names, however far its own worker has got. -/
theorem Pc.mem_view {p : Pc C} (h : n ∈ (p.view o f).1) (hn : n ≠ o) : f.isPossessor n = true := by
  have hentry : n ∈ f.entry.1 → f.isPossessor n = true := by simp [Frame.entry]
  unfold Pc.view at h
  split at h
  case h_1 | h_2 => exact absurd h hn
  case h_3 | h_4 => exact hentry (h.resolve_left hn)
  case h_5 =>
    split at h
    · exact absurd h hn
    · split at h
      · exact absurd h hn
      · exact hentry (h.resolve_left hn)
  case h_6 => exact hentry h

theorem Accounted.named_of_dir (h : n ∈ (ledger o node s).dir) (hn : n ≠ o) :
    ∃ g, s.frame o = some g ∧ g.isPossessor n = true := by
  rcases hg : s.frame o with _ | g
  · have hempty : (ledger o node s).dir = ∅ := (ledger_none hg).2
    simp [hempty] at h
  · rw [ledger_dir hg] at h
    refine ⟨g, rfl, ?_⟩
    unfold Frame.view at h
    split at h
    · exact Pc.mem_view h hn
    · simpa [Frame.entry] using h

theorem Aligned.named (h : Aligned o node s) (hidle : Unprovided s) : Named o node s := by
  intro n f hn hf hs _
  obtain ⟨l, hok, hexact⟩ := h.accounted.exact
  have hnodes := h.accounted.coherent.nodes
  have hp := hnodes.possessor_of_hot hn hf hs
  obtain ⟨c, hc⟩ : ∃ c, (ledger o node s).live n = some c :=
    ⟨_, by simp [hf, Frame.copy, hs, hp, hidle.1 n]; rfl⟩
  have hl := hok.live_epoch n c hc
  have hle := hok.le_epoch
  -- the first worker of an epoch displaces those of the epoch before
  have displaces : ∀ w q, (ledger o node s).acq w = some q → n ∈ q.targets →
      (s.pc w).Displaces (node w) n q.epoch := fun w q hq hm => Pc.displaces_of_acquisition hq hm
  by_cases hb : (ledger o node s).Busy n
  · -- an upgrade of the node has been granted
    obtain ⟨w, q, hq, hqn⟩ := hb
    have hkeeps := hok.live_acq n c w q hc hq hqn
    obtain ⟨hfirst, hready, -⟩ := hexact.keeps_live w q hq hkeeps
    have hepoch := hexact.ready_epoch w q hq hfirst hready
    have hwn : node w = n := (Pc.acquisition_node hq).symm.trans hqn
    obtain ⟨f', hf', hh⟩ := (hnodes n).holds w hwn (Pc.acquisition_latched hq)
    obtain rfl := Option.some.inj (hf.symm.trans hf')
    have hversion : q.epoch = f.pVersion := by
      rw [ledger_acq, hwn] at hq
      rcases (((hnodes n).held f w hf hh).2.hot hn hs).2 with
        ⟨hpc, -⟩ | ⟨-, ⟨t, old, hpc | hpc, -⟩ | ⟨q', hq', -, he⟩⟩
      · simp [hpc, Pc.acquisition] at hq
      · simp [hpc, Pc.acquisition] at hq
      · simp [hpc, Pc.acquisition] at hq
      · exact Option.some.inj (hq.symm.trans hq') ▸ he
    by_cases hlast : q.epoch = (ledger o node s).epoch
    · exact .inl (Accounted.named_of_dir (hqn ▸ (hok.acq_dir w q hq hlast).1) hn)
    · obtain ⟨w', q', hq', hf', he'⟩ := hok.first_of (q.epoch + 1) (by omega)
        (by have := (hok.first_range w q hq hfirst).2; omega)
      have hm := hok.acq_target w w' q q' hq hq' hf' he'
      exact .inr ⟨w', _, displaces w' q' hq' (hqn ▸ hm), .inl (by omega)⟩
  · by_cases hlast : l = (ledger o node s).epoch
    · exact .inl (Accounted.named_of_dir (hok.live_dir n c hc hlast).1 hn)
    · obtain ⟨w, q, hq, hfirst, he⟩ := hok.first_of (l + 1) (by omega) (by omega)
      have hm : n ∈ q.targets := by
        rcases hok.live_target n c w q hc hq hfirst he with hm | ⟨-, hqn⟩
        · exact hm
        · exact absurd ⟨w, q, hq, hqn⟩ hb
      obtain ⟨f', hf', hv⟩ := h.version_of_live hn hb hc
      obtain rfl := Option.some.inj (hf.symm.trans hf')
      refine .inr ⟨w, _, displaces w q hq hm, ?_⟩
      rcases hv with hv | ⟨hv, hu⟩
      · exact .inl (by omega)
      · exact .inr ⟨by omega, hu.imp_right And.left⟩

/-- What the owner's entry names is in the directory, unless it is a list of nodes to be told. -/
theorem Aligned.mem_dir (h : Aligned o node s) (hg : s.frame o = some g)
    (hp : g.isPossessor n = true) (hover : ¬ Overtaken s g) (hempty : ¬ Emptied s g) :
    n ∈ (ledger o node s).dir := by
  have hentry : n ∈ g.entry.1 := by simpa [Frame.entry] using hp
  rw [ledger_dir hg]
  rcases hh : g.byWorker with _ | _
  · rwa [Frame.view_of_free hh]
  · obtain ⟨w, hw⟩ := Frame.worker_of_byWorker hh
    rw [Frame.view_of_worker hw]
    obtain ⟨-, hfit⟩ := (h.accounted.coherent.nodes o).held g w hg hw
    have hlist := h.listed w g hg hw
    cases hpc : s.pc w with
    | move m t e c rest =>
      cases m with
      | localPossessionChange => exact absurd ⟨w, hw, .inl ⟨t, e, c, rest, hpc⟩⟩ hover
      | _ => exact hentry
    | invalidate m t e pending =>
      cases m with
      | localPossessionChange => exact absurd ⟨w, hw, .inr ⟨t, e, pending, hpc⟩⟩ hover
      | _ => exact hentry
    | copy m | copyFailed m =>
      cases m with
      | localPossessionChange => exact .inr hentry
      | _ => exact hentry
    | complete m t e =>
      cases m with
      | localPossessionChange =>
        rw [hpc] at hfit hlist
        have hx : g.possession = .shared := by
          cases hx : g.possession with
          | nobody => exact absurd hx hfit.1.2.1
          | exclusive => exact absurd ⟨hx, w, t, e, hw, hpc⟩ hempty
          | shared => rfl
        cases t with
        | exclusive =>
          have hnone : g.named = ∅ := hlist hx
          have hmem : n ∈ g.named := by simpa using hp
          simp [hnone] at hmem
        | _ => simpa [Pc.view, hx] using Or.inr hp
      | _ => exact hentry
    | _ => exact hentry

theorem Aligned.copied (h : Aligned o node s) (hg : s.frame o = some g) (hover : ¬ Overtaken s g)
    (hempty : ¬ Emptied s g) :
    Copied node s o g (UpToDate node s g) := by
  intro n hn hp hgranted
  obtain ⟨l, hok, hexact⟩ := h.accounted.exact
  have hb := not_busy_of_granted (o := o) hgranted
  have hepoch : (ledger o node s).epoch = g.pVersion := ledger_epoch hg
  rcases hexact.dir_mem n (h.mem_dir hg hp hover hempty) with ⟨c, hc, hl⟩ | ⟨w, q, hq, hqn, -⟩
  · have hce := hok.live_epoch n c hc
    obtain ⟨f, hf, hv⟩ := h.version_of_live hn hb hc
    refine ⟨f, hf, ?_⟩
    rcases hv with hv | ⟨hv, hu | ⟨-, hlt⟩⟩
    · exact .inl (by omega)
    · exact .inr ⟨by omega, hu⟩
    · -- a refused PUR is about an earlier version
      omega
  · exact absurd ⟨w, q, hq, hqn⟩ hb

theorem Aligned.overtaken (h : Aligned o node s) (hg : s.frame o = some g)
    (hover : Overtaken s g) :
    Copied node s o g (Behind node s g) := by
  intro n hn hp hgranted
  obtain ⟨l, hok, hexact⟩ := h.accounted.exact
  have hb := not_busy_of_granted (o := o) hgranted
  have hmem : n ∈ g.named := by simpa using hp
  -- whoever is listed is a target of the worker that has the frame
  obtain ⟨w, q, hq, hfirst, hepoch, htarget⟩ : ∃ w q, (ledger o node s).acq w = some q ∧
      q.first = true ∧ q.epoch = g.pVersion ∧ n ∈ q.targets := by
    obtain ⟨w, hw, ⟨t, e, c, rest, hpc⟩ | ⟨t, e, pending, hpc⟩⟩ := hover
    · have hfit := ((h.accounted.coherent.nodes o).held g w hg hw).2
      have hlist := h.listed w g hg hw
      rw [hpc] at hfit hlist
      refine ⟨w, _, by rw [ledger_acq, hpc]; rfl, rfl, hfit.1.2.2.2.1.symm, ?_⟩
      simpa using hlist hmem
    · have hfit := ((h.accounted.coherent.nodes o).held g w hg hw).2
      have hlist := h.listed w g hg hw
      rw [hpc] at hfit hlist
      refine ⟨w, _, by rw [ledger_acq, hpc]; rfl, rfl, hfit.1.2.2.2.1.symm, ?_⟩
      simpa [Plan.acquisition] using hlist hmem
  rcases hexact.target_mem w q hq hfirst n htarget with
    ⟨c, hc, hl⟩ | ⟨w', q', hq', hqn, -⟩ | ⟨e, he, hl⟩
  · have hce := hok.live_epoch n c hc
    obtain ⟨f, hf, hv⟩ := h.version_of_live hn hb hc
    refine ⟨f, hf, ?_⟩
    rcases hv with hv | ⟨hv, hu⟩
    · exact .inl (by omega)
    · exact .inr ⟨by omega, hu.imp_right And.left⟩
  · exact absurd ⟨w', q', hq', hqn⟩ hb
  · obtain ⟨f, hf, -, -, hv⟩ := frame_of_left he
    exact ⟨f, hf, .inl (by omega)⟩

end Agreement

/-- Before the page is handed out there is at most the owner's entry for the node that allocates
it. -/
theorem Fresh.agrees (h : Fresh o node s) : Agrees o node s := by
  cases h with
  | unused hun hf =>
    refine ⟨fun w => ?_, ?_, ?_, ?_⟩
    · simp [NoFault, hun.pc w]
    · intro n f hn hf'
      simp [hun.frame n hn] at hf'
    · intro g hg
      simp [hf] at hg
    · intro g hg
      simp [hf] at hg
  | allocating w hn hpc hidle _ hframe ho =>
    have hentry : ∀ g, s.frame o = some g → g = allocatedFrame (node w) :=
      fun g hg => Option.some.inj (hg.symm.trans ho)
    refine ⟨fun w' => ?_, ?_, ?_, ?_⟩
    · by_cases hw : w' = w
      · subst hw
        simp [NoFault, hpc, hframe _ hn]
      · simp [NoFault, hidle w' hw]
    · intro n f hn' hf'
      simp [hframe n hn'] at hf'
    · intro g hg _ _ n _ hp hgranted
      obtain rfl := hentry g hg
      have hwn : node w = n := by simpa [allocatedFrame, Frame.isPossessor] using hp
      have hw := hgranted w hwn
      simp [hpc, Pc.granted] at hw
    · rintro g hg ⟨w', hw', -⟩
      simp [hentry g hg, allocatedFrame] at hw'

section World

variable {PID : Type} [DecidableEq PID] [DecidableEq W] {owner : PID → NodeID}
  {σ : PID → PageState W C}

end World

/-! ## An entry under change -/

/-- Node 1 shares the page with its owner 0, whose worker then wants it exclusively. -/
def overtakenActs : List (Act NodeID Nat) :=
  [.start 1 .optimistic, .insert 1 9, .requestLoad 1, .loaded, .request 1, .receive 1 0,
    .completeOptimistic 1, .start 0 .exclusive, .peek 0, .changeLocal 0 9 0]

/-- The owner names node 1, which has the version before and is through with its acquisition. -/
def behindSeen (s : PageState NodeID Nat) : Bool :=
  match s.frame 0, s.frame 1, s.pc 1 with
  | some g, some f, .guardO _ _ => g.isPossessor 1 && decide (f.pVersion + 1 = g.pVersion)
  | _, _, _ => false

theorem overtaken_run : ∃ s : PageState NodeID Nat, behindSeen s = true ∧
    (world ⟨false, false, false⟩ (fun _ : Unit => 0) oneWorker).Reachable (fun _ => s) := by
  have hrun : (acts ⟨false, false, false⟩ 0 oneWorker (PageState.start 0 true)
      overtakenActs).any behindSeen = true := by decide +kernel
  obtain ⟨s, hs, hseen⟩ := acts_any (PageState.start_init 0 true) hrun
  exact ⟨s, hseen, hs⟩

/-- Node 2 has the page of node 1 exclusively, and a worker of the owner takes it back. -/
def emptiedActs : List (Act NodeID Nat) :=
  [.start 2 .exclusive, .insert 2 9, .requestLoad 2, .loaded, .request 2, .receive 2 0,
    .completeExclusive 2, .releaseExclusive 2, .start 1 .shared, .peek 1, .changeLocal 1 9 2,
    .move 1]

/-- The entry, reset to 0, reads as if node 0 had the page, which has no frame. -/
def emptiedSeen (s : PageState NodeID Nat) : Bool :=
  match s.frame 1, s.frame 0, s.pc 0 with
  | some g, none, .idle => g.isPossessor 0
  | _, _, _ => false

end ScaleStore.Protocol
