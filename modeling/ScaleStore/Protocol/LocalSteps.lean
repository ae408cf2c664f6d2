/-
# Steps keep frames and workers in agreement

The lemmas of `Local`, once for each way in which a step of the machine changes
the state, and from them one case for each step.
-/

import ScaleStore.Protocol.Local

namespace ScaleStore.Protocol

variable {W C : Type} {cfg : Config} {o : NodeID} {node : W → NodeID} {s s' : PageState W C}

namespace PageState

@[simp] theorem setFrame_frame (s : PageState W C) (n : NodeID) (f : Option (Frame W C)) (k : Nat) :
    (s.setFrame n f k).frame = Function.update s.frame n f := rfl

@[simp] theorem setFrame_version (s : PageState W C) (n : NodeID) (f : Option (Frame W C))
    (k : Nat) : (s.setFrame n f k).version = Function.update s.version n (s.version n + k) := rfl

@[simp] theorem setFrame_pc (s : PageState W C) (n : NodeID) (f : Option (Frame W C)) (k : Nat) :
    (s.setFrame n f k).pc = s.pc := rfl

@[simp] theorem setFrame_provider (s : PageState W C) (n : NodeID) (f : Option (Frame W C))
    (k : Nat) : (s.setFrame n f k).provider = s.provider := rfl

@[simp] theorem setFrame_known (s : PageState W C) (n : NodeID) (f : Option (Frame W C))
    (k : Nat) : (s.setFrame n f k).known = s.known := rfl

section

variable [DecidableEq W]

@[simp] theorem setPc_frame (s : PageState W C) (w : W) (p : Pc C) :
    (s.setPc w p).frame = s.frame := rfl

@[simp] theorem setPc_version (s : PageState W C) (w : W) (p : Pc C) :
    (s.setPc w p).version = s.version := rfl

@[simp] theorem setPc_pc (s : PageState W C) (w : W) (p : Pc C) :
    (s.setPc w p).pc = Function.update s.pc w p := rfl

@[simp] theorem setPc_provider (s : PageState W C) (w : W) (p : Pc C) :
    (s.setPc w p).provider = s.provider := rfl

@[simp] theorem setPc_known (s : PageState W C) (w : W) (p : Pc C) :
    (s.setPc w p).known = s.known := rfl

end

@[simp] theorem setProvider_frame (s : PageState W C) (n : NodeID) (p : Provider) :
    (s.setProvider n p).frame = s.frame := rfl

@[simp] theorem setProvider_version (s : PageState W C) (n : NodeID) (p : Provider) :
    (s.setProvider n p).version = s.version := rfl

@[simp] theorem setProvider_pc (s : PageState W C) (n : NodeID) (p : Provider) :
    (s.setProvider n p).pc = s.pc := rfl

@[simp] theorem setProvider_provider (s : PageState W C) (n : NodeID) (p : Provider) :
    (s.setProvider n p).provider = Function.update s.provider n p := rfl

@[simp] theorem setProvider_known (s : PageState W C) (n : NodeID) (p : Provider) :
    (s.setProvider n p).known = s.known := rfl

end PageState

/-- All nodes are in order. -/
def Nodes (o : NodeID) (node : W → NodeID) (s : PageState W C) : Prop := ∀ n, NodeOK o node s n

namespace Nodes

/-! ## Ways to change the state -/

/-- Nothing that the nodes depend on has changed. -/
theorem congr (h : Nodes o node s) (hf : s'.frame = s.frame) (hv : s'.version = s.version)
    (hp : s'.provider = s.provider) (hpc : s'.pc = s.pc) : Nodes o node s' :=
  fun n => (h n).congr (by rw [hf]) (by rw [hv]) (by rw [hp]) (fun w _ => by rw [hpc])

theorem away [DecidableEq W] {w : W} {f : Option (Frame W C)} {k : Nat} {p : Pc C} {n : NodeID}
    (h : NodeOK o node s n) (hn : n ≠ node w) :
    NodeOK o node ((s.setFrame (node w) f k).setPc w p) n := by
  refine h.congr (by simp [hn]) (by simp [hn]) rfl fun w' hw' => ?_
  have hne : w' ≠ w := by
    rintro rfl
    exact hn hw'.symm
  simp [hne]

/-- The worker that holds the latch goes on, and may change its frame. -/
theorem own [DecidableEq W] {w : W} {f f' : Frame W C} {p : Pc C} (h : Nodes o node s)
    (hf : s.frame (node w) = some f) (hl : (s.pc w).latched = true) (hh : f'.holder = f.holder)
    (hr : f'.readers = f.readers) (hfit : Fits o (node w) f' p) :
    Nodes o node ((s.setFrame (node w) (some f') 0).setPc w p) := by
  intro n
  by_cases hn : n = node w
  · subst hn
    have hw := (h (node w)).holder_eq hf rfl hl
    refine (h (node w)).own hf hw (by simp) (hh.trans hw) hr (by simp) rfl ?_ (by simpa using hfit)
    intro w' _ hne
    simp [hne]
  · exact away (h n) hn

/-- The worker that holds the latch goes on without changing its frame. -/
theorem own_pc [DecidableEq W] {w : W} {f : Frame W C} {p : Pc C} (h : Nodes o node s)
    (hf : s.frame (node w) = some f) (hl : (s.pc w).latched = true)
    (hfit : Fits o (node w) f p) : Nodes o node (s.setPc w p) := by
  intro n
  by_cases hn : n = node w
  · subst hn
    have hw := (h (node w)).holder_eq hf rfl hl
    refine (h (node w)).own hf hw (by simpa using hf) hw rfl rfl rfl ?_ (by simpa using hfit)
    intro w' _ hne
    simp [hne]
  · refine (h n).congr rfl rfl rfl fun w' hw' => ?_
    have hne : w' ≠ w := by
      rintro rfl
      exact hn hw'.symm
    simp [hne]

/-- A worker latches the frame of its node, or puts one into the table. -/
theorem latch [DecidableEq W] {w : W} {f' : Frame W C} {p : Pc C} {k : Nat} (h : Nodes o node s)
    (hfree : ∀ f, s.frame (node w) = some f → f.Latchable) (hk : 0 < k)
    (hw' : f'.holder = some (.worker w)) (hr : f'.readers = ∅) (hfit : Fits o (node w) f' p) :
    Nodes o node ((s.setFrame (node w) (some f') k).setPc w p) := by
  intro n
  by_cases hn : n = node w
  · subst hn
    refine (h (node w)).latch rfl hfree (by simp) hw' hr (by simpa using hk) rfl ?_
      (by simpa using hfit)
    intro w' _ hne
    simp [hne]
  · exact away (h n) hn

/-- A worker gives the latch of its node's frame back, or removes the frame. -/
theorem unlatch [DecidableEq W] {w : W} {f : Frame W C} {fr : Option (Frame W C)} {p : Pc C}
    {k : Nat}
    (h : Nodes o node s) (hf : s.frame (node w) = some f) (hl : (s.pc w).latched = true)
    (hfr : ∀ f', fr = some f' → f'.holder = none ∧ f'.readers = f.readers ∧ Rest o (node w) f')
    (hk : 0 < k) (hlp : p.latched = false) (hsp : p.shares = false) (hap : p ≠ .allocate)
    (hst : ∀ v, p.stamp = some v → v = s.version (node w) + k ∧ ∃ f', fr = some f' ∧
      f'.possession ≠ .nobody ∧ (p.trusts = true → f'.Hot (node w))) :
    Nodes o node ((s.setFrame (node w) fr k).setPc w p) := by
  intro n
  by_cases hn : n = node w
  · subst hn
    have hw := (h (node w)).holder_eq hf rfl hl
    have hempty := (h (node w)).excl f hf (by simp [hw])
    refine (h (node w)).unlatch hf hw ?_ (by simpa using hk) rfl ?_ (by simpa using hlp)
      (by simpa using hsp) (by simpa using hap) (by simpa using hst)
    · intro f' hf'
      simp only [PageState.setPc_frame, PageState.setFrame_frame, Function.update_self] at hf'
      obtain ⟨h1, h2, h3⟩ := hfr f' hf'
      exact ⟨h1, h2.trans hempty, h3⟩
    · intro w' _ hne
      simp [hne]
  · exact away (h n) hn

/-- A worker without a latch goes on. -/
theorem setPc [DecidableEq W] {w : W} {p : Pc C} (h : Nodes o node s)
    (hl₀ : (s.pc w).latched = false)
    (hsh₀ : (s.pc w).shares = false) (hlp : p.latched = false) (hsp : p.shares = false)
    (hap : p ≠ .allocate)
    (hst : ∀ v, p.stamp = some v → v < s.version (node w) ∨ (v = s.version (node w) ∧
      ∃ f, s.frame (node w) = some f ∧ f.holder = none ∧ f.possession ≠ .nobody ∧
        (p.trusts = true → f.Hot (node w)))) : Nodes o node (s.setPc w p) := by
  intro n
  refine (h n).setPc rfl rfl rfl ?_ hl₀ hsh₀ (by simpa using hlp) (by simpa using hsp)
    (by simpa using hap) ?_
  · intro w' _ hne
    simp [hne]
  · rintro rfl
    simpa using hst

/-- A frame that no worker uses is changed or removed. -/
theorem anon {m : NodeID} {fr : Option (Frame W C)} {k : Nat} (h : Nodes o node s)
    (hfree : ∀ f, s.frame m = some f → f.Latchable ∨ f.holder = some .handler ∨
      f.holder = some .retriever) (hm : s.provider m = .idle)
    (hnew : ∀ f', fr = some f' → f'.readers = ∅ ∧ ((f'.holder = none ∧ Rest o m f') ∨
      ((f'.holder = some .handler ∨ f'.holder = some .retriever) ∧
        m = o ∧ f'.Hot o ∧ f'.Settled o)))
    (hk : 0 < k) : Nodes o node (s.setFrame m fr k) := by
  intro n
  by_cases hn : n = m
  · subst hn
    refine (h n).anon ?_ ?_ ?_ ?_ ?_ ?_ (by simpa using hk) (fun w _ => rfl)
    · intro f hf
      rcases hfree f hf with ⟨hh, hr⟩ | hh | hh
      · exact ⟨hr, by simp [hh]⟩
      · exact ⟨(h n).excl f hf (by simp [hh]), by simp [hh]⟩
      · exact ⟨(h n).excl f hf (by simp [hh]), by simp [hh]⟩
    all_goals simp only [PageState.setFrame_frame, Function.update_self,
      PageState.setFrame_provider]
    · intro f' hf'
      obtain ⟨hr, ⟨hh, -⟩ | ⟨hh | hh, -⟩⟩ := hnew f' hf' <;> exact ⟨hr, by simp [hh]⟩
    · intro f' hf' hh'
      obtain ⟨-, ⟨-, hrest⟩ | ⟨hh | hh, -⟩⟩ := hnew f' hf'
      · exact hrest
      · simp [hh] at hh'
      · simp [hh] at hh'
    · intro f' hf' hh'
      obtain ⟨-, ⟨hh, -⟩ | ⟨hh | hh, -⟩⟩ := hnew f' hf' <;> simp [hh] at hh'
    · intro hne
      exact absurd hm hne
    · intro f' hf' hh'
      obtain ⟨-, ⟨hh, -⟩ | ⟨-, hrest⟩⟩ := hnew f' hf'
      · simp [hh] at hh'
      · exact hrest
  · exact (h n).congr (by simp [hn]) (by simp [hn]) rfl (fun w _ => rfl)

/-- Only the flags of a frame change. -/
theorem flag {m : NodeID} {f : Frame W C} {a b : Bool} (h : Nodes o node s)
    (hf : s.frame m = some f) (hm : a = true ∨ m = o) :
    Nodes o node (s.setFrame m (some { f with mhWaiting := a, dirty := b }) 0) := by
  intro n
  by_cases hn : n = m
  · subst hn
    exact (h n).flag hf (Function.update_self ..) rfl hm (by simp) rfl (fun w _ => rfl)
  · exact (h n).congr (by simp [hn]) (by simp [hn]) rfl (fun w _ => rfl)

/-- Only what the page of a frame holds changes. -/
theorem page {m : NodeID} {f : Frame W C} {c : C} (h : Nodes o node s) (hf : s.frame m = some f)
    (hx : f.page.isSome = true) :
    Nodes o node (s.setFrame m (some { f with page := some c }) 0) := by
  intro n
  by_cases hn : n = m
  · subst hn
    exact (h n).page hf hx (Function.update_self ..) rfl (by simp) rfl (fun w _ => rfl)
  · exact (h n).congr (by simp [hn]) (by simp [hn]) rfl (fun w _ => rfl)

/-- A worker takes the shared latch. -/
theorem addReader [DecidableEq W] {w : W} {f : Frame W C} {v : Nat} (h : Nodes o node s)
    (hf : s.frame (node w) = some f) (hfree : f.holder = none) (hhot : f.Hot (node w))
    (hv : s.version (node w) = v) :
    Nodes o node ((s.setFrame (node w) (some { f with readers := insert w f.readers }) 0).setPc w
      (.guardS v)) := by
  subst hv
  intro n
  by_cases hn : n = node w
  · subst hn
    refine (h (node w)).addReader rfl hf hfree hhot (by simp) (by simp) rfl ?_ (by simp)
    intro w' _ hne
    simp [hne]
  · exact away (h n) hn

/-- A worker gives the shared latch back. -/
theorem dropReader [DecidableEq W] {w : W} {f : Frame W C} {v : Nat} {p : Pc C} (h : Nodes o node s)
    (hf : s.frame (node w) = some f) (hg : s.pc w = .guardS v)
    (hp : p = .idle ∨ p = .guardO v none) :
    Nodes o node ((s.setFrame (node w)
      (some { f with readers := f.readers.erase w }) 0).setPc w p) := by
  intro n
  by_cases hn : n = node w
  · subst hn
    refine (h (node w)).dropReader rfl hf (by simp) (by simp) rfl ?_ hg (by simpa using hp)
    intro w' _ hne
    simp [hne]
  · exact away (h n) hn

/-! ## What a worker finds -/

/-- The frame a worker in a latched phase finds on its node. -/
theorem fits {w : W} {p : Pc C} {f : Frame W C} (h : Nodes o node s) (hpc : s.pc w = p)
    (hl : p.latched = true) (hf : s.frame (node w) = some f) :
    f.holder = some (.worker w) ∧ f.readers = ∅ ∧ Fits o (node w) f p := by
  subst hpc
  have hh := (h (node w)).holder_eq hf rfl hl
  exact ⟨hh, (h (node w)).excl f hf (by simp [hh]), ((h (node w)).held f w hf hh).2⟩

/-- What a worker relies on whose version is still current. -/
theorem current {w : W} {v : Nat} {f : Frame W C} (h : Nodes o node s)
    (hst : (s.pc w).stamp = some v) (hv : s.version (node w) = v)
    (hf : s.frame (node w) = some f) :
    f.holder = none ∧ f.possession ≠ .nobody ∧ ((s.pc w).trusts = true → f.Hot (node w)) := by
  rcases (h (node w)).stamp w v rfl hst with hlt | ⟨-, f', hf', h1, h2, h3⟩
  · omega
  · rw [hf] at hf'
    obtain rfl := Option.some.inj hf'
    exact ⟨h1, h2, h3⟩

/-- A frame that can be latched is not in flight at the page provider. -/
theorem provider_idle {n : NodeID} {f : Frame W C} (h : Nodes o node s) (hf : s.frame n = some f)
    (hl : f.Latchable) : s.provider n = .idle := by
  by_contra hne
  obtain ⟨f', hf', hh⟩ := (h n).provides hne
  rw [hf] at hf'
  obtain rfl := Option.some.inj hf'
  simp [hl.1] at hh

theorem provider_owner (h : Nodes o node s) : s.provider o = .idle := by
  by_contra hne
  obtain ⟨f, hf, hh⟩ := (h o).provides hne
  exact ((h o).provided f hf hh).1 rfl

/-- A frame that can be latched is not the one a worker holds. -/
theorem ne_of_latchable {w : W} {n : NodeID} {f : Frame W C} (h : Nodes o node s)
    (hl : (s.pc w).latched = true) (hf : s.frame n = some f) (hfree : f.Latchable) :
    n ≠ node w := by
  rintro rfl
  have hh := (h (node w)).holder_eq hf rfl hl
  simp [hfree.1] at hh

/-- The owner's frame, when it can be latched. -/
theorem settled {f : Frame W C} (h : Nodes o node s) (hf : s.frame o = some f)
    (hfree : f.holder = none) : f.Settled o := by
  rcases (h o).rest f hf hfree with ⟨-, hs⟩ | ⟨hne, -⟩
  · exact hs
  · exact absurd rfl hne

end Nodes

/-! ## Carrying out a plan -/

theorem Enters.fits_invalidate {n : NodeID} {g : GuardState} {t : Access} {e : Nat}
    {shared : Possessors} {p : Pc C} {f : Frame W C}
    (h : Enters n g t e (.invalidate shared) p) (hg : Ground o n f e g) (hssd : g ≠ .ssd)
    (ho : shared.test o = false) (ht : shared.any = true → t = .exclusive)
    (hr : g = .remotePossessionChange → t = .exclusive)
    (hsh : shared.any = true → g = .localPossessionChange → f.possession = .shared)
    (hl : g = .localPossessionChange → t ≠ .exclusive →
      (f.possession = .exclusive ∧ f.possessors = 0#64) ∨
      (f.possession = .shared ∧ f.possessors.any = true)) : Fits o n f p := by
  cases h with
  | invalidate hany _ => exact ⟨hg, hssd, ht hany, ho, hany, hsh hany⟩
  | none => exact ⟨hg, hr, hl⟩

theorem Enters.fits_move {n : NodeID} {g : GuardState} {t : Access} {e : Nat}
    {shared : Possessors} {p : Pc C} {f : Frame W C} (h : Enters n g t e (.move shared) p)
    (hg : Ground o n f e g) (hway : g = .remote ∨ g = .localPossessionChange)
    (ho : shared.test o = false)
    (ht : t ≠ .exclusive → ∀ c, shared.test c = true → (shared.reset c).any = false)
    (hl : g = .localPossessionChange → f.state = .evicted ∧
      (f.possession = .exclusive → ∀ c, shared.test c = true → (shared.reset c).any = false) ∧
      (t ≠ .exclusive → f.possession = .exclusive)) : Fits o n f p := by
  cases h with
  | @move _ c hc hne =>
    have hco : c ≠ o := by
      rintro rfl
      simp [ho] at hc
    exact ⟨hg, hway, hco, by simp [ho], by simp, fun hx => ht hx c hc,
      fun hloc => ⟨(hl hloc).1, fun hx => (hl hloc).2.1 hx c hc, (hl hloc).2.2⟩⟩

theorem Enters.fits_copy {n : NodeID} {g : GuardState} {t : Access} {e : Nat}
    {shared : Possessors} {p : Pc C} {f : Frame W C} (h : Enters n g t e (.copy shared) p)
    (hg : Ground o n f e g) (hway : g = .remote ∨ g = .localPossessionChange)
    (ht : t ≠ .exclusive)
    (hl : g = .localPossessionChange →
      f.state = .evicted ∧ f.possession = .shared ∧ f.possessors = shared ∧
        shared.test o = false ∧ shared.any = true) : Fits o n f p := by
  cases h with
  | copy hc hne => exact ⟨hg, hway, ht, hl⟩

/-- A set with one member is empty without it. -/
theorem Possessors.single_reset (c d : NodeID) (h : (set 0#64 c).test d = true) :
    ((set 0#64 c).reset d).any = false := by
  rw [any_eq_false_iff]
  have hd : d = c := by simpa using h
  simp [hd]

/-! ## Workers -/

theorem plan_fits {r : Response} {t : Access} {n : NodeID} {f : Frame W C} {plan : Plan}
    {p : Pc C} (hp : r.plan = .ok plan) (hr : r.Fits o t)
    (h : Enters n .remote t r.pVersion plan p) (hg : Ground o n f r.pVersion .remote) :
    Fits o n f p := by
  obtain ⟨res, conflict, pv⟩ := r
  cases res with
  | withPage =>
    obtain rfl : plan = .complete := by simpa [Response.plan] using hp.symm
    cases h
    exact ⟨hg, by simp, by simp⟩
  | noPageExclusiveConflict =>
    obtain rfl : plan = .move (Possessors.set 0#64 conflict.toNode) := by
      simpa [Response.plan] using hp.symm
    refine h.fits_move hg (.inl rfl) ?_ (fun _ c hc => Possessors.single_reset _ c hc) (by simp)
    have hne : conflict.toNode ≠ o := hr
    simp [hne.symm]
  | noPageSharedConflict =>
    simp only [Response.plan, ensure_bind] at hp
    split at hp
    case isFalse => cases hp
    case isTrue =>
      obtain rfl := Except.ok.inj hp
      exact h.fits_move hg (.inl rfl) hr.2 (fun hx => absurd hr.1 hx) (by simp)
  | withPageSharedConflict =>
    simp only [Response.plan, ensure_bind] at hp
    split at hp
    case isFalse => cases hp
    case isTrue =>
      obtain rfl := Except.ok.inj hp
      exact h.fits_invalidate hg (by simp) hr.2 (fun _ => hr.1) (by simp) (by simp) (by simp)
  | noPageEvicted =>
    simp only [Response.plan, ensure_bind] at hp
    split at hp
    case isFalse => cases hp
    case isTrue =>
      obtain rfl := Except.ok.inj hp
      exact h.fits_copy hg (.inl rfl) hr (by simp)

theorem Frame.withPossessor_hot {f : Frame W C} {t : Access} {n : NodeID}
    (hp : f.page.isSome = true) : (f.withPossessor t n).Hot n := by
  refine ⟨rfl, ?_, hp⟩
  cases t <;> simp [Frame.withPossessor, Frame.isPossessor, Access.desired]

/-- The page is there once all conflicts are resolved. -/
theorem Fits.page_of_complete {n : NodeID} {f : Frame W C} {g : GuardState} {t : Access} {e : Nat}
    (h : Fits o n f (.complete g t e)) : f.page.isSome = true := by
  obtain ⟨hg, -⟩ := h
  cases g with
  | initialized => exact hg.elim
  | ssd => exact hg.2.1.2.2.2
  | remote => exact hg.2.1.2.2.2
  | localPossessionChange => exact hg.2.2.1
  | remotePossessionChange => exact hg.2.1.2.2

theorem Frame.Hot.possession_ne {f : Frame W C} {n : NodeID} (h : f.Hot n) :
    f.possession ≠ .nobody := by
  intro hp
  have := h.2.1
  simp [Frame.isPossessor, hp] at this

/-- A frame in use that is given back. -/
theorem Frame.Hot.rest {f : Frame W C} {n : NodeID} (h : f.Hot n) :
    Rest o n { f with holder := none } := by
  by_cases hn : n = o
  · subst hn
    refine .inl ⟨rfl, ⟨h.possession_ne, .inl h, fun hs => ?_⟩⟩
    have hn := h.2.1
    rw [Frame.isPossessor_shared (show f.possession = .shared from hs)] at hn
    exact Possessors.any_iff.mpr ⟨n, by simpa using hn⟩
  · exact .inr ⟨hn, .inl h⟩

theorem Frame.withPossessor_rest {f : Frame W C} {t : Access} {n : NodeID}
    (hp : f.page.isSome = true) : Rest o n { f.withPossessor t n with holder := none } :=
  (Frame.withPossessor_hot hp).rest

/-- A functor that finds the page in use. -/
theorem hot_of_initialized {t : Access} {n : NodeID} {f : Frame W C} (hr : Rest o n f)
    (hp : f.possession ≠ .nobody) (h : t.functor n o f = .initialized) :
    f.Hot n ∧ (t = .exclusive → f.possession = .exclusive) := by
  have hpos := Access.functor_initialized h
  refine ⟨?_, hpos.2⟩
  rcases hr with ⟨rfl, hs⟩ | ⟨-, hs | ⟨hs, -⟩⟩
  · rcases hs.hot with hh | ⟨-, hh, -⟩
    · exact hh
    · simp [hpos.1] at hh
  · exact hs
  · exact absurd hs.2.1 hp

/-- Where LOCAL_POSSESSION_CHANGE starts from and gets to. -/
theorem localChange_fits {n : NodeID} {t : Access} {f f' : Frame W C} {plan : Plan} {p : Pc C}
    {c : C} {w : W} (hn : n = o) (hs : f.Settled o) (hpos : t.Misses n f)
    (hc : f.localChange n t c = .ok (plan, f'))
    (h : Enters n .localPossessionChange t f'.pVersion plan p) :
    Fits o n { f' with holder := some (.worker w) } p ∧ f'.readers = f.readers := by
  subst hn
  obtain ⟨hlc, hpage⟩ := Frame.localChange_ok hc
  have hsome : f'.page.isSome = true := by
    apply hpage
    rcases hs.hot with hh | ⟨hh, -⟩
    · exact .inl hh.2.2
    · exact .inr hh
  have hev : f.isPossessor n = false → f.state = .evicted := by
    intro hf
    rcases hs.hot with hh | ⟨hh, -⟩
    · simp [hh.2.1] at hf
    · exact hh
  have ground : ∀ f₁ : Frame W C, f₁.possession ≠ .nobody → f₁.page.isSome = true → f₁.Dim n →
      Ground n n { f₁ with holder := some (.worker w) } f₁.pVersion .localPossessionChange :=
    fun f₁ h1 h2 h3 => ⟨rfl, h1, h2, rfl, h3⟩
  cases hlc with
  | displace hx =>
    have hno : f.isPossessor n = false := by
      rcases hpos with hp | ⟨-, hp⟩
      · exact hp
      · exact absurd hx hp
    have hne : f.possessors.toNode ≠ n := by
      intro he
      rw [← Frame.isPossessor_exclusive hx] at he
      simp [he] at hno
    refine ⟨h.fits_move (ground _ (by simp [hx]) hsome (.inl (hev hno))) (.inr rfl)
      (by simp [hne.symm]) (fun _ d hd => Possessors.single_reset _ d hd)
      (fun _ => ⟨hev hno, fun _ d hd => Possessors.single_reset _ d hd, fun _ => hx⟩), rfl⟩
  | collect hx ht hst hany =>
    exact ⟨h.fits_move (ground _ (by simp [hx]) hsome (.inl hst)) (.inr rfl) (by simp)
      (fun hne => absurd ht hne)
      (fun _ => ⟨hst, fun hex => by simp [hx] at hex, fun hne => absurd ht hne⟩), rfl⟩
  | revoke hx ht hst hsame =>
    refine ⟨h.fits_invalidate (ground _ (by simp [hx]) hsome ?_) (by simp) (by simp)
      (fun _ => ht) (by simp) (fun _ _ => hx) (fun _ hne => absurd ht hne), rfl⟩
    rcases hs.hot with hh | ⟨hh, -⟩
    · exact .inr ⟨hh.1, by simp [Frame.isPossessor, hx]⟩
    · exact .inl hh
  | join hx ht hst hany =>
    have hno : f.possessors.test n = false := by
      rw [← Frame.isPossessor_shared hx]
      exact (hs.of_evicted hst).1
    exact ⟨h.fits_copy (ground _ (by simp [hx]) hsome (.inl hst)) (.inr rfl) ht
      (fun _ => ⟨hst, hx, rfl, hno, hany⟩), rfl⟩

theorem WorkerStep.nodes [DecidableEq W] (hk : s.known = true) (h : Nodes o node s)
    (st : WorkerStep cfg o node s s') : Nodes o node s' := by
  cases st with
  | start _ hpc =>
    exact h.setPc (by simp [hpc, Pc.latched]) (by simp [hpc, Pc.shares]) rfl rfl (by simp)
      (by simp [Pc.stamp])
  | @insert w t c hpc hf =>
    refine h.latch (by simp [hf]) (by simp) rfl rfl ?_
    by_cases ho : node w = o
    · simp only [ho, ↓reduceIte]
      exact ⟨rfl, ⟨rfl, rfl, rfl, rfl⟩, rfl⟩
    · simp only [ho, ↓reduceIte]
      exact ⟨ho, ⟨rfl, rfl, rfl, rfl⟩⟩
  | @peek w t f hpc hf hfree hmh =>
    refine h.setPc (by simp [hpc, Pc.latched]) (by simp [hpc, Pc.shares]) rfl rfl (by simp) ?_
    intro v hv
    obtain rfl := Option.some.inj hv
    refine .inr ⟨rfl, f, hf, hfree, ?_, by simp [Pc.trusts]⟩
    rcases (h (node w)).rest f hf hfree with ⟨-, hs⟩ | ⟨-, hs | ⟨hs, -⟩⟩
    · exact hs.possession
    · exact hs.possession_ne
    · simp [hs.2.2.2] at hmh
  | retry hpc =>
    exact h.setPc (by simp [hpc, Pc.latched]) (by simp [hpc, Pc.shares]) rfl rfl (by simp)
      (by simp [Pc.stamp])
  | @undo n f hf hl =>
    exact h.anon (by simp [hf, hl]) (h.provider_idle hf hl)
      (by simpa [hl.1, hl.2] using (h n).rest f hf hl.1) (by simp)
  | @hitExclusive w v f hpc hf hv hl hfun =>
    have hcur := h.current (by simp [hpc, Pc.stamp]) hv hf
    have hhot := hot_of_initialized ((h (node w)).rest f hf hcur.1) hcur.2.1 hfun
    exact h.latch (by simp [hf, hl]) (by simp) rfl hl.2 ⟨hhot.1, hhot.2 rfl⟩
  | @hitShared w v f hpc hf hv hfree hfun =>
    have hcur := h.current (by simp [hpc, Pc.stamp]) hv hf
    have hhot := hot_of_initialized ((h (node w)).rest f hf hcur.1) hcur.2.1 hfun
    exact h.addReader hf hfree hhot.1 hv
  | @hitOptimistic w v f hpc hf hv hfree hfun =>
    have hcur := h.current (by simp [hpc, Pc.stamp]) hv hf
    have hhot := hot_of_initialized ((h (node w)).rest f hf hcur.1) hcur.2.1 hfun
    refine h.setPc (by simp [hpc, Pc.latched]) (by simp [hpc, Pc.shares]) rfl rfl (by simp) ?_
    intro v' hv'
    obtain rfl := Option.some.inj hv'
    exact .inr ⟨hv.symm, f, hf, hfree, hcur.2.1, fun _ => hhot.1⟩
  | @changeLocal w t v f plan f' p c hpc hf hv hl hfun hc hp =>
    obtain ⟨hn, hmiss⟩ := Access.functor_local hfun
    have hs := h.settled (hn ▸ hf) hl.1
    obtain ⟨hfit, hr⟩ := localChange_fits (w := w) hn hs hmiss hc hp
    exact h.latch (by simp [hf, hl]) (by simp) rfl (hr.trans hl.2) hfit
  | @changeRemote w t v f old f' hpc hf hv hl hfun hc =>
    obtain ⟨hn, -⟩ := Access.functor_remote hfun
    have hcur := h.current (by simp [hpc, Pc.stamp]) hv hf
    obtain ⟨hx, hst, rfl, rfl⟩ := Frame.remoteChange_ok hc
    have hhot : f.Hot (node w) := by
      rcases (h (node w)).rest f hf hcur.1 with ⟨ho, -⟩ | ⟨-, hs | ⟨hs, -⟩⟩
      · exact absurd ho hn
      · exact hs
      · exact absurd hs.2.1 hcur.2.1
    exact h.latch (by simp [hf, hl]) (by simp) rfl hl.2 ⟨hn, hhot, hx, rfl⟩
  | @load w t f hpc hf =>
    obtain ⟨-, -, hn, ⟨h1, h2, h3, -⟩, hv⟩ := h.fits hpc rfl hf
    exact h.own hf (by simp [hpc, Pc.latched]) rfl rfl
      ⟨⟨hn, ⟨h1, h2, h3, rfl⟩, hv, hv⟩, by simp, by simp⟩
  | @receive w t r f plan p hpc hf hplan hp =>
    obtain ⟨-, -, hn, hb, hr⟩ := h.fits hpc rfl hf
    exact h.own hf (by simp [hpc, Pc.latched]) rfl rfl (plan_fits hplan hr hp ⟨hn, hb, rfl⟩)
  | @completeExclusive w g e f f' hpc hf hc =>
    obtain ⟨-, -, hfit⟩ := h.fits hpc rfl hf
    rw [Frame.complete_eq] at hc
    obtain rfl := Except.ok.inj hc
    exact h.own hf (by simp [hpc, Pc.latched]) rfl rfl
      ⟨f.withPossessor_hot (t := .exclusive) (n := node w) hfit.page_of_complete, rfl⟩
  | @completeShared w g e f f' hpc hf hc =>
    obtain ⟨-, -, hfit⟩ := h.fits hpc rfl hf
    rw [Frame.complete_eq] at hc
    obtain rfl := Except.ok.inj hc
    have hpage := hfit.page_of_complete
    refine h.unlatch hf (by simp [hpc, Pc.latched]) ?_ (by simp) rfl rfl (by simp) ?_
    · rintro _ ⟨rfl⟩
      exact ⟨rfl, rfl, Frame.withPossessor_rest hpage⟩
    · rintro v ⟨rfl⟩
      exact ⟨rfl, _, rfl, by simp [Frame.withPossessor, Access.desired],
        fun _ => f.withPossessor_hot (t := .shared) (n := node w) hpage⟩
  | @completeOptimistic w g e f f' hpc hf hc =>
    obtain ⟨-, -, hfit⟩ := h.fits hpc rfl hf
    rw [Frame.complete_eq] at hc
    obtain rfl := Except.ok.inj hc
    have hpage := hfit.page_of_complete
    refine h.unlatch hf (by simp [hpc, Pc.latched]) ?_ (by simp) rfl rfl (by simp) ?_
    · rintro _ ⟨rfl⟩
      exact ⟨rfl, rfl, Frame.withPossessor_rest hpage⟩
    · rintro v ⟨rfl⟩
      exact ⟨rfl, _, rfl, by simp [Frame.withPossessor, Access.desired],
        fun _ => f.withPossessor_hot (t := .optimistic) (n := node w) hpage⟩
  | @completeDiscarded w g e f f' hpc hf hc =>
    obtain ⟨-, -, hfit⟩ := h.fits hpc rfl hf
    rw [Frame.complete_eq] at hc
    obtain rfl := Except.ok.inj hc
    have hpage := hfit.page_of_complete
    refine h.unlatch hf (by simp [hpc, Pc.latched]) ?_ (by simp) rfl rfl (by simp) ?_
    · rintro _ ⟨rfl⟩
      exact ⟨rfl, rfl, Frame.withPossessor_rest hpage⟩
    · rintro v ⟨⟩
  | @downgraded w v again f hpc hf hv hfree =>
    have hcur := h.current (by simp [hpc, Pc.stamp]) hv hf
    exact h.addReader hf hfree (hcur.2.2 (by simp [hpc, Pc.trusts])) hv
  | @downgradeFailed w v again hpc =>
    cases again <;>
      exact h.setPc (by simp [hpc, Pc.latched]) (by simp [hpc, Pc.shares]) rfl rfl (by simp)
        (by simp [Pc.stamp])
  | @updateFailed w t old f hpc hf =>
    obtain ⟨-, -, ⟨hn, hhot, hx, hv⟩, -⟩ := h.fits hpc rfl hf
    refine h.unlatch hf (by simp [hpc, Pc.latched]) ?_ (by simp) rfl rfl (by simp)
      (by simp [Pc.stamp])
    rintro _ ⟨rfl⟩
    exact ⟨rfl, rfl, .inr ⟨hn, .inl hhot⟩⟩
  | @updateDone w t old e f hpc hf hv =>
    obtain ⟨-, -, ⟨hn, hhot, hx, -⟩, -⟩ := h.fits hpc rfl hf
    exact h.own_pc hf (by simp [hpc, Pc.latched]) ⟨⟨hn, hhot, hx, hv⟩, by simp, by simp⟩
  | @updateConflict w t old e shared f p hpc hf hv hp =>
    obtain ⟨-, -, ⟨hn, hhot, hx, -⟩, hr⟩ := h.fits hpc rfl hf
    exact h.own_pc hf (by simp [hpc, Pc.latched])
      (hp.fits_invalidate ⟨hn, hhot, hx, hv⟩ (by simp) (by simp [hr.2]) (by simp) (by simp)
        (by simp) (by simp))
  | @copyAgain w t e shared f p hpc hf hmh hp =>
    obtain ⟨-, -, hg, -, ht, -⟩ := h.fits hpc rfl hf
    exact h.own_pc hf (by simp [hpc, Pc.latched]) (hp.fits_copy hg (.inl rfl) ht (by simp))
  | @copyAbandoned w t e shared f hpc hf hmh =>
    obtain ⟨-, hr, ⟨hn, hb, -⟩, -⟩ := h.fits hpc rfl hf
    refine h.unlatch hf (by simp [hpc, Pc.latched]) ?_ (by simp) rfl rfl (by simp)
      (by simp [Pc.stamp])
    rintro _ ⟨rfl⟩
    exact ⟨rfl, rfl, .inr ⟨hn, .inr ⟨⟨hb.1, hb.2.1, hb.2.2.2, hmh⟩, hr⟩⟩⟩
  | @copyAbandonedLocal w t e shared f hpc hf hst =>
    obtain ⟨-, -, ⟨hn, hne, -, -, -⟩, -, -, hl⟩ := h.fits hpc rfl hf
    obtain ⟨-, hx, rfl, hno, hany⟩ := hl rfl
    refine h.unlatch hf (by simp [hpc, Pc.latched]) ?_ (by simp) rfl rfl (by simp)
      (by simp [Pc.stamp])
    rintro _ ⟨rfl⟩
    rw [← Frame.isPossessor_shared hx] at hno
    exact ⟨rfl, rfl, .inl ⟨hn, ⟨hne, .inr ⟨hst, hno, rfl⟩, fun _ => hany⟩⟩⟩
  | @write w f c hpc hf =>
    obtain ⟨-, -, hhot, hx⟩ := h.fits hpc rfl hf
    have hfit : Fits o (node w) { f with page := some c } (.guardX : Pc C) :=
      ⟨⟨hhot.1, hhot.2.1, rfl⟩, hx⟩
    have hown : Nodes o node
        ((s.setFrame (node w) (some { f with page := some c }) 0).setPc w .guardX) :=
      h.own hf (by simp [hpc, Pc.latched]) rfl rfl hfit
    refine hown.congr rfl rfl rfl ?_
    simp [← hpc]
  | @read w v seen c hpc hc =>
    have hst := (h (node w)).stamp w v rfl (by simp [hpc, Pc.stamp])
    refine h.setPc (by simp [hpc, Pc.latched]) (by simp [hpc, Pc.shares]) rfl rfl (by simp) ?_
    rintro _ ⟨rfl⟩
    simpa [hpc, Pc.trusts] using hst
  | @releaseExclusive w f hpc hf =>
    obtain ⟨-, -, hhot, -⟩ := h.fits hpc rfl hf
    refine h.unlatch hf (by simp [hpc, Pc.latched]) ?_ (by simp) rfl rfl (by simp)
      (by simp [Pc.stamp])
    rintro _ ⟨rfl⟩
    exact ⟨rfl, rfl, hhot.rest⟩
  | @releaseShared w v f hpc hf => exact h.dropReader hf hpc (.inl rfl)
  | releaseOptimistic hpc =>
    exact h.setPc (by simp [hpc, Pc.latched]) (by simp [hpc, Pc.shares]) rfl rfl (by simp)
      (by simp [Pc.stamp])
  | @exclusiveToShared w f hpc hf =>
    obtain ⟨-, -, hhot, -⟩ := h.fits hpc rfl hf
    refine h.unlatch hf (by simp [hpc, Pc.latched]) ?_ (by simp) rfl rfl (by simp) ?_
    · rintro _ ⟨rfl⟩
      exact ⟨rfl, rfl, hhot.rest⟩
    · rintro v ⟨rfl⟩
      exact ⟨rfl, _, rfl, hhot.possession_ne, fun _ => hhot⟩
  | @exclusiveToOptimistic w f hpc hf =>
    obtain ⟨-, -, hhot, -⟩ := h.fits hpc rfl hf
    refine h.unlatch hf (by simp [hpc, Pc.latched]) ?_ (by simp) rfl rfl (by simp) ?_
    · rintro _ ⟨rfl⟩
      exact ⟨rfl, rfl, hhot.rest⟩
    · rintro v ⟨rfl⟩
      exact ⟨rfl, _, rfl, hhot.possession_ne, fun _ => hhot⟩
  | @sharedToOptimistic w v f hpc hf => exact h.dropReader hf hpc (.inr rfl)
  | @optimisticToShared w v seen f hpc hf hfree hv =>
    have hcur := h.current (by simp [hpc, Pc.stamp]) hv hf
    exact h.addReader hf hfree (hcur.2.2 (by simp [hpc, Pc.trusts])) hv
  | newPage _ hk' => simp [hk] at hk'
  | @allocate w c hpc hf => exact absurd hpc ((h (node w)).allocated w rfl)
  | @reclaimPage w f _ hpc hf =>
    exact h.unlatch hf (by simp [hpc, Pc.latched]) (by simp) (by simp) rfl rfl (by simp)
      (by simp [Pc.stamp])

/-! ## Message handlers -/

/-- The owner's frame after a possession request, and the answer. -/
theorem Grant.settled {m : NodeID} {f f' : Frame W C} {d : Possession} {r : Response}
    {page : Option C} {t : Access} (hs : f.Settled o) (hm : m ≠ o)
    (g : Grant o m f d (r, page) f') (ht : t.desired = d) :
    f'.Settled o ∧ f'.holder = f.holder ∧ f'.readers = f.readers ∧ r.Fits o t := by
  have hx : d = .exclusive → t = .exclusive := by
    rintro rfl
    cases t <;> first | rfl | cases ht
  have hns : d = .shared → t ≠ .exclusive := by
    rintro rfl rfl
    cases ht
  cases g with
  | downgrade hpos ho hst hpage =>
    exact ⟨⟨by simp, .inl ⟨hst, by simp [Frame.isPossessor], by simp [hpage]⟩,
      fun _ => Possessors.any_iff.mpr ⟨m, by simp⟩⟩, rfl, rfl, trivial⟩
  | displace hpos ho hst =>
    have hnone := (hs.of_evicted hst).2
    exact ⟨⟨by simp, .inr ⟨hst, by simp [Frame.isPossessor, hm.symm], hnone⟩,
      fun _ => Possessors.any_iff.mpr ⟨m, by simp⟩⟩, rfl, rfl, by simpa [Response.Fits] using ho⟩
  | join hpos hno ho hst =>
    have hnone := (hs.of_evicted hst).2
    exact ⟨⟨by simp [hpos], .inr ⟨hst, by simp [Frame.isPossessor, hpos, ho, hm.symm], hnone⟩,
      fun _ => Possessors.any_iff.mpr ⟨m, by simp⟩⟩, rfl, rfl, hns rfl⟩
  | share hpos hno hst hpage =>
    have ho : f.possessors.test o = true := by
      rw [← Frame.isPossessor_shared hpos]
      exact (hs.of_hot hst).2.1
    exact ⟨⟨by simp [hpos], .inl ⟨hst, by simp [Frame.isPossessor, hpos, ho], by simp [hpage]⟩,
      fun _ => Possessors.any_iff.mpr ⟨m, by simp⟩⟩, rfl, rfl, trivial⟩
  | collect hpos hany hst =>
    have hnone := (hs.of_evicted hst).2
    exact ⟨⟨by simp, .inr ⟨hst, by simp [Frame.isPossessor, hm], hnone⟩, by simp⟩, rfl, rfl,
      ⟨hx rfl, by simp⟩⟩
  | revoke hpos hany hst hpage =>
    exact ⟨⟨by simp, .inr ⟨rfl, by simp [Frame.isPossessor, hm], rfl⟩, by simp⟩, rfl, rfl,
      ⟨hx rfl, by simp⟩⟩
  | give hpos hst hpage =>
    exact ⟨⟨by simp, .inr ⟨rfl, by simp [Frame.isPossessor, hm], rfl⟩, by simp⟩, rfl, rfl,
      trivial⟩
  | replace hpos ho hno hst =>
    have hnone := (hs.of_evicted hst).2
    exact ⟨⟨by simp [hpos], .inr ⟨hst, by simp [Frame.isPossessor, hpos, hm], hnone⟩,
      by simp [hpos]⟩, rfl, rfl, by simpa [Response.Fits] using ho⟩

/-- The worker's own frame after the node `c` has answered. -/
theorem Frame.forget_fits {n c : NodeID} {g : GuardState} {t : Access} {e : Nat}
    {shared : Possessors} {p : Pc C} {f : Frame W C} {page : Option C} (hx : page.isSome = true)
    (h : Enters n g t e (.invalidate shared) p) (hg : Ground o n f e g) (hssd : g ≠ .ssd)
    (ho : shared.test o = false) (ht : shared.any = true → t = .exclusive)
    (hr : g = .remotePossessionChange → t = .exclusive)
    (hsh : shared.any = true → g = .localPossessionChange → f.possession = .shared)
    (hev : g = .localPossessionChange → f.possession = .exclusive → f.state = .evicted)
    (hl : g = .localPossessionChange → t ≠ .exclusive → f.possession = .exclusive) :
    Fits o n { f.forget g c with page := page } p := by
  by_cases hloc : g = .localPossessionChange
  · subst hloc
    obtain ⟨hn, hne, -, hv, hdim⟩ := hg
    rcases hpos : f.possession with _ | _ | _
    · exact absurd hpos hne
    · refine h.fits_invalidate ?_ hssd ho ht hr ?_ ?_
      · simp only [Frame.forget, hpos, ↓reduceIte]
        exact ⟨hn, by simp, hx, hv, .inl (hev rfl hpos)⟩
      · intro hany
        simp [hsh hany rfl] at hpos
      · intro _ _
        simp [Frame.forget, hpos]
    · refine h.fits_invalidate ?_ hssd ho ht hr ?_ ?_
      · simp only [Frame.forget, hpos, ↓reduceIte]
        refine ⟨hn, by simp, hx, hv, ?_⟩
        rcases hdim with hd | ⟨hd, hd'⟩
        · exact .inl hd
        · rw [Frame.isPossessor_shared hpos] at hd'
          exact .inr ⟨hd, by simp [Frame.isPossessor, hd']⟩
      · intro _ _
        simp [Frame.forget, hpos]
      · intro _ hne'
        simp [hl rfl hne'] at hpos
  · have hsame : f.forget g c = f := by simp [Frame.forget, hloc]
    rw [hsame]
    refine h.fits_invalidate ?_ hssd ho ht hr (fun _ hl' => absurd hl' hloc)
      (fun hl' => absurd hl' hloc)
    cases g with
    | initialized => exact hg.elim
    | ssd => exact absurd rfl hssd
    | remote => exact ⟨hg.1, ⟨hg.2.1.1, hg.2.1.2.1, hg.2.1.2.2.1, hx⟩, hg.2.2⟩
    | localPossessionChange => exact absurd rfl hloc
    | remotePossessionChange => exact ⟨hg.1, ⟨hg.2.1.1, hg.2.1.2.1, hx⟩, hg.2.2⟩

theorem Frame.forget_latch {f : Frame W C} {g : GuardState} {c : NodeID} :
    (f.forget g c).holder = f.holder ∧ (f.forget g c).readers = f.readers := by
  unfold Frame.forget
  split
  · split <;> exact ⟨rfl, rfl⟩
  · exact ⟨rfl, rfl⟩

theorem HandlerStep.nodes [DecidableEq W] (hk : s.known = true) (h : Nodes o node s)
    (st : HandlerStep o node s s') : Nodes o node s' := by
  cases st with
  | @requestLoad w t hpc hf =>
    refine h.anon (by simp [hf]) h.provider_owner ?_ (by simp)
    rintro _ ⟨rfl⟩
    have hhot : (ssdFrame o s.disk : Frame W C).Hot o :=
      ⟨rfl, by simp [ssdFrame, Frame.isPossessor], rfl⟩
    refine ⟨rfl, .inr ⟨.inl rfl, rfl, hhot, ⟨by simp [ssdFrame], .inl hhot, fun _ => ?_⟩⟩⟩
    exact Possessors.any_iff.mpr ⟨o, by simp [ssdFrame]⟩
  | @loaded f hf hh =>
    obtain ⟨-, -, hs⟩ := (h o).system f hf (.inl hh)
    refine h.anon (by simp [hf, hh]) h.provider_owner ?_ (by simp)
    rintro _ ⟨rfl⟩
    exact ⟨(h o).excl f hf (by simp [hh]),
      .inl ⟨rfl, .inl ⟨rfl, ⟨hs.possession, hs.hot, hs.shared⟩⟩⟩⟩
  | @request w t f r page f' own hpc hf hl hc hown =>
    obtain ⟨-, -, hn, hb⟩ := h.fits hpc rfl hown
    obtain ⟨hs', hh', hr', hfit⟩ :=
      (Frame.handlePossessionRequest_grant hc).settled (h.settled hf hl.1) hn rfl
    have h1 : Nodes o node (s.setFrame o (some f') 4) := by
      refine h.anon (by simp [hf, hl]) h.provider_owner ?_ (by simp)
      rintro _ ⟨rfl⟩
      exact ⟨hr'.trans hl.2, .inl ⟨hh'.trans hl.1, .inl ⟨rfl, hs'⟩⟩⟩
    refine h1.own (f := own) (by simp [hn, hown]) (by simp [hpc, Pc.latched]) rfl rfl ?_
    refine ⟨hn, ⟨hb.1, hb.2.1, hb.2.2.1, ?_⟩, hfit⟩
    cases page with
    | none => exact hb.2.2.2
    | some x => rfl
  | @move w g t e c rest f x own p hpc hf hl hx hown hp =>
    obtain ⟨-, -, hg, hway, hc, ho, -, ht, hloc⟩ := h.fits hpc rfl hown
    have hcw : c ≠ node w := h.ne_of_latchable (by simp [hpc, Pc.latched]) hf hl
    have h1 : Nodes o node (s.setFrame c none 4) :=
      h.anon (by simp [hf, hl]) (h.provider_idle hf hl) (by simp) (by simp)
    refine h1.own (f := own) (by simp [hcw.symm, hown]) (by simp [hpc, Pc.latched])
      Frame.forget_latch.1 Frame.forget_latch.2 ?_
    refine Frame.forget_fits rfl hp hg ?_ ho ?_ ?_ ?_ (fun hl' _ => (hloc hl').1)
      (fun hl' => (hloc hl').2.2)
    · rcases hway with rfl | rfl <;> simp
    · intro hany
      by_contra hne
      simp [ht hne] at hany
    · rintro rfl
      rcases hway with hw | hw <;> cases hw
    · intro hany hl'
      rcases hpos : own.possession with _ | _ | _
      · subst hl'
        exact absurd hpos hg.2.1
      · simp [(hloc hl').2.1 hpos] at hany
      · rfl
  | @invalidate w g t e pending c f x own p hpc hc hf hl hx hown hp =>
    obtain ⟨-, -, hg, hssd, ht, ho, hany, hsh⟩ := h.fits hpc rfl hown
    have hcw : c ≠ node w := h.ne_of_latchable (by simp [hpc, Pc.latched]) hf hl
    have h1 : Nodes o node (s.setFrame c none 4) :=
      h.anon (by simp [hf, hl]) (h.provider_idle hf hl) (by simp) (by simp)
    have hpage : own.page.isSome = true := by
      cases g with
      | initialized => exact hg.elim
      | ssd => exact absurd rfl hssd
      | remote => exact hg.2.1.2.2.2
      | localPossessionChange => exact hg.2.2.1
      | remotePossessionChange => exact hg.2.1.2.2
    have hfit := Frame.forget_fits (c := c) (f := own) hpage hp hg hssd (by simp [ho])
      (fun _ => ht) (fun _ => ht) (fun _ => hsh)
      (fun hl' hpos => by simp [hsh hl'] at hpos) (fun _ hne => absurd ht hne)
    have hsame : { own.forget g c with page := own.page } = own.forget g c := by
      unfold Frame.forget
      split
      · split <;> rfl
      · rfl
    rw [hsame] at hfit
    exact h1.own (f := own) (by simp [hcw.symm, hown]) (by simp [hpc, Pc.latched])
      Frame.forget_latch.1 Frame.forget_latch.2 hfit
  | @invalidateRetry w g t e pending c f hpc hc hf => exact h.flag hf (.inl rfl)
  | @copy w g t e shared c f x own hpc hf hfree hcopy hown =>
    obtain ⟨-, -, hg, hway, ht, hloc⟩ := h.fits hpc rfl hown
    refine h.own hown (by simp [hpc, Pc.latched]) rfl rfl ?_
    rcases hway with rfl | rfl
    · exact ⟨⟨hg.1, ⟨hg.2.1.1, hg.2.1.2.1, hg.2.1.2.2.1, rfl⟩, hg.2.2⟩, by simp, by simp⟩
    · obtain ⟨-, hx, rfl, -, hany⟩ := hloc rfl
      exact ⟨⟨hg.1, hg.2.1, rfl, hg.2.2.2⟩, by simp, fun _ _ => .inr ⟨hx, hany⟩⟩
  | @copyFailed w g t e shared c hpc =>
    obtain ⟨own, hown, -⟩ := (h (node w)).holds w rfl (by simp [hpc, Pc.latched])
    obtain ⟨-, -, hfit⟩ := h.fits hpc rfl hown
    exact h.own_pc hown (by simp [hpc, Pc.latched]) hfit
  | @update w t old f r f' hpc hf hl hc =>
    obtain ⟨own, hown, -⟩ := (h (node w)).holds w rfl (by simp [hpc, Pc.latched])
    obtain ⟨-, -, hfit⟩ := h.fits hpc rfl hown
    have hn : node w ≠ o := hfit.1
    have hs := h.settled hf hl.1
    obtain ⟨-, -, -, rfl, rfl⟩ := Frame.handleUpdate_ok hc
    have h1 : Nodes o node (s.setFrame o (some { f with
        pVersion := old + 1, possession := .exclusive, possessors := .ofNode (node w),
        state := .evicted, page := if f.state = .evicted then f.page else none,
        dirty := true, mhWaiting := false }) 4) := by
      refine h.anon (by simp [hf, hl]) h.provider_owner ?_ (by simp)
      rintro _ ⟨rfl⟩
      refine ⟨hl.2, .inl ⟨hl.1, .inl ⟨rfl, ⟨by simp, .inr ⟨rfl, ?_, ?_⟩, by simp⟩⟩⟩⟩
      · simp [Frame.isPossessor, hn]
      · split
        · exact (hs.of_evicted ‹_›).2
        · rfl
    refine h1.own_pc (f := own) (by simp [hn, hown]) (by simp [hpc, Pc.latched]) ⟨hfit, ?_⟩
    split <;> simp [UpdateResponse.Fits]
  | @updateFailed w t old f k hpc hf hv hk' =>
    obtain ⟨own, hown, -⟩ := (h (node w)).holds w rfl (by simp [hpc, Pc.latched])
    obtain ⟨-, -, hfit⟩ := h.fits hpc rfl hown
    have hn : node w ≠ o := hfit.1
    have h1 : Nodes o node (s.setFrame o (some { f with mhWaiting := false }) k) := by
      rcases hk' with rfl | ⟨rfl, hl⟩
      · exact h.flag hf (.inr rfl)
      · have hs := h.settled hf hl.1
        refine h.anon (by simp [hf, hl]) h.provider_owner ?_ (by simp)
        rintro _ ⟨rfl⟩
        exact ⟨hl.2, .inl ⟨hl.1, .inl ⟨rfl, hs.possession, hs.hot, hs.shared⟩⟩⟩
    exact h1.own_pc (f := own) (by simp [hn, hown]) (by simp [hpc, Pc.latched]) ⟨hfit, trivial⟩
  | @updateRetry w t old f hpc hf hv => exact h.flag hf (.inl rfl)
  | allocation hk' => simp [hk] at hk'

/-! ## Page providers -/

/-- The page provider goes on with a frame it has latched. -/
theorem NodeOK.reprovide {n : NodeID} {p : Provider} (h : NodeOK o node s n)
    (h₀ : s.provider n ≠ .idle) (hp : p = .acked ∨ p = .refused) :
    NodeOK o node (s.setProvider n p) n := by
  have hnew : (s.setProvider n p).provider n = p := by simp
  have hidle : p ≠ .idle ∧ ∀ v, p ≠ .offered v := by
    rcases hp with rfl | rfl <;> simp
  obtain ⟨h1, h2, h3, h4, h5, h6, h7, h8, h9, h10, h11⟩ := h
  refine ⟨h1, h2, h3, ?_, fun _ => h5 h₀, h6, h7, h8, h9, h10, h11⟩
  intro f hf hh
  obtain ⟨hn, hhot, -, -⟩ := h4 f hf hh
  exact ⟨hn, hhot, by rw [hnew]; exact hidle.1, fun v hv => absurd (hnew ▸ hv) (hidle.2 v)⟩

theorem Nodes.reprovide {n : NodeID} {p : Provider} (h : Nodes o node s)
    (h₀ : s.provider n ≠ .idle) (hp : p = .acked ∨ p = .refused) :
    Nodes o node (s.setProvider n p) := by
  intro m
  by_cases hm : m = n
  · subst hm
    exact (h m).reprovide h₀ hp
  · exact (h m).congr rfl rfl (by simp [hm]) (fun w _ => rfl)

/-- The page provider takes a frame, or gives it back or removes it. -/
theorem Nodes.provide {n : NodeID} {fr : Option (Frame W C)} {p : Provider} {k : Nat}
    (h : Nodes o node s)
    (hfree : ∀ f, s.frame n = some f → f.Latchable ∨ f.holder = some .provider)
    (hnew : ∀ f', fr = some f' → f'.readers = ∅ ∧
      ((p = .idle ∧ f'.holder = none ∧ Rest o n f') ∨
        (f'.holder = some .provider ∧ n ≠ o ∧ f'.Hot n ∧ p = .offered f'.pVersion)))
    (hp : p ≠ .idle → ∃ f', fr = some f' ∧ f'.holder = some .provider) (hk : 0 < k) :
    Nodes o node ((s.setFrame n fr k).setProvider n p) := by
  intro m
  by_cases hm : m = n
  · subst hm
    refine (h m).anon ?_ ?_ ?_ ?_ (by simpa using hp) ?_ (by simpa using hk) (fun w _ => rfl)
    · intro f hf
      rcases hfree f hf with ⟨hh, hr⟩ | hh
      · exact ⟨hr, by simp [hh]⟩
      · exact ⟨(h m).excl f hf (by simp [hh]), by simp [hh]⟩
    all_goals simp only [PageState.setFrame_frame, Function.update_self,
      PageState.setProvider_frame, PageState.setProvider_provider]
    · intro f' hf'
      obtain ⟨hr, ⟨-, hh, -⟩ | ⟨hh, -⟩⟩ := hnew f' hf' <;> exact ⟨hr, by simp [hh]⟩
    · intro f' hf' hh'
      obtain ⟨-, ⟨-, -, hrest⟩ | ⟨hh, -⟩⟩ := hnew f' hf'
      · exact hrest
      · simp [hh] at hh'
    · intro f' hf' hh'
      obtain ⟨-, ⟨-, hh, -⟩ | ⟨-, hn, hhot, hoff⟩⟩ := hnew f' hf'
      · simp [hh] at hh'
      · exact ⟨hn, hhot, by simp [hoff], by simp [hoff]⟩
    · intro f' hf' hh'
      obtain ⟨-, ⟨-, hh, -⟩ | ⟨hh, -⟩⟩ := hnew f' hf' <;> simp [hh] at hh'
  · exact (h m).congr (by simp [hm]) (by simp [hm]) (by simp [hm]) (fun w _ => rfl)

theorem Frame.Settled.retrieved {f : Frame W C} (h : f.Settled o) (x : C) :
    (f.retrieved x).isSome = true := by
  unfold Frame.retrieved
  rcases h.hot with ⟨hst, -, hp⟩ | ⟨hst, -⟩
  · simpa [hst] using hp
  · simp [hst]

/-- The owner's frame after an answer of the page provider. -/
theorem Answer.settled {ssd : Bool} {n : NodeID} {x : C} {f f' : Frame W C} {ev : Eviction W C}
    (hs : f.Settled o) (hn : n ≠ o) (hl : f.Latchable) (h : Answer ssd o n x f ev)
    (hf' : ev.frame = some f') : f'.readers = ∅ ∧ ((f'.holder = none ∧ Rest o o f') ∨
      ((f'.holder = some .handler ∨ f'.holder = some .retriever) ∧
        o = o ∧ f'.Hot o ∧ f'.Settled o)) := by
  cases h with
  | retrieveExclusive hpos _ =>
    obtain rfl := Option.some.inj hf'
    have hhot : Frame.Hot { f with
        possessors := .ofNode o, page := f.retrieved x, state := .hot, dirty := true,
        holder := some .retriever } o := ⟨rfl, by simp [Frame.isPossessor, hpos], hs.retrieved x⟩
    exact ⟨hl.2, .inr ⟨.inr rfl, rfl, hhot, ⟨by simp [hpos], .inl hhot, by simp [hpos]⟩⟩⟩
  | retrieveShared hpos _ =>
    obtain rfl := Option.some.inj hf'
    have hhot : Frame.Hot { f with
        possessors := (f.possessors.reset n).set o, page := f.retrieved x, state := .hot,
        dirty := true, holder := some .retriever } o :=
      ⟨rfl, by simp [Frame.isPossessor, hpos], hs.retrieved x⟩
    exact ⟨hl.2, .inr ⟨.inr rfl, rfl, hhot, ⟨by simp [hpos], .inl hhot,
      fun _ => Possessors.any_iff.mpr ⟨o, by simp⟩⟩⟩⟩
  | keep hpos hany _ =>
    obtain rfl := Option.some.inj hf'
    refine ⟨hl.2, .inl ⟨hl.1, .inl ⟨rfl, ⟨by simp [hpos], ?_, fun _ => hany⟩⟩⟩⟩
    rcases hs.hot with ⟨h1, h2, h3⟩ | ⟨h1, h2, h3⟩
    · rw [Frame.isPossessor_shared hpos] at h2
      exact .inl ⟨h1, by simp [Frame.isPossessor, hpos, h2, hn.symm], h3⟩
    · rw [Frame.isPossessor_shared hpos] at h2
      exact .inr ⟨h1, by simp [Frame.isPossessor, hpos, h2], h3⟩
  | remove => cases hf'

theorem OwnerEviction.settled {ssd : Bool} {f f' : Frame W C} {ev : Eviction W C}
    (hs : f.Settled o) (hl : f.Latchable) (h : OwnerEviction o ssd f ev)
    (hf' : ev.frame = some f') : f'.readers = ∅ ∧ f'.holder = none ∧ Rest o o f' := by
  cases h with
  | unlatch =>
    obtain rfl := Option.some.inj hf'
    exact ⟨hl.2, hl.1, .inl ⟨rfl, hs⟩⟩
  | remove => cases hf'
  | evict hst hpos hany =>
    obtain rfl := Option.some.inj hf'
    exact ⟨hl.2, hl.1, .inl ⟨rfl, ⟨by simp [hpos],
      .inr ⟨rfl, by simp [Frame.isPossessor, hpos], rfl⟩, fun _ => hany⟩⟩⟩

theorem Eviction.bump_pos (ev : Eviction W C) : 0 < ev.bump := by
  cases ev <;> simp [Eviction.bump]

theorem ProviderStep.nodes [DecidableEq W] (h : Nodes o node s)
    (st : ProviderStep cfg o s s') : Nodes o node s' := by
  cases st with
  | @select n f _ hn hf hl hst hp =>
    have hhot : f.Hot n := by
      rcases (h n).rest f hf hl.1 with ⟨ho, -⟩ | ⟨-, hs | ⟨hs, -⟩⟩
      · exact absurd ho hn
      · exact hs
      · exact absurd hs.1 (by simp [hst])
    refine h.provide (by simp [hf, hl]) ?_ (by simp) (by simp)
    rintro _ ⟨rfl⟩
    exact ⟨hl.2, .inr ⟨rfl, hn, hhot, rfl⟩⟩
  | refuse hp => exact h.reprovide (by simp [hp]) (.inr rfl)
  | @accept n v f ev c hp hf hl _ _ hc =>
    have hn : n ≠ o := by
      rintro rfl
      simp [h.provider_owner] at hp
    have h1 : Nodes o node (s.setFrame o ev.frame ev.bump) :=
      h.anon (by simp [hf, hl]) h.provider_owner
        (fun f' hf' => (Frame.answerEviction_ok hc).settled (h.settled hf hl.1) hn hl hf')
        ev.bump_pos
    have h2 := h1.reprovide (n := n) (by simp [hp]) (.inl rfl)
    exact h2.congr rfl rfl rfl rfl
  | @landed n f g x _ hf hh =>
    obtain ⟨-, hhot, -⟩ := (h o).system f hf (.inr hh)
    have h1 : Nodes o node (s.setFrame o (some { f with page := some x }) 0) := h.page hf hhot.2.2
    exact h1.congr rfl rfl rfl rfl
  | overlooked => exact h.congr rfl rfl rfl rfl
  | @retrieved f hf hh =>
    obtain ⟨-, -, hs⟩ := (h o).system f hf (.inr hh)
    refine h.anon (by simp [hf, hh]) h.provider_owner ?_ (by simp)
    rintro _ ⟨rfl⟩
    exact ⟨(h o).excl f hf (by simp [hh]),
      .inl ⟨rfl, .inl ⟨rfl, ⟨hs.possession, hs.hot, hs.shared⟩⟩⟩⟩
  | @applyAcked n f hp _ hf =>
    obtain ⟨f₁, hf₁, hh⟩ := (h n).provides (by simp [hp])
    exact h.provide (by simp [hf₁, hh]) (by simp) (by simp) (by simp)
  | @applyRefused n f hp hf =>
    obtain ⟨f₁, hf₁, hh⟩ := (h n).provides (by simp [hp])
    rw [hf] at hf₁
    obtain rfl := Option.some.inj hf₁
    refine h.provide (by simp [hf, hh]) ?_ (by simp) (by simp)
    rintro _ ⟨rfl⟩
    exact ⟨(h n).excl f hf (by simp [hh]),
      .inl ⟨rfl, rfl, ((h n).provided f hf hh).2.1.rest⟩⟩
  | @applyStale n f hp hf =>
    obtain ⟨f₁, hf₁, hh⟩ := (h n).provides (by simp [hp])
    exact h.provide (by simp [hf₁, hh]) (by simp) (by simp) (by simp)
  | @evictOwner f ev dice _ hf hl _ hc =>
    refine h.anon (by simp [hf, hl]) h.provider_owner ?_ ev.bump_pos
    intro f' hf'
    obtain ⟨h1, h2, h3⟩ := (Frame.evictOwnerPage_ok hc).settled (h.settled hf hl.1) hl hf'
    exact ⟨h1, .inl ⟨h2, h3⟩⟩
  | @writeBack f x _ _ hf =>
    have h1 : Nodes o node (s.setFrame o (some { f with dirty := false }) 0) :=
      h.flag hf (.inr rfl)
    exact h1.congr rfl rfl rfl rfl

theorem Step.nodes [DecidableEq W] (hk : s.known = true) (h : Nodes o node s)
    (st : Step cfg o node s s') : Nodes o node s' := by
  cases st with
  | worker st => exact st.nodes hk h
  | handler st => exact st.nodes hk h
  | provider st => exact st.nodes h

theorem Overwrites.nodes {n : NodeID} (h : Nodes o node s) (st : Overwrites n s s') :
    Nodes o node s' := by
  obtain ⟨c, hf, hx⟩ := st
  exact h.page hf hx

theorem PageStep.nodes [DecidableEq W] (hk : s.known = true) (h : Nodes o node s)
    (st : PageStep cfg o node s s') : Nodes o node s' := by
  cases st with
  | step st => exact st.nodes hk h
  | overwritten st => exact st.nodes h

end ScaleStore.Protocol
