/-
# What a page contains

The page in every frame that may be used is the one the latest exclusive guard has
left behind, and so is the page in the frame of a worker that has received it and
is about to finish `fix`.  The page on the SSD is that one too, unless the
owner's frame is dirty.  A page that its owner retrieves is not there before the
READ has landed; until then the frame that it comes from is kept.

All of this holds as long as no frame is removed against the owner's word, no READ
is taken for complete too early and the page is not reclaimed; then the ledger of
the page accounts for every copy, and whoever moves or copies a page takes it from
a copy in use.
-/

import ScaleStore.Protocol.Coherence

namespace ScaleStore.Protocol

variable {W C : Type} {cfg : Config} {o : NodeID} {node : W → NodeID} {s s' : PageState W C}

/-! ## Who has the page -/

/-- The phases in which the page has arrived in the frame that the worker holds. -/
def Pc.acquired : Pc C → Bool
  | .response _ r => r.result = .withPage || r.result = .withPageSharedConflict
  | .invalidate _ _ _ _ => true
  | .complete _ _ _ => true
  | .updated _ _ r => r ≠ .failed
  | _ => false

/-- The phases in which the worker has been granted exclusive possession. -/
def Pc.seizes : Pc C → Bool
  | .response t _ => t = .exclusive
  | .move _ t _ _ _ => t = .exclusive
  | .invalidate _ t _ _ => t = .exclusive
  | .complete _ t _ => t = .exclusive
  | .updated _ _ r => r ≠ .failed
  | _ => false

namespace Frame

variable (f : Frame W C) (n : NodeID) (p : Provider) (pc : W → Pc C)

/-- The frame of the node `n` is a copy in use. -/
def Live : Prop := f.state = .hot ∧ f.isPossessor n = true ∧ p ≠ .acked

/-- The frame of the node `n` has the page: it is in use and not being retrieved, or its worker has
received the page. -/
def Carries : Prop := (f.Live n p ∧ f.holder ≠ some .retriever) ∨
  ∃ w, f.holder = some (.worker w) ∧ (pc w).acquired = true

/-- The page may be written on the node `n`, now or when its worker has finished. -/
def Seizes : Prop := (f.Live n p ∧ f.possession = .exclusive) ∨
  ∃ w, f.holder = some (.worker w) ∧ (pc w).seizes = true

variable {f n p pc}

theorem Live.copy (h : f.Live n p) :
    ∃ c, f.copy n p = some c ∧ (c.excl = true ↔ f.possession = .exclusive) := by
  obtain ⟨hs, hn, hp⟩ := h
  exact ⟨_, if_pos ⟨hs, hn, hp⟩, by simp⟩

/-- Without a worker, a frame has the page only as a copy in use. -/
theorem Carries.live (h : f.Carries n p pc) (hh : ∀ w, f.holder ≠ some (.worker w)) :
    f.Live n p := by
  rcases h with ⟨h, -⟩ | ⟨w, hw, -⟩
  · exact h
  · exact absurd hw (hh w)

theorem Carries.not_retriever (h : f.Carries n p pc) : f.holder ≠ some .retriever := by
  rcases h with ⟨-, h⟩ | ⟨w, hw, -⟩
  · exact h
  · simp [hw]

/-- Nor does the retriever hold a frame that a worker or nobody holds. -/
theorem Live.carries (h : f.Live n p) (hh : f.holder = none ∨ ∃ w, f.holder = some (.worker w)) :
    f.Carries n p pc := by
  refine .inl ⟨h, ?_⟩
  rcases hh with hh | ⟨w, hh⟩ <;> simp [hh]

theorem Carries.of_worker {w : W} (h : f.Carries n p pc) (hh : f.holder = some (.worker w)) :
    f.Live n p ∨ (pc w).acquired = true := by
  rcases h with ⟨h, -⟩ | ⟨w', hw', ha⟩
  · exact .inl h
  · rw [hh] at hw'
    obtain rfl : w = w' := by simpa using hw'
    exact .inr ha

theorem Seizes.live (h : f.Seizes n p pc) (hh : ∀ w, f.holder ≠ some (.worker w)) :
    f.Live n p ∧ f.possession = .exclusive := by
  rcases h with h | ⟨w, hw, -⟩
  · exact h
  · exact absurd hw (hh w)

theorem Seizes.of_worker {w : W} (h : f.Seizes n p pc) (hh : f.holder = some (.worker w)) :
    (f.Live n p ∧ f.possession = .exclusive) ∨ (pc w).seizes = true := by
  rcases h with h | ⟨w', hw', ha⟩
  · exact .inl h
  · rw [hh] at hw'
    obtain rfl : w = w' := by simpa using hw'
    exact .inr ha

end Frame

/-- The frames that have the page, and the valid optimistic guards, show what was written last. -/
structure Pages (node : W → NodeID) (s : PageState W C) : Prop where
  page : ∀ n f, s.frame n = some f → f.Carries n (s.provider n) s.pc → f.page = some s.last
  seen : ∀ w v c, s.pc w = .guardO v (some c) → s.version (node w) = v → c = s.last

/-- The SSD has what was written last, unless the owner's frame is dirty; and it is dirty while
the page may be written. -/
structure Home (o : NodeID) (s : PageState W C) : Prop where
  saved : (∀ f, s.frame o = some f → f.dirty = true → f.state = .ioSsd) → s.disk = s.last
  away : ∀ n f g, n ≠ o → s.frame n = some f → f.Seizes n (s.provider n) s.pc →
    s.frame o = some g → g.dirty = true
  held : ∀ w g, s.frame o = some g → g.holder = some (.worker w) → s.pc w = .guardX →
    g.dirty = true

/-- The page has what was written last wherever it is read. -/
structure Contents (o : NodeID) (node : W → NodeID) (s : PageState W C) : Prop where
  pages : Pages node s
  home : Home o s

/-- A page that its owner retrieves is in the frame that it comes from, latched by the page
provider, until the READ has landed, and then in the owner's frame. -/
structure Retrieval (o : NodeID) (s : PageState W C) : Prop where
  landed : ∀ f, s.frame o = some f → f.holder = some .retriever → s.read = none →
    f.page = some s.last
  pending : ∀ n, s.read = some n → s.provider n = .acked ∧
    (∃ f, s.frame o = some f ∧ f.holder = some .retriever) ∧
    ∃ g, s.frame n = some g ∧ g.holder = some .provider ∧ g.page = some s.last

/-- Workers latch the frames of their own nodes. -/
def Placed (node : W → NodeID) (s : PageState W C) : Prop :=
  ∀ n f w, s.frame n = some f → f.holder = some (.worker w) → node w = n

theorem Nodes.placed (h : Nodes o node s) : Placed node s :=
  fun n f w hf hh => ((h n).held f w hf hh).1

/-- Elsewhere, a worker's program counter does not matter. -/
theorem Placed.other [DecidableEq W] {w : W} {n : NodeID} {f : Frame W C} {p : Pc C}
    {g : Pc C → Bool} (h : Placed node s) (hf : s.frame n = some f) (hn : n ≠ node w)
    (hw : ∃ w', f.holder = some (.worker w') ∧ g (Function.update s.pc w p w') = true) :
    ∃ w', f.holder = some (.worker w') ∧ g (s.pc w') = true := by
  obtain ⟨w', hh, hg⟩ := hw
  have hne : w' ≠ w := by
    rintro rfl
    exact hn (h n f w' hf hh).symm
  exact ⟨w', hh, by simpa [hne] using hg⟩

theorem Placed.frame {m : NodeID} {fr : Option (Frame W C)} {k : Nat} (h : Placed node s)
    (hfr : ∀ f w, fr = some f → f.holder ≠ some (.worker w)) : Placed node (s.setFrame m fr k) := by
  intro n f w hf hh
  by_cases hn : n = m
  · subst hn
    exact absurd hh (hfr f w (by simpa using hf))
  · exact h n f w (by simpa [hn] using hf) hh

/-! ## Pages under a step -/

namespace Pages

/-- Frames that keep their page, or get the right one. -/
theorem step (h : Pages node s) (hn : Nodes o node s) (hlast : s'.last = s.last)
    (hv : ∀ n, s.version n ≤ s'.version n)
    (hseen : ∀ w v c, s'.pc w = .guardO v (some c) → s.pc w = .guardO v (some c))
    (hpage : ∀ n f', s'.frame n = some f' → f'.Carries n (s'.provider n) s'.pc →
      f'.page = some s.last ∨ (s.frame n = some f' ∧ f'.Carries n (s.provider n) s.pc)) :
    Pages node s' := by
  constructor
  case page =>
    intro n f' hf' hc
    rw [hlast]
    rcases hpage n f' hf' hc with hp | ⟨hf, hc⟩
    · exact hp
    · exact h.page n f' hf hc
  case seen =>
    intro w v c hpc hver
    have hpc' := hseen w v c hpc
    have hle : v ≤ s.version (node w) := by
      rcases (hn (node w)).stamp w v rfl (by simp [hpc', Pc.stamp]) with hlt | ⟨heq, -⟩
      · exact hlt.le
      · exact heq.le
    rw [hlast]
    exact h.seen w v c hpc' (le_antisymm ((hv (node w)).trans hver.le) hle)

/-- Only the frame of one node changes. -/
theorem frame {m : NodeID} {fr : Option (Frame W C)} {k : Nat} (h : Pages node s)
    (hn : Nodes o node s)
    (hfr : ∀ f', fr = some f' → f'.Carries m (s.provider m) s.pc → f'.page = some s.last) :
    Pages node (s.setFrame m fr k) := by
  refine h.step hn rfl ?_ (fun _ _ _ hpc => hpc) ?_
  · intro n
    by_cases hnm : n = m <;> simp [hnm]
  · intro n f' hf' hc
    by_cases hnm : n = m
    · subst hnm
      exact .inl (hfr f' (by simpa using hf') hc)
    · exact .inr ⟨by simpa [hnm] using hf', hc⟩

variable [DecidableEq W] {w : W} {p : Pc C}

/-- A worker goes on, and some frames change. -/
theorem worker (h : Pages node s) (hn : Nodes o node s) (hlast : s'.last = s.last)
    (hv : ∀ n, s.version n ≤ s'.version n) (hpr : s'.provider = s.provider)
    (hpc : s'.pc = Function.update s.pc w p) (hp : ∀ v c, p ≠ .guardO v (some c))
    (hfr : ∀ n f', s'.frame n = some f' → (n ≠ node w ∧ s.frame n = some f') ∨
      (f'.Carries n (s.provider n) (Function.update s.pc w p) → f'.page = some s.last)) :
    Pages node s' := by
  refine h.step hn hlast hv ?_ ?_
  · intro w' v c hpc'
    rw [hpc] at hpc'
    by_cases hw : w' = w
    · subst hw
      exact absurd (by simpa using hpc') (hp v c)
    · simpa [hw] using hpc'
  · intro n f' hf' hc
    rw [hpr, hpc] at hc
    rcases hfr n f' hf' with ⟨hnw, hf⟩ | hpage
    · exact .inr ⟨hf, hc.imp_right (hn.placed.other hf hnw)⟩
    · exact .inl (hpage hc)

/-- A worker changes its node's frame. -/
theorem set {fr : Option (Frame W C)} {k : Nat} (h : Pages node s) (hn : Nodes o node s)
    (hp : ∀ v c, p ≠ .guardO v (some c))
    (hfr : ∀ f', fr = some f' →
      f'.Carries (node w) (s.provider (node w)) (Function.update s.pc w p) →
        f'.page = some s.last) :
    Pages node ((s.setFrame (node w) fr k).setPc w p) := by
  refine h.worker hn rfl ?_ rfl rfl hp ?_
  · intro n
    by_cases hnw : n = node w <;> simp [hnw]
  · intro n f' hf'
    by_cases hnw : n = node w
    · subst hnw
      exact .inr (hfr f' (by simpa using hf'))
    · exact .inl ⟨hnw, by simpa [hnw] using hf'⟩

/-- A handler changes a frame and the one of the worker it answers. -/
theorem serve {m : NodeID} {fr fr' : Option (Frame W C)} {k j : Nat} (h : Pages node s)
    (hn : Nodes o node s) (hm : m ≠ node w) (hp : ∀ v c, p ≠ .guardO v (some c))
    (hfr : ∀ f', fr = some f' → f'.Carries m (s.provider m) (Function.update s.pc w p) →
      f'.page = some s.last)
    (hfr' : ∀ f', fr' = some f' →
      f'.Carries (node w) (s.provider (node w)) (Function.update s.pc w p) →
        f'.page = some s.last) :
    Pages node (((s.setFrame m fr k).setFrame (node w) fr' j).setPc w p) := by
  refine h.worker hn rfl ?_ rfl rfl hp ?_
  · intro n
    by_cases hnw : n = node w
    · subst hnw
      simp [hm.symm]
    · by_cases hnm : n = m
      · subst hnm
        simp [hnw]
      · simp [hnm, hnw]
  · intro n f' hf'
    by_cases hnw : n = node w
    · subst hnw
      exact .inr (hfr' f' (by simpa using hf'))
    · by_cases hnm : n = m
      · subst hnm
        exact .inr (hfr f' (by simpa [hnw] using hf'))
      · exact .inl ⟨hnw, by simpa [hnw, hnm] using hf'⟩

/-- A handler changes a frame and tells a worker of another node. -/
theorem reply {m : NodeID} {fr : Option (Frame W C)} {k : Nat} (h : Pages node s)
    (hn : Nodes o node s) (hp : ∀ v c, p ≠ .guardO v (some c))
    (hfr : ∀ f', fr = some f' → f'.Carries m (s.provider m) (Function.update s.pc w p) →
      f'.page = some s.last)
    (hown : ∀ f, s.frame (node w) = some f → f.page = some s.last ∨ p.acquired = false) :
    Pages node ((s.setFrame m fr k).setPc w p) := by
  refine h.worker hn rfl ?_ rfl rfl hp ?_
  · intro n
    by_cases hnm : n = m <;> simp [hnm]
  · intro n f' hf'
    by_cases hnm : n = m
    · subst hnm
      exact .inr (hfr f' (by simpa using hf'))
    · have hf : s.frame n = some f' := by simpa [hnm] using hf'
      by_cases hnw : n = node w
      · subst hnw
        refine .inr fun hc => ?_
        rcases hown f' hf with hpage | hacq
        · exact hpage
        · refine h.page _ f' hf (hc.imp_right ?_)
          rintro ⟨w', hh, hw'⟩
          refine ⟨w', hh, ?_⟩
          by_cases hww : w' = w
          · subst hww
            simp [hacq] at hw'
          · simpa [hww] using hw'
      · exact .inl ⟨hnw, hf⟩

/-- A worker goes on without touching a frame. -/
theorem pc (h : Pages node s) (hn : Nodes o node s) (hp : ∀ v c, p ≠ .guardO v (some c))
    (ha : p.acquired = true → (s.pc w).acquired = true) : Pages node (s.setPc w p) := by
  refine h.worker hn rfl (fun n => le_rfl) rfl rfl hp fun n f' hf' => .inr fun hc => ?_
  refine h.page n f' hf' (hc.imp_right ?_)
  rintro ⟨w', hh, hw'⟩
  refine ⟨w', hh, ?_⟩
  by_cases hw : w' = w
  · subst hw
    exact ha (by simpa using hw')
  · simpa [hw] using hw'

end Pages

/-! ## The owner's frame under a step -/

namespace Home

/-- The owner's frame stays dirty, and nobody seizes the page in passing. -/
theorem step (h : Home o s) (hlast : s'.last = s.last) (hdisk : s'.disk = s.disk)
    (hown : ∀ g, s.frame o = some g → ∃ g', s'.frame o = some g' ∧
      (g.dirty = true → g'.dirty = true) ∧ (g'.state = .ioSsd → g.state = .ioSsd))
    (haway : ∀ n f' g', n ≠ o → s'.frame n = some f' → f'.Seizes n (s'.provider n) s'.pc →
      s'.frame o = some g' → g'.dirty = true ∨
        ∃ g f, s.frame o = some g ∧ s.frame n = some f ∧ f.Seizes n (s.provider n) s.pc)
    (hheld : ∀ w g', s'.frame o = some g' → g'.holder = some (.worker w) → s'.pc w = .guardX →
      g'.dirty = true) : Home o s' := by
  constructor
  case saved =>
    intro hd
    rw [hlast, hdisk]
    refine h.saved fun g hg hdirty => ?_
    obtain ⟨g', hg', hd', hst⟩ := hown g hg
    exact hst (hd g' hg' (hd' hdirty))
  case away =>
    intro n f' g' hn hf' hs hg'
    rcases haway n f' g' hn hf' hs hg' with hd | ⟨g, f, hg, hf, hs⟩
    · exact hd
    · obtain ⟨g₁, hg₁, hd', -⟩ := hown g hg
      rw [hg'] at hg₁
      obtain rfl := Option.some.inj hg₁
      exact hd' (h.away n f g hn hf hs hg)
  case held => exact hheld

/-- The frame of a node changes without a worker. -/
theorem frame {m : NodeID} {f f' : Frame W C} {k : Nat} (h : Home o s) (hf : s.frame m = some f)
    (hd : f.dirty = true → f'.dirty = true) (hst : f'.state = .ioSsd → f.state = .ioSsd)
    (hh : ∀ w, f'.holder = some (.worker w) → f.holder = some (.worker w))
    (hs : m ≠ o → f'.Seizes m (s.provider m) s.pc → f.Seizes m (s.provider m) s.pc) :
    Home o (s.setFrame m (some f') k) := by
  refine h.step rfl rfl ?_ ?_ ?_
  · intro g hg
    by_cases hm : o = m
    · subst hm
      rw [hf] at hg
      obtain rfl := Option.some.inj hg
      exact ⟨f', by simp, hd, hst⟩
    · exact ⟨g, by simpa [hm] using hg, id, id⟩
  · intro n f₁ g' hn hf₁ hs₁ hg'
    obtain ⟨g, hg⟩ : ∃ g, s.frame o = some g := by
      by_cases hm : o = m
      · exact ⟨f, hm ▸ hf⟩
      · exact ⟨g', by simpa [hm] using hg'⟩
    refine .inr ⟨g, ?_⟩
    by_cases hm : n = m
    · subst hm
      obtain rfl : f' = f₁ := by simpa using hf₁
      exact ⟨f, hg, hf, hs hn hs₁⟩
    · exact ⟨f₁, hg, by simpa [hm] using hf₁, hs₁⟩
  · intro w g' hg' hhold hpc
    by_cases hm : o = m
    · subst hm
      obtain rfl : f' = g' := by simpa using hg'
      exact hd (h.held w f hf (hh w hhold) hpc)
    · exact h.held w g' (by simpa [hm] using hg') hhold hpc

/-- A frame of another node than the owner is removed. -/
theorem gone {m : NodeID} {k : Nat} (h : Home o s) (hm : m ≠ o) :
    Home o (s.setFrame m none k) := by
  refine h.step rfl rfl ?_ ?_ ?_
  · exact fun g hg => ⟨g, by simpa [hm.symm] using hg, id, id⟩
  · intro n f g hn hf hs hg
    have hnm : n ≠ m := by
      rintro rfl
      simp at hf
    exact .inr ⟨g, f, by simpa [hm.symm] using hg, by simpa [hnm] using hf, hs⟩
  · exact fun w g hg hh hpc => h.held w g (by simpa [hm.symm] using hg) hh hpc

variable [DecidableEq W] {w : W} {p : Pc C}

/-- A worker changes its node's frame, or puts one there. -/
theorem set {f' : Frame W C} {k : Nat} (h : Home o s) (hn : Placed node s)
    (hown : node w = o → ∀ f, s.frame o = some f → (f.dirty = true → f'.dirty = true) ∧
      (f'.state = .ioSsd → f.state = .ioSsd))
    (hnew : node w = o → s.frame o = none →
      ∀ n f, n ≠ o → s.frame n = some f → ¬ f.Seizes n (s.provider n) s.pc)
    (hs : node w ≠ o → f'.Seizes (node w) (s.provider (node w)) (Function.update s.pc w p) →
      (∃ f, s.frame (node w) = some f ∧ f.Seizes (node w) (s.provider (node w)) s.pc) ∨
        ∀ g, s.frame o = some g → g.dirty = true)
    (hx : p = .guardX → f'.dirty = true) (hh : ∀ w', f'.holder = some (.worker w') → w' = w) :
    Home o ((s.setFrame (node w) (some f') k).setPc w p) := by
  refine h.step rfl rfl ?_ ?_ ?_
  · intro g hg
    by_cases hm : node w = o
    · exact ⟨f', by simp [hm], hown hm g hg⟩
    · exact ⟨g, by simpa [Ne.symm hm] using hg, id, id⟩
  · intro n f₁ g' hno hf₁ hs₁ hg'
    by_cases hm : n = node w
    · subst hm
      obtain rfl : f' = f₁ := by simpa using hf₁
      have hg : s.frame o = some g' := by simpa [hno.symm] using hg'
      rcases hs hno hs₁ with ⟨f, hf, hs₀⟩ | hdirty
      · exact .inr ⟨g', f, hg, hf, hs₀⟩
      · exact .inl (hdirty g' hg)
    · have hf₀ : s.frame n = some f₁ := by simpa [hm] using hf₁
      have hs₀ : f₁.Seizes n (s.provider n) s.pc := hs₁.imp_right (hn.other hf₀ hm)
      rcases hg : s.frame o with _ | g
      · by_cases hwo : node w = o
        · exact absurd hs₀ (hnew hwo hg n f₁ hno hf₀)
        · simp [Ne.symm hwo, hg] at hg'
      · exact .inr ⟨g, f₁, rfl, hf₀, hs₀⟩
  · intro w' g' hg' hhold hpc
    by_cases hm : node w = o
    · subst hm
      obtain rfl : f' = g' := by simpa using hg'
      obtain rfl := hh w' hhold
      exact hx (by simpa using hpc)
    · have hg : s.frame o = some g' := by simpa [Ne.symm hm] using hg'
      have hne : w' ≠ w := by
        rintro rfl
        exact hm (hn o g' w' hg hhold)
      exact h.held w' g' hg hhold (by simpa [hne] using hpc)

/-- A worker changes the frame that its node has. -/
theorem keep {f f' : Frame W C} {k : Nat} (h : Home o s) (hn : Placed node s)
    (hf : s.frame (node w) = some f) (hd : f.dirty = true → f'.dirty = true)
    (hst : f'.state = .ioSsd → f.state = .ioSsd)
    (hs : node w ≠ o → f'.Seizes (node w) (s.provider (node w)) (Function.update s.pc w p) →
      f.Seizes (node w) (s.provider (node w)) s.pc)
    (hx : p = .guardX → f'.dirty = true) (hh : ∀ w', f'.holder = some (.worker w') → w' = w) :
    Home o ((s.setFrame (node w) (some f') k).setPc w p) := by
  refine h.set hn ?_ ?_ (fun hne hs' => .inl ⟨f, hf, hs hne hs'⟩) hx hh
  · intro hm g hg
    rw [← hm, hf] at hg
    obtain rfl := Option.some.inj hg
    exact ⟨hd, hst⟩
  · intro hm hnone
    simp [← hm, hf] at hnone

/-- A worker goes on without touching a frame. -/
theorem pc (h : Home o s) (hp : p ≠ .guardX) (hs : p.seizes = true → (s.pc w).seizes = true ∨
      ∀ g, s.frame o = some g → g.dirty = true) : Home o (s.setPc w p) := by
  refine h.step rfl rfl (fun g hg => ⟨g, hg, id, id⟩) ?_ ?_
  · intro n f g hno hf hs' hg
    rcases hs' with hlive | ⟨w', hh, hw'⟩
    · exact .inr ⟨g, f, hg, hf, .inl hlive⟩
    · by_cases hw : w' = w
      · subst hw
        rcases hs (by simpa using hw') with hs | hdirty
        · exact .inr ⟨g, f, hg, hf, .inr ⟨w', hh, hs⟩⟩
        · exact .inl (hdirty g hg)
      · exact .inr ⟨g, f, hg, hf, .inr ⟨w', hh, by simpa [hw] using hw'⟩⟩
  · intro w' g hg hh hpc
    by_cases hw : w' = w
    · subst hw
      exact absurd (by simpa using hpc) hp
    · exact h.held w' g hg hh (by simpa [hw] using hpc)

end Home

/-! ## What the ledger says -/

theorem Ground.ioSsd {f : Frame W C} {e : Nat} {g : GuardState} (h : Ground o o f e g)
    (hst : f.state = .ioSsd) : g = .ssd := by
  cases g with
  | initialized => exact h.elim
  | ssd => rfl
  | remote => exact absurd rfl h.1
  | remotePossessionChange => exact absurd rfl h.1
  | localPossessionChange => rcases h.2.2.2.2 with hd | ⟨hd, -⟩ <;> simp [hd] at hst

/-- Only a worker that reads the page from the SSD holds such a frame. -/
theorem Fits.ioSsd {f : Frame W C} {p : Pc C} (h : Fits o o f p) (hst : f.state = .ioSsd) :
    f.possession = .nobody ∧ f.pVersion = 0 ∧ p.view o f = f.entry := by
  have hssd : ∀ {e}, Ground o o f e .ssd → f.possession = .nobody ∧ f.pVersion = 0 :=
    fun hg => ⟨hg.2.1.2.1, hg.2.2.1⟩
  cases p with
  | load => exact ⟨h.2.1.2.1, h.2.2, rfl⟩
  | request => exact absurd rfl h.1
  | response => exact absurd rfl h.1
  | move g =>
    obtain rfl := h.1.ioSsd hst
    obtain ⟨h1, h2⟩ := hssd h.1
    exact ⟨h1, h2, rfl⟩
  | invalidate g => exact absurd (h.1.ioSsd hst) h.2.1
  | copy g =>
    obtain rfl := h.1.ioSsd hst
    obtain ⟨h1, h2⟩ := hssd h.1
    exact ⟨h1, h2, rfl⟩
  | copyFailed g =>
    obtain rfl := h.1.ioSsd hst
    obtain ⟨h1, h2⟩ := hssd h.1
    exact ⟨h1, h2, rfl⟩
  | complete g =>
    obtain rfl := h.1.ioSsd hst
    obtain ⟨h1, h2⟩ := hssd h.1
    exact ⟨h1, h2, rfl⟩
  | update => exact absurd rfl h.1
  | updated => cases h.1.ioSsd hst
  | guardX => simp [h.1.1] at hst
  | _ => exact h.elim

/-- While the owner reads the page from the SSD, its frame names nobody. -/
theorem Nodes.of_ioSsd {f : Frame W C} (h : Nodes o node s) (hf : s.frame o = some f)
    (hst : f.state = .ioSsd) :
    (ledger o node s).epoch = 0 ∧ (ledger o node s).dir = ∅ := by
  obtain ⟨w, hh⟩ : ∃ w, f.holder = some (.worker w) := by
    rcases hh : f.holder with _ | ⟨w | - | - | -⟩
    · rcases (h.settled hf hh).hot with hhot | ⟨hev, -⟩
      · simp [hhot.1] at hst
      · simp [hev] at hst
    · exact ⟨w, rfl⟩
    · have := ((h o).system f hf (.inl hh)).2.1.1
      simp [hst] at this
    · exact absurd rfl ((h o).provided f hf hh).1
    · have := ((h o).system f hf (.inr hh)).2.1.1
      simp [hst] at this
  obtain ⟨hnb, hv, hview⟩ := ((h o).held f w hf hh).2.ioSsd hst
  rw [ledger_epoch hf, ledger_dir hf, Frame.view_of_worker hh, hview]
  exact ⟨hv, by simp [Frame.entry, Frame.named, hnb]⟩

/-- A worker of another node that has been granted exclusive possession has opened an epoch. -/
theorem Fits.seizes {n : NodeID} {f : Frame W C} {p : Pc C} (h : Fits o n f p) (hn : n ≠ o)
    (hs : p.seizes = true) : ∃ q, p.acquisition n = some q ∧ q.first = true ∧ q.excl = true := by
  cases p with
  | response t r =>
    obtain rfl : t = .exclusive := by simpa [Pc.seizes] using hs
    refine ⟨_, rfl, ?_⟩
    have hfit : r.Fits o .exclusive := h.2.2
    unfold Response.Fits at hfit
    unfold Response.planned
    rcases hr : r.result with _ | _ | _ | _ | _
    case noPageEvicted => simp [hr] at hfit
    all_goals simp [Plan.acquisition]
  | move g t =>
    obtain rfl : t = .exclusive := by simpa [Pc.seizes] using hs
    exact ⟨_, rfl, rfl, rfl⟩
  | invalidate => exact ⟨_, rfl, rfl, rfl⟩
  | complete g t e =>
    obtain rfl : t = .exclusive := by simpa [Pc.seizes] using hs
    have hg : g ≠ .ssd := by
      rintro rfl
      exact hn h.1.1
    exact ⟨_, by simp [Pc.acquisition, hg]; rfl, rfl, rfl⟩
  | updated t old r =>
    cases r with
    | failed => simp [Pc.seizes] at hs
    | succeed => exact ⟨_, rfl, rfl, rfl⟩
    | succeedWithSharedConflict => exact ⟨_, rfl, rfl, rfl⟩
  | _ => simp [Pc.seizes] at hs

/-- A worker that has received the page is ready, or reads it from the SSD. -/
theorem Pc.acquired_cases {n : NodeID} {p : Pc C} (h : p.acquired = true) :
    (∃ q, p.acquisition n = some q ∧ q.ready = true) ∨ ∃ t e, p = .complete .ssd t e := by
  cases p with
  | response t r =>
    refine .inl ⟨_, rfl, ?_⟩
    unfold Response.planned
    rcases hr : r.result with _ | _ | _ | _ | _
    case withPage =>
      simp only [Plan.acquisition]
      split <;> rfl
    case withPageSharedConflict => rfl
    all_goals simp [Pc.acquired, hr] at h
  | invalidate => exact .inl ⟨_, rfl, rfl⟩
  | complete g t e =>
    by_cases hg : g = .ssd
    · exact .inr ⟨t, e, by rw [hg]⟩
    · refine .inl ⟨_, by simp [Pc.acquisition, hg]; rfl, ?_⟩
      simp only [Plan.acquisition]
      split <;> rfl
  | updated t old r =>
    cases r with
    | failed => simp [Pc.acquired] at h
    | succeed => exact .inl ⟨_, rfl, rfl⟩
    | succeedWithSharedConflict => exact .inl ⟨_, rfl, rfl⟩
  | _ => simp [Pc.acquired] at h

section Ledger

variable {l : Nat} {n : NodeID} {f g : Frame W C}

theorem Frame.Live.live (hf : s.frame n = some f) (h : f.Live n (s.provider n)) :
    ∃ c, (ledger o node s).live n = some c ∧ (c.excl = true ↔ f.possession = .exclusive) := by
  obtain ⟨c, hc, hx⟩ := h.copy
  exact ⟨c, by simpa [hf] using hc, hx⟩

/-- Whoever may write the page on another node has an exclusive copy or has opened an epoch. -/
theorem Nodes.seizes (h : Nodes o node s) (hn : n ≠ o) (hf : s.frame n = some f)
    (hs : f.Seizes n (s.provider n) s.pc) :
    (∃ c, (ledger o node s).live n = some c ∧ c.excl = true) ∨
      ∃ w q, (ledger o node s).acq w = some q ∧ q.first = true ∧ q.excl = true := by
  rcases hs with ⟨hlive, hx⟩ | ⟨w, hh, hw⟩
  · obtain ⟨c, hc, hcx⟩ := hlive.live hf
    exact .inl ⟨c, hc, hcx.mpr hx⟩
  · obtain ⟨rfl, hfit⟩ := (h n).held f w hf hh
    obtain ⟨q, hq, hqx⟩ := hfit.seizes hn hw
    exact .inr ⟨w, q, hq, hqx⟩

/-- While the directory names nobody, nobody may write the page. -/
theorem Nodes.not_seizes_of_blank (h : Nodes o node s) (hok : Ledger.Ok (ledger o node s) l)
    (he : (ledger o node s).epoch = 0) (hd : (ledger o node s).dir = ∅) (hn : n ≠ o)
    (hf : s.frame n = some f) : ¬ f.Seizes n (s.provider n) s.pc := by
  obtain ⟨hlive, hacq⟩ := hok.of_blank he hd
  intro hs
  rcases h.seizes hn hf hs with ⟨c, hc, -⟩ | ⟨w, q, hq, -⟩
  · rw [hlive n] at hc
    cases hc
  · rw [hacq w] at hq
    cases hq

/-- While the owner has a copy in use that no worker holds, no other node may write the page. -/
theorem Nodes.not_seizes_of_hot (h : Nodes o node s) (hok : Ledger.Ok (ledger o node s) l)
    (hg : s.frame o = some g) (hhot : g.Hot o) (hfree : g.holder = none) (hn : n ≠ o)
    (hf : s.frame n = some f) : ¬ f.Seizes n (s.provider n) s.pc := by
  have hcopy : (ledger o node s).live o = some ⟨g.pVersion, g.possession = .exclusive⟩ := by
    simp [hg, Frame.copy, hhot.1, hhot.2.1, h.provider_owner, Frame.byWorker, hfree]
  have hl : (ledger o node s).epoch = l := by
    rw [ledger_epoch hg]
    exact hok.live_epoch o _ hcopy
  intro hs
  rcases h.seizes hn hf hs with ⟨c, hc, hx⟩ | ⟨w, q, hq, hfirst, -⟩
  · exact hn (hok.excl_alone n o c _ hc hx hcopy).symm
  · have := hok.first_range w q hq hfirst
    omega

/-- While a worker has an exclusive guard, only its node has the page. -/
theorem Coherent.carries_of_guardX {w : W} (h : Coherent o node s)
    (hok : Ledger.Ok (ledger o node s) l) (hx : Ledger.Exact (ledger o node s) l)
    (hpc : s.pc w = .guardX) (hf : s.frame n = some f) (hc : f.Carries n (s.provider n) s.pc) :
    n = node w := by
  obtain ⟨c, hlive, hcx⟩ := h.copy_of_guardX hpc
  rcases hc with ⟨hlv, -⟩ | ⟨w', hh, ha⟩
  · obtain ⟨d, hd, -⟩ : ∃ d, (ledger o node s).live n = some d ∧ _ := hlv.live hf
    exact hok.excl_alone (node w) n c d hlive hcx hd
  · obtain ⟨rfl, hfit⟩ := (h.nodes n).held f w' hf hh
    rcases Pc.acquired_cases (n := node w') ha with ⟨q, hq, hr⟩ | ⟨t, e, hssd⟩
    · cases hfirst : q.first with
      | true =>
        have := hx.ready_excl w' q (node w) c hq hfirst hr hlive
        simp [hcx] at this
      | false =>
        have he := hok.join_ready w' q hq hfirst hr
        exact absurd he (hok.excl_no_join (node w) c w' q hlive hcx hq hfirst)
    · -- the owner reads the page from the SSD: there is no copy
      rw [hssd] at hfit
      obtain ⟨⟨ho, ⟨hst, -⟩, -⟩, -⟩ := hfit
      obtain ⟨he, hd⟩ := h.nodes.of_ioSsd (ho ▸ hf) hst
      rw [(hok.of_blank he hd).1 (node w)] at hlive
      cases hlive

/-- While a worker has an exclusive guard, the owner's frame is dirty. -/
theorem Home.dirty_of_guardX {w : W} (h : Home o s) (hco : Coherent o node s)
    (hok : Ledger.Ok (ledger o node s) l) (hpc : s.pc w = .guardX) :
    ∃ g, s.frame o = some g ∧ g.dirty = true ∧ g.state ≠ .ioSsd := by
  obtain ⟨c, hc, -⟩ := hco.copy_of_guardX hpc
  -- the page has a copy, so the owner's frame names somebody
  have hnamed : ¬ ((ledger o node s).epoch = 0 ∧ (ledger o node s).dir = ∅) := by
    rintro ⟨he, hd⟩
    rw [(hok.of_blank he hd).1 (node w)] at hc
    cases hc
  rcases hg : s.frame o with _ | g
  · exact absurd (ledger_none hg) hnamed
  · refine ⟨g, rfl, ?_, fun hst => hnamed (hco.nodes.of_ioSsd hg hst)⟩
    obtain ⟨f, hf, hh⟩ := (hco.nodes (node w)).holds w rfl (by simp [hpc, Pc.latched])
    by_cases hno : node w = o
    · rw [hno, hg] at hf
      obtain rfl := Option.some.inj hf
      exact h.held w g hg hh hpc
    · obtain ⟨-, -, hhot, hx⟩ := hco.nodes.fits hpc rfl hf
      have hp := hco.nodes.provider_of_worker hf hh
      exact h.away (node w) f g hno hf (.inl ⟨⟨hhot.1, hhot.2.1, by simp [hp]⟩, hx⟩) hg

end Ledger

end ScaleStore.Protocol
