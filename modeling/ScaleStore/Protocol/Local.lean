/-
# Frames and workers of one node

What holds between a node's frame of the page, the worker that has latched it
and the other workers of the node, whatever the other nodes do: who holds the
latch, what the frame looks like in each phase of `fix`, and what a worker that
only remembers a version may rely on.
-/

import ScaleStore.Protocol.HandlerSpecs

namespace ScaleStore.Protocol

variable {W C : Type}

/-! ## Phases and frames -/

/-- The worker holds the exclusive latch of its node's frame. -/
def Pc.latched : Pc C → Bool
  | .load _ => true
  | .request _ => true
  | .response _ _ => true
  | .move _ _ _ _ _ => true
  | .invalidate _ _ _ _ => true
  | .copy _ _ _ _ _ => true
  | .copyFailed _ _ _ _ => true
  | .complete _ _ _ => true
  | .update _ _ => true
  | .updated _ _ _ => true
  | .guardX => true
  | _ => false

/-- The worker holds the shared latch. -/
def Pc.shares : Pc C → Bool
  | .guardS _ => true
  | _ => false

/-- The latch version the worker remembers. -/
def Pc.stamp : Pc C → Option Nat
  | .peek _ v => some v
  | .downgrade v _ => some v
  | .guardS v => some v
  | .guardO v _ => some v
  | _ => none

/-- While the version it remembers is current, the worker may use the page. -/
def Pc.trusts : Pc C → Bool
  | .downgrade _ _ => true
  | .guardS _ => true
  | .guardO _ _ => true
  | _ => false

namespace Frame

variable (f : Frame W C)

/-- A page in use on the node `n`. -/
def Hot (n : NodeID) : Prop :=
  f.state = .hot ∧ f.isPossessor n = true ∧ f.page.isSome = true

/-- A frame that has just been put into the table. -/
def Blank (state : BfState) : Prop :=
  f.state = state ∧ f.possession = .nobody ∧ f.possessors = 0#64 ∧ f.page.isSome = true

/-- The owner has no copy of the page. -/
def Dim (o : NodeID) : Prop :=
  f.state = .evicted ∨ (f.state = .hot ∧ f.isPossessor o = false)

/-- A frame left behind by a worker that gave up copying. -/
def Leftover : Prop :=
  f.state = .ioRdma ∧ f.possession = .nobody ∧ f.page.isSome = true ∧ f.mhWaiting = true

/-- The owner's frame when no worker has latched it. -/
structure Settled (o : NodeID) : Prop where
  possession : f.possession ≠ .nobody
  hot : f.Hot o ∨ (f.state = .evicted ∧ f.isPossessor o = false ∧ f.page = none)
  shared : f.possession = .shared → f.possessors.any = true

variable {f}

theorem Settled.of_evicted {o : NodeID} (h : f.Settled o) (hs : f.state = .evicted) :
    f.isPossessor o = false ∧ f.page = none := by
  rcases h.hot with hh | ⟨-, hh⟩
  · exact absurd hh.1 (by simp [hs])
  · exact hh

theorem Settled.of_hot {o : NodeID} (h : f.Settled o) (hs : f.state = .hot) : f.Hot o := by
  rcases h.hot with hh | ⟨hh, -⟩
  · exact hh
  · exact absurd hh (by simp [hs])

end Frame

/-- The frame of the node `n` on the way `g` through `fix`, at the version `e`. -/
def Ground (o n : NodeID) (f : Frame W C) (e : Nat) : GuardState → Prop
  | .initialized => False
  | .ssd => n = o ∧ f.Blank .ioSsd ∧ f.pVersion = 0 ∧ e = 0
  | .remote => n ≠ o ∧ f.Blank .ioRdma ∧ f.pVersion = e
  | .localPossessionChange => n = o ∧ f.possession ≠ .nobody ∧ f.page.isSome = true ∧
    f.pVersion = e ∧ f.Dim o
  | .remotePossessionChange => n ≠ o ∧ f.Hot n ∧ f.possession = .shared ∧ f.pVersion = e

/-- The responses an access can get.  The owner never names itself. -/
def Response.Fits (r : Response) (o : NodeID) (t : Access) : Prop :=
  match r.result with
  | .withPage => True
  | .withPageSharedConflict => t = .exclusive ∧ r.conflictingNodeId.test o = false
  | .noPageSharedConflict => t = .exclusive ∧ r.conflictingNodeId.test o = false
  | .noPageExclusiveConflict => r.conflictingNodeId.toNode ≠ o
  | .noPageEvicted => t ≠ .exclusive

/-- The responses to an update of the version `old`. -/
def UpdateResponse.Fits (o : NodeID) (old : Nat) : UpdateResponse → Prop
  | .failed => True
  | .succeed e => e = old + 1
  | .succeedWithSharedConflict e shared => e = old + 1 ∧ shared.test o = false

/-- The frame of the node `n` while a worker in this phase holds its latch. -/
def Fits (o n : NodeID) (f : Frame W C) : Pc C → Prop
  | .load _ => n = o ∧ f.Blank .ioSsd ∧ f.pVersion = 0
  | .request _ => n ≠ o ∧ f.Blank .ioRdma
  | .response t r => n ≠ o ∧ f.Blank .ioRdma ∧ r.Fits o t
  | .move g t e c rest => Ground o n f e g ∧ (g = .remote ∨ g = .localPossessionChange) ∧ c ≠ o ∧
    rest.test o = false ∧ rest.test c = false ∧ (t ≠ .exclusive → rest.any = false) ∧
    (g = .localPossessionChange → f.state = .evicted ∧
      (f.possession = .exclusive → rest.any = false) ∧
      (t ≠ .exclusive → f.possession = .exclusive))
  | .invalidate g t e pending => Ground o n f e g ∧ g ≠ .ssd ∧ t = .exclusive ∧
    pending.test o = false ∧ pending.any = true ∧
    (g = .localPossessionChange → f.possession = .shared)
  | .copy g t e shared _ => Ground o n f e g ∧ (g = .remote ∨ g = .localPossessionChange) ∧
    t ≠ .exclusive ∧ (g = .localPossessionChange →
      f.state = .evicted ∧ f.possession = .shared ∧ f.possessors = shared ∧
        shared.test o = false ∧ shared.any = true)
  | .copyFailed g t e shared => Ground o n f e g ∧ (g = .remote ∨ g = .localPossessionChange) ∧
    t ≠ .exclusive ∧ (g = .localPossessionChange →
      f.state = .evicted ∧ f.possession = .shared ∧ f.possessors = shared ∧
        shared.test o = false ∧ shared.any = true)
  | .complete g t e => Ground o n f e g ∧ (g = .remotePossessionChange → t = .exclusive) ∧
    (g = .localPossessionChange → t ≠ .exclusive →
      (f.possession = .exclusive ∧ f.possessors = 0#64) ∨
      (f.possession = .shared ∧ f.possessors.any = true))
  | .update _ old => Ground o n f (old + 1) .remotePossessionChange
  | .updated _ old r => Ground o n f (old + 1) .remotePossessionChange ∧ r.Fits o old
  | .guardX => f.Hot n ∧ f.possession = .exclusive
  | _ => False

/-- The frame of the node `n` while nobody holds its latch exclusively. -/
def Rest (o n : NodeID) (f : Frame W C) : Prop :=
  (n = o ∧ f.Settled o) ∨ (n ≠ o ∧ (f.Hot n ∨ (f.Leftover ∧ f.readers = ∅)))

/-- The frame of the node `n` and the workers on it agree. -/
structure NodeOK (o : NodeID) (node : W → NodeID) (s : PageState W C) (n : NodeID) : Prop where
  held : ∀ f w, s.frame n = some f → f.holder = some (.worker w) →
    node w = n ∧ Fits o n f (s.pc w)
  holds : ∀ w, node w = n → (s.pc w).latched = true →
    ∃ f, s.frame n = some f ∧ f.holder = some (.worker w)
  rest : ∀ f, s.frame n = some f → f.holder = none → Rest o n f
  provided : ∀ f, s.frame n = some f → f.holder = some .provider → n ≠ o ∧ f.Hot n ∧
    s.provider n ≠ .idle ∧ ∀ v, s.provider n = .offered v → f.pVersion = v
  provides : s.provider n ≠ .idle → ∃ f, s.frame n = some f ∧ f.holder = some .provider
  system : ∀ f, s.frame n = some f → f.holder = some .handler ∨ f.holder = some .retriever →
    n = o ∧ f.Hot o ∧ f.Settled o
  readers : ∀ f w, s.frame n = some f → (w ∈ f.readers ↔ node w = n ∧ (s.pc w).shares = true)
  reads : ∀ w, node w = n → (s.pc w).shares = true → ∃ f, s.frame n = some f ∧ f.Hot n
  excl : ∀ f, s.frame n = some f → f.holder ≠ none → f.readers = ∅
  stamp : ∀ w v, node w = n → (s.pc w).stamp = some v → v < s.version n ∨
    (v = s.version n ∧ ∃ f, s.frame n = some f ∧ f.holder = none ∧ f.possession ≠ .nobody ∧
      ((s.pc w).trusts = true → f.Hot n))
  allocated : ∀ w, node w = n → s.pc w ≠ .allocate

theorem Fits.latched {o n : NodeID} {f : Frame W C} {p : Pc C} (h : Fits o n f p) :
    p.latched = true := by
  cases p <;> first | rfl | exact h.elim

theorem Pc.stamp_of_latched {p : Pc C} (h : p.latched = true) : p.stamp = none := by
  cases p <;> first | rfl | simp [Pc.latched] at h

theorem Pc.shares_of_latched {p : Pc C} (h : p.latched = true) : p.shares = false := by
  cases p <;> first | rfl | simp [Pc.latched] at h

/-! The flags do not matter. -/

theorem Fits.flags {o n : NodeID} {f : Frame W C} {p : Pc C} (h : Fits o n f p) (m d : Bool) :
    Fits o n { f with mhWaiting := m, dirty := d } p := by
  cases p <;> exact h

theorem Frame.Settled.flags {o : NodeID} {f : Frame W C} (h : f.Settled o) (m d : Bool) :
    { f with mhWaiting := m, dirty := d }.Settled o :=
  ⟨h.possession, h.hot, h.shared⟩

/-! Nor does what the page holds. -/

theorem Fits.page {o n : NodeID} {f : Frame W C} {p : Pc C} (h : Fits o n f p)
    (hx : f.page.isSome = true) (c : C) : Fits o n { f with page := some c } p := by
  obtain ⟨x, hx⟩ := Option.isSome_iff_exists.mp hx
  obtain ⟨st, pos, poss, v, mw, d, page, hold, rd⟩ := f
  obtain rfl : page = some x := hx
  cases p <;> exact h

theorem Frame.Settled.page {o : NodeID} {f : Frame W C} (h : f.Settled o)
    (hx : f.page.isSome = true) (c : C) : { f with page := some c }.Settled o := by
  refine ⟨h.possession, ?_, h.shared⟩
  rcases h.hot with ⟨h1, h2, -⟩ | ⟨-, -, h3⟩
  · exact .inl ⟨h1, h2, rfl⟩
  · simp [h3] at hx

theorem Rest.page {o n : NodeID} {f : Frame W C} (h : Rest o n f) (hx : f.page.isSome = true)
    (c : C) : Rest o n { f with page := some c } := by
  rcases h with ⟨rfl, hs⟩ | ⟨hn, hs | ⟨hs, hr⟩⟩
  · exact .inl ⟨rfl, hs.page hx c⟩
  · exact .inr ⟨hn, .inl ⟨hs.1, hs.2.1, rfl⟩⟩
  · exact .inr ⟨hn, .inr ⟨⟨hs.1, hs.2.1, rfl, hs.2.2.2⟩, hr⟩⟩

namespace NodeOK

variable {o : NodeID} {node : W → NodeID} {s s' : PageState W C} {n : NodeID}

/-- A step elsewhere does not matter. -/
theorem congr (h : NodeOK o node s n) (hf : s'.frame n = s.frame n)
    (hv : s'.version n = s.version n) (hp : s'.provider n = s.provider n)
    (hpc : ∀ w, node w = n → s'.pc w = s.pc w) : NodeOK o node s' n := by
  obtain ⟨h1, h2, h3, h4, h5, h6, h7, h8, h9, h10, h11⟩ := h
  constructor
  all_goals grind

/-- A worker that has latched is the holder. -/
theorem holder_eq {w : W} {f : Frame W C} (h : NodeOK o node s n) (hf : s.frame n = some f)
    (hw : node w = n) (hl : (s.pc w).latched = true) : f.holder = some (.worker w) := by
  obtain ⟨f', hf', hh⟩ := h.holds w hw hl
  rw [hf] at hf'
  obtain rfl := Option.some.inj hf'
  exact hh

theorem no_readers (h : NodeOK o node s n) (hr : ∀ f, s.frame n = some f → f.readers = ∅) (w : W)
    (hw : node w = n) : (s.pc w).shares = false := by
  by_contra hsh
  have hsh' : (s.pc w).shares = true := by simpa using hsh
  obtain ⟨f, hf, -⟩ := h.reads w hw hsh'
  have hmem := (h.readers f w hf).mpr ⟨hw, hsh'⟩
  simp [hr f hf] at hmem

/-- While the latch is held exclusively, nobody holds it in shared mode. -/
theorem readers_of_holder {f : Frame W C} (h : NodeOK o node s n) (hf : s.frame n = some f)
    (hh : f.holder ≠ none) (w : W) (hw : node w = n) : (s.pc w).shares = false := by
  apply h.no_readers _ w hw
  intro f' hf'
  rw [hf] at hf'
  obtain rfl := Option.some.inj hf'
  exact h.excl f hf hh

/-! ## Steps on the node

Each lemma says what has to be checked when the frame of `n` or a worker on `n`
changes in one way; the other workers of the node keep what they had. -/

/-- The worker that holds the latch changes the frame and keeps the latch. -/
theorem own {w : W} {f f' : Frame W C} (h : NodeOK o node s n) (hf : s.frame n = some f)
    (hw : f.holder = some (.worker w)) (hf' : s'.frame n = some f')
    (hw' : f'.holder = some (.worker w)) (hr : f'.readers = f.readers)
    (hv : s'.version n = s.version n) (hp : s'.provider n = s.provider n)
    (hpc : ∀ w', node w' = n → w' ≠ w → s'.pc w' = s.pc w') (hfit : Fits o n f' (s'.pc w)) :
    NodeOK o node s' n := by
  have hl := hfit.latched
  have hst := Pc.stamp_of_latched hl
  have hsh := Pc.shares_of_latched hl
  have hl₀ := ((h.held f w hf hw).2).latched
  have hsh₀ := Pc.shares_of_latched hl₀
  have hpc' := fun w' hw' => (em (w' = w)).imp_right (hpc w' hw')
  have none_reads := h.readers_of_holder hf (by simp [hw])
  obtain ⟨h1, h2, h3, h4, h5, h6, h7, h8, h9, h10, h11⟩ := h
  constructor
  case allocated =>
    intro w' hw' ha
    by_cases hne : w' = w
    · subst hne
      simp [ha, Pc.latched] at hl
    · exact h11 w' hw' ((hpc w' hw' hne).symm.trans ha)
  all_goals grind

/-- A worker latches a free frame, or puts a latched one into the table. -/
theorem latch {w : W} {f' : Frame W C} (h : NodeOK o node s n) (hw : node w = n)
    (hfree : ∀ f, s.frame n = some f → f.Latchable) (hf' : s'.frame n = some f')
    (hw' : f'.holder = some (.worker w)) (hr : f'.readers = ∅)
    (hv : s.version n < s'.version n) (hp : s'.provider n = s.provider n)
    (hpc : ∀ w', node w' = n → w' ≠ w → s'.pc w' = s.pc w') (hfit : Fits o n f' (s'.pc w)) :
    NodeOK o node s' n := by
  have hl := hfit.latched
  have hst := Pc.stamp_of_latched hl
  have hsh := Pc.shares_of_latched hl
  simp only [Frame.Latchable] at hfree
  have hpc' := fun w' hw' => (em (w' = w)).imp_right (hpc w' hw')
  have none_reads := h.no_readers fun f hf => (hfree f hf).2
  obtain ⟨h1, h2, h3, h4, h5, h6, h7, h8, h9, h10, h11⟩ := h
  constructor
  case allocated =>
    intro w' hw' ha
    by_cases hne : w' = w
    · subst hne
      simp [ha, Pc.latched] at hl
    · exact h11 w' hw' ((hpc w' hw' hne).symm.trans ha)
  all_goals grind

/-- The worker that holds the latch gives it back, or removes the frame. -/
theorem unlatch {w : W} {f : Frame W C} (h : NodeOK o node s n) (hf : s.frame n = some f)
    (hw : f.holder = some (.worker w))
    (hf' : ∀ f', s'.frame n = some f' → f'.holder = none ∧ f'.readers = ∅ ∧ Rest o n f')
    (hv : s.version n < s'.version n) (hp : s'.provider n = s.provider n)
    (hpc : ∀ w', node w' = n → w' ≠ w → s'.pc w' = s.pc w')
    (hl : (s'.pc w).latched = false) (hsh : (s'.pc w).shares = false)
    (hal : s'.pc w ≠ .allocate)
    (hst : ∀ v, (s'.pc w).stamp = some v → v = s'.version n ∧ ∃ f', s'.frame n = some f' ∧
      f'.possession ≠ .nobody ∧ ((s'.pc w).trusts = true → f'.Hot n)) :
    NodeOK o node s' n := by
  have hl₀ := ((h.held f w hf hw).2).latched
  have hsh₀ := Pc.shares_of_latched hl₀
  have hpc' := fun w' hw' => (em (w' = w)).imp_right (hpc w' hw')
  have none_reads := h.readers_of_holder hf (by simp [hw])
  obtain ⟨h1, h2, h3, h4, h5, h6, h7, h8, h9, h10, h11⟩ := h
  constructor
  all_goals grind

/-- A frame that no worker uses is changed or removed under its latch. -/
theorem anon (h : NodeOK o node s n)
    (hfree : ∀ f, s.frame n = some f → f.readers = ∅ ∧ ∀ w, f.holder ≠ some (.worker w))
    (hnew : ∀ f', s'.frame n = some f' → f'.readers = ∅ ∧ ∀ w, f'.holder ≠ some (.worker w))
    (hrest : ∀ f', s'.frame n = some f' → f'.holder = none → Rest o n f')
    (hpro : ∀ f', s'.frame n = some f' → f'.holder = some .provider → n ≠ o ∧ f'.Hot n ∧
      s'.provider n ≠ .idle ∧ ∀ v, s'.provider n = .offered v → f'.pVersion = v)
    (hpro' : s'.provider n ≠ .idle → ∃ f', s'.frame n = some f' ∧ f'.holder = some .provider)
    (hsys : ∀ f', s'.frame n = some f' → f'.holder = some .handler ∨ f'.holder = some .retriever →
      n = o ∧ f'.Hot o ∧ f'.Settled o)
    (hv : s.version n < s'.version n) (hpc : ∀ w, node w = n → s'.pc w = s.pc w) :
    NodeOK o node s' n := by
  have none_reads := h.no_readers fun f hf => (hfree f hf).1
  obtain ⟨h1, h2, h3, h4, h5, h6, h7, h8, h9, h10, h11⟩ := h
  constructor
  all_goals grind

/-- Only the flags of the frame change. -/
theorem flag {f f' : Frame W C} (h : NodeOK o node s n) (hf : s.frame n = some f)
    (hf' : s'.frame n = some f')
    (heq : f' = { f with mhWaiting := f'.mhWaiting, dirty := f'.dirty })
    (hm : f'.mhWaiting = true ∨ n = o) (hv : s'.version n = s.version n)
    (hp : s'.provider n = s.provider n) (hpc : ∀ w, node w = n → s'.pc w = s.pc w) :
    NodeOK o node s' n := by
  have hfits : ∀ p, Fits o n f p → Fits o n f' p := by
    intro p hp
    rw [heq]
    exact hp.flags _ _
  have hset : f.Settled o → f'.Settled o := by
    intro hs
    rw [heq]
    exact hs.flags _ _
  have hhot : ∀ m, f.Hot m → f'.Hot m := by
    intro m hs
    rw [heq]
    exact hs
  have hrest : Rest o n f → Rest o n f' := by
    rintro (⟨rfl, hs⟩ | ⟨hn, hs | ⟨hs, hr⟩⟩)
    · exact .inl ⟨rfl, hset hs⟩
    · exact .inr ⟨hn, .inl (hhot n hs)⟩
    · refine .inr ⟨hn, .inr ⟨?_, by rw [heq]; exact hr⟩⟩
      have hmw : f'.mhWaiting = true := hm.resolve_right hn
      rw [heq]
      exact ⟨hs.1, hs.2.1, hs.2.2.1, hmw⟩
  have hpos : f'.possession = f.possession := by rw [heq]
  have hhold : f'.holder = f.holder := by rw [heq]
  have hread : f'.readers = f.readers := by rw [heq]
  have hver : f'.pVersion = f.pVersion := by rw [heq]
  clear heq
  obtain ⟨h1, h2, h3, h4, h5, h6, h7, h8, h9, h10, h11⟩ := h
  constructor
  all_goals grind

/-- Only what the page holds changes. -/
theorem page {f f' : Frame W C} {c : C} (h : NodeOK o node s n) (hf : s.frame n = some f)
    (hx : f.page.isSome = true) (hf' : s'.frame n = some f') (heq : f' = { f with page := some c })
    (hv : s'.version n = s.version n) (hp : s'.provider n = s.provider n)
    (hpc : ∀ w, node w = n → s'.pc w = s.pc w) : NodeOK o node s' n := by
  have hfits : ∀ p, Fits o n f p → Fits o n f' p := fun p hp => heq ▸ hp.page hx c
  have hset : f.Settled o → f'.Settled o := fun hs => heq ▸ hs.page hx c
  have hhot : ∀ m, f.Hot m → f'.Hot m := fun m hs => heq ▸ ⟨hs.1, hs.2.1, rfl⟩
  have hrest : Rest o n f → Rest o n f' := fun hs => heq ▸ hs.page hx c
  have hpos : f'.possession = f.possession := by rw [heq]
  have hhold : f'.holder = f.holder := by rw [heq]
  have hread : f'.readers = f.readers := by rw [heq]
  have hver : f'.pVersion = f.pVersion := by rw [heq]
  clear heq
  obtain ⟨h1, h2, h3, h4, h5, h6, h7, h8, h9, h10, h11⟩ := h
  constructor
  all_goals grind

/-- A worker changes its mind without touching the frame. -/
theorem setPc {w : W} (h : NodeOK o node s n) (hf : s'.frame n = s.frame n)
    (hv : s'.version n = s.version n) (hp : s'.provider n = s.provider n)
    (hpc : ∀ w', node w' = n → w' ≠ w → s'.pc w' = s.pc w')
    (hl₀ : (s.pc w).latched = false) (hsh₀ : (s.pc w).shares = false)
    (hl : (s'.pc w).latched = false) (hsh : (s'.pc w).shares = false)
    (hal : s'.pc w ≠ .allocate)
    (hst : node w = n → ∀ v, (s'.pc w).stamp = some v → v < s.version n ∨
      (v = s.version n ∧ ∃ f, s.frame n = some f ∧ f.holder = none ∧ f.possession ≠ .nobody ∧
        ((s'.pc w).trusts = true → f.Hot n))) : NodeOK o node s' n := by
  have hpc' := fun w' hw' => (em (w' = w)).imp_right (hpc w' hw')
  obtain ⟨h1, h2, h3, h4, h5, h6, h7, h8, h9, h10, h11⟩ := h
  constructor
  case held =>
    intro f w' hf' hw'
    rw [hf] at hf'
    obtain ⟨hn, hfit⟩ := h1 f w' hf' hw'
    have hne : w' ≠ w := by
      rintro rfl
      simp [hfit.latched] at hl₀
    exact ⟨hn, by rw [hpc w' hn hne]; exact hfit⟩
  all_goals grind

/-- A worker takes the shared latch. -/
theorem addReader [DecidableEq W] {w : W} {f : Frame W C} (h : NodeOK o node s n) (hw : node w = n)
    (hf : s.frame n = some f) (hfree : f.holder = none) (hhot : f.Hot n)
    (hf' : s'.frame n = some { f with readers := insert w f.readers })
    (hv : s'.version n = s.version n) (hp : s'.provider n = s.provider n)
    (hpc : ∀ w', node w' = n → w' ≠ w → s'.pc w' = s.pc w')
    (hg : s'.pc w = .guardS (s.version n)) :
    NodeOK o node s' n := by
  have hpc' := fun w' hw' => (em (w' = w)).imp_right (hpc w' hw')
  have hrest : Rest o n { f with readers := insert w f.readers } := by
    rcases h.rest f hf hfree with ⟨rfl, hs⟩ | ⟨hn, -⟩
    · exact .inl ⟨rfl, hs.possession, hs.hot, hs.shared⟩
    · exact .inr ⟨hn, .inl hhot⟩
  have hhot' : { f with readers := insert w f.readers }.Hot n := hhot
  have hpos : f.possession ≠ .nobody := by
    intro hp
    have := hhot.2.1
    simp [Frame.isPossessor, hp] at this
  have hg1 : (s'.pc w).latched = false ∧ (s'.pc w).shares = true ∧
      (s'.pc w).stamp = some (s.version n) ∧ s'.pc w ≠ .allocate := by
    simp [hg, Pc.latched, Pc.shares, Pc.stamp]
  obtain ⟨h1, h2, h3, h4, h5, h6, h7, h8, h9, h10, h11⟩ := h
  constructor
  all_goals grind

/-- A worker gives the shared latch back. -/
theorem dropReader [DecidableEq W] {w : W} {f : Frame W C} {v : Nat} (h : NodeOK o node s n)
    (hw : node w = n) (hf : s.frame n = some f)
    (hf' : s'.frame n = some { f with readers := f.readers.erase w })
    (hv : s'.version n = s.version n) (hp : s'.provider n = s.provider n)
    (hpc : ∀ w', node w' = n → w' ≠ w → s'.pc w' = s.pc w')
    (hg : s.pc w = .guardS v) (hg' : s'.pc w = .idle ∨ s'.pc w = .guardO v none) :
    NodeOK o node s' n := by
  have hpc' := fun w' hw' => (em (w' = w)).imp_right (hpc w' hw')
  have hmem := (h.readers f w hf).mpr ⟨hw, by simp [hg, Pc.shares]⟩
  have hfree : f.holder = none := by
    by_contra hne
    simp [h.excl f hf hne] at hmem
  have hst := h.stamp w v hw (by simp [hg, Pc.stamp])
  have htr : (s.pc w).trusts = true := by simp [hg, Pc.trusts]
  have hrest : Rest o n { f with readers := f.readers.erase w } := by
    rcases h.rest f hf hfree with ⟨rfl, hs⟩ | ⟨hn, hs | ⟨-, hr⟩⟩
    · exact .inl ⟨rfl, hs.possession, hs.hot, hs.shared⟩
    · exact .inr ⟨hn, .inl hs⟩
    · simp [hr] at hmem
  have hhot : ∀ f₁, f = f₁ → f₁.Hot n → { f with readers := f.readers.erase w }.Hot n := by
    rintro _ rfl hs
    exact hs
  have hg1 : (s'.pc w).latched = false ∧ (s'.pc w).shares = false ∧ s'.pc w ≠ .allocate ∧
      ∀ v', (s'.pc w).stamp = some v' → v' = v := by
    rcases hg' with hg' | hg' <;> simp [hg', Pc.latched, Pc.shares, Pc.stamp]
  have hg0 : (s.pc w).latched = false ∧ (s.pc w).shares = true := by
    simp [hg, Pc.latched, Pc.shares]
  obtain ⟨h1, h2, h3, h4, h5, h6, h7, h8, h9, h10, h11⟩ := h
  constructor
  all_goals grind

end NodeOK

end ScaleStore.Protocol
