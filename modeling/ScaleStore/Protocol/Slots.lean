/-
# Frames in their slots

The machine of a page has a frame on a node or has none.  In the program the
frames of a node are a fixed array: a frame that is not in use is `FREE` and
carries `EMPTY_PID`, an insertion writes some of its fields, and `removeFrame`
resets it.  The fields that an insertion does not write are the ones the reset
has left behind.

Read off the slots, the owner's frame of a page that nobody has latched is `HOT`
with its page and in the owner's possession, or `EVICTED` without it.
-/

import ScaleStore.Protocol.Coherence

namespace ScaleStore.Protocol

/-- `BF_STATE` with `FREE`. -/
inductive SlotState where
  | free
  | used (state : BfState)
deriving DecidableEq, Repr

/-- A `BufferFrame` of the array; `EMPTY_PID` is `none`. -/
structure BufferFrame (PID W C : Type) where
  pid : Option PID
  state : SlotState
  possession : Possession
  possessors : Possessors
  pVersion : Nat
  mhWaiting : Bool
  dirty : Bool
  page : Option C
  holder : Option (Holder W)
  readers : Finset W

variable {PID W C F : Type}

namespace BufferFrame

/-- The frame as the protocol sees it. -/
def view (b : BufferFrame PID W C) : Option (Frame W C) :=
  match b.state with
  | .free => none
  | .used st => some ⟨st, b.possession, b.possessors, b.pVersion, b.mhWaiting, b.dirty, b.page,
      b.holder, b.readers⟩

/-- The protocol writes the fields of a frame; it does not know its PID. -/
def store (b : BufferFrame PID W C) (f : Frame W C) : BufferFrame PID W C :=
  ⟨b.pid, .used f.state, f.possession, f.possessors, f.pVersion, f.mhWaiting, f.dirty, f.page,
    f.holder, f.readers⟩

/-- `reset`, and the exclusive latch released after it. -/
def reset (b : BufferFrame PID W C) : BufferFrame PID W C :=
  { b with
    pVersion := 0
    pid := none
    page := none
    possession := .nobody
    possessors := 0#64
    mhWaiting := false
    dirty := false
    state := .free
    holder := none }

/-- `BufferFrame::isPossessor`. -/
def isPossessor (b : BufferFrame PID W C) (n : NodeID) : Bool :=
  match b.possession with
  | .nobody => false
  | .exclusive => b.possessors.toNode == n
  | .shared => b.possessors.test n

/-! What the insertions write. -/

/-- `findFrameOrInsert`. -/
def fetch (b : BufferFrame PID W C) (pid : PID) (h : Holder W) (st : BfState) (c : C) :
    BufferFrame PID W C :=
  { b with
    holder := some h
    state := .used st
    page := some c
    pid := some pid
    possession := .nobody }

/-- `findFrameOrInsert` for a request of another node, and what `handlePossessionRequest` writes
before it posts the read. -/
def load (b : BufferFrame PID W C) (pid : PID) (self : NodeID) (c : C) : BufferFrame PID W C :=
  { b.fetch pid .handler .hot c with
    possession := .shared
    possessors := b.possessors.set self
    dirty := false }

/-- `newPage` and `newRemotePage`; the guard that the frame is returned to marks it dirty. -/
def create (b : BufferFrame PID W C) (pid : PID) (self : NodeID) (w : W) (c : C) :
    BufferFrame PID W C :=
  { b with
    holder := some (.worker w)
    page := some c
    pid := some pid
    possession := .exclusive
    possessors := .ofNode self
    state := .used .hot
    pVersion := 0
    dirty := true }

/-- RAR, which unlatches the frame again. -/
def allocate (b : BufferFrame PID W C) (pid : PID) (bmId : NodeID) : BufferFrame PID W C :=
  { b with
    possession := .exclusive
    possessors := .ofNode bmId
    state := .used .evicted
    pid := some pid
    pVersion := 0
    dirty := true }

/-- The ways a frame gets into the table. -/
inductive Inserted (pid : PID) (b : BufferFrame PID W C) : BufferFrame PID W C → Prop where
  | fetch (h st c) : Inserted pid b (b.fetch pid h st c)
  | load (self c) : Inserted pid b (b.load pid self c)
  | create (self w c) : Inserted pid b (b.create pid self w c)
  | allocate (bmId) : Inserted pid b (b.allocate pid bmId)

/-- A frame that is not in use. -/
structure Blank (b : BufferFrame PID W C) : Prop where
  pid : b.pid = none
  state : b.state = .free
  possession : b.possession = .nobody
  possessors : b.possessors = 0#64
  pVersion : b.pVersion = 0
  mhWaiting : b.mhWaiting = false
  dirty : b.dirty = false
  page : b.page = none

theorem blank_reset (b : BufferFrame PID W C) : b.reset.Blank :=
  ⟨rfl, rfl, rfl, rfl, rfl, rfl, rfl, rfl⟩

@[simp] theorem view_store (b : BufferFrame PID W C) (f : Frame W C) : (b.store f).view = some f :=
  rfl

theorem used_of_inserted {pid : PID} {b b' : BufferFrame PID W C} (h : Inserted pid b b') :
    b'.pid = some pid ∧ b'.state ≠ .free := by
  cases h <;> exact ⟨rfl, by simp [fetch, load, create, allocate]⟩

/-- Into a blank frame with a free latch the insertions write the frames that the machine
inserts: what they leave out has been reset. -/
theorem Blank.view_inserted {b : BufferFrame PID W C} (h : b.Blank) (hh : b.holder = none)
    (hr : b.readers = ∅) (pid : PID) :
    (∀ ho st c, (b.fetch pid ho st c).view = some (Frame.fresh ho st c)) ∧
    (∀ self c, (b.load pid self c).view = some (ssdFrame self c)) ∧
    (∀ self w c, (b.create pid self w c).view = some (newFrame self w c)) ∧
    (∀ bmId, (b.allocate pid bmId).view = some (allocatedFrame bmId)) := by
  obtain ⟨_, _, _, hpossessors, hversion, hwaiting, hdirty, hpage⟩ := h
  refine ⟨?_, ?_, ?_, ?_⟩
  · intro ho st c
    simp [fetch, view, Frame.fresh, hpossessors, hversion, hwaiting, hdirty, hr]
  · intro self c
    simp [load, fetch, view, ssdFrame, hpossessors, hversion, hwaiting, hr]
  · intro self w c
    simp [create, view, newFrame, hwaiting, hr]
  · intro bmId
    simp [allocate, view, allocatedFrame, hwaiting, hpage, hh, hr]

end BufferFrame

/-! ## The array of one node -/

variable [DecidableEq F] [DecidableEq PID]

/-- What a step on page `p` does to the array of a node whose frame of `p` goes from `before` to
`after`. -/
inductive SlotStep (p : PID) (before after : Option (Frame W C))
    (slots : F → BufferFrame PID W C) : (F → BufferFrame PID W C) → Prop where
  | absent : before = none → after = none → SlotStep p before after slots slots
  | update {x f} : (slots x).pid = some p → after = some f →
    SlotStep p before after slots (Function.update slots x ((slots x).store f))
  /-- `findFrameOrInsert` and `insertFrame` take a frame that is `FREE`. -/
  | insert {x b} : before = none → (slots x).state = .free → (slots x).Inserted p b →
    after = b.view → SlotStep p before after slots (Function.update slots x b)
  /-- `removeFrame`. -/
  | remove {x} : (slots x).pid = some p → after = none →
    SlotStep p before after slots (Function.update slots x (slots x).reset)

/-- The array holds the frames of the node's pages, each once, and blank frames. -/
structure Mirrors (frames : PID → Option (Frame W C)) (slots : F → BufferFrame PID W C) : Prop where
  linked : ∀ x p, (slots x).pid = some p → ∃ f, frames p = some f ∧ (slots x).view = some f
  unique : ∀ x y p, (slots x).pid = some p → (slots y).pid = some p → x = y
  blank : ∀ x, (slots x).pid = none → (slots x).Blank

namespace Mirrors

variable {frames : PID → Option (Frame W C)} {slots slots' : F → BufferFrame PID W C} {p : PID}

/-- A frame that is written stays with its page, or becomes blank, or is new. -/
theorem set (h : Mirrors frames slots) {x : F} {b : BufferFrame PID W C}
    {after : Option (Frame W C)} (hold : ∀ y, (slots y).pid = some p → y = x)
    (hx : (slots x).pid = some p ∨ (slots x).pid = none)
    (hb : (b.pid = some p ∧ ∃ f, after = some f ∧ b.view = some f) ∨ b.Blank) :
    Mirrors (Function.update frames p after) (Function.update slots x b) := by
  have hother : ∀ y, y ≠ x → (slots y).pid ≠ some p := fun y hy hp => hy (hold y hp)
  have hpid : ∀ q, b.pid = some q → q = p := by
    intro q hq
    rcases hb with ⟨hb, _⟩ | hb
    · exact Option.some.inj (hq.symm.trans hb)
    · simp [hb.pid] at hq
  refine ⟨?_, ?_, ?_⟩
  · intro y q hq
    by_cases hy : y = x
    · subst hy
      rw [Function.update_self] at hq ⊢
      obtain rfl := hpid q hq
      rcases hb with ⟨_, f, hf, hview⟩ | hb
      · exact ⟨f, by simpa using hf, hview⟩
      · simp [hb.pid] at hq
    · rw [Function.update_of_ne hy] at hq ⊢
      have hqp : q ≠ p := by
        rintro rfl
        exact hother y hy hq
      rw [Function.update_of_ne hqp]
      exact h.linked y q hq
  · intro y z q hy hz
    by_cases hyx : y = x
    · by_cases hzx : z = x
      · rw [hyx, hzx]
      · subst hyx
        rw [Function.update_self] at hy
        rw [Function.update_of_ne hzx] at hz
        obtain rfl := hpid q hy
        exact absurd hz (hother z hzx)
    · rw [Function.update_of_ne hyx] at hy
      by_cases hzx : z = x
      · subst hzx
        rw [Function.update_self] at hz
        obtain rfl := hpid q hz
        exact absurd hy (hother y hyx)
      · rw [Function.update_of_ne hzx] at hz
        exact h.unique y z q hy hz
  · intro y hy
    by_cases hyx : y = x
    · subst hyx
      rw [Function.update_self] at hy ⊢
      rcases hb with ⟨hb, _⟩ | hb
      · simp [hy] at hb
      · exact hb
    · rw [Function.update_of_ne hyx] at hy ⊢
      exact h.blank y hy

theorem step (h : Mirrors frames slots) {after : Option (Frame W C)}
    (st : SlotStep p (frames p) after slots slots') :
    Mirrors (Function.update frames p after) slots' := by
  cases st with
  | absent hbefore hafter =>
    rw [hafter, ← hbefore, Function.update_eq_self]
    exact h
  | update hx hafter =>
    refine h.set (fun y hy => h.unique y _ p hy hx) (.inl hx) (.inl ⟨hx, _, hafter, ?_⟩)
    exact BufferFrame.view_store _ _
  | @insert x b hbefore hfree hins hafter =>
    have hnone : ∀ y, (slots y).pid ≠ some p := by
      intro y hy
      obtain ⟨f, hf, _⟩ := h.linked y p hy
      simp [hbefore] at hf
    have hx : (slots x).pid = none := by
      rcases hp : (slots x).pid with _ | q
      · rfl
      · obtain ⟨f, _, hview⟩ := h.linked x q hp
        simp [BufferFrame.view, hfree] at hview
    obtain ⟨hpid, hstate⟩ := BufferFrame.used_of_inserted hins
    refine h.set (fun y hy => absurd hy (hnone y)) (.inr hx) (.inl ⟨hpid, ?_⟩)
    rcases hview : b.view with _ | f
    · unfold BufferFrame.view at hview
      split at hview
      · exact absurd ‹_› hstate
      · cases hview
    · exact ⟨f, hafter.trans hview, rfl⟩
  | remove hx hafter =>
    exact h.set (fun y hy => h.unique y _ p hy hx) (.inl hx)
      (.inr (BufferFrame.blank_reset _))

end Mirrors

/-! ## The store -/

/-- All pages, and the arrays of all nodes. -/
structure Store (PID W C F : Type) where
  page : PID → PageState W C
  slot : NodeID → F → BufferFrame PID W C

variable [DecidableEq W]

/-- Every step of the pages, with what it does to the arrays. -/
def store (F : Type) [DecidableEq F] (cfg : Config) (owner : PID → NodeID) (node : W → NodeID) :
    System (Store PID W C F) where
  Init σ := (∀ p, Init (σ.page p)) ∧
    ∀ n x, (σ.slot n x).Blank ∧ (σ.slot n x).holder = none ∧ (σ.slot n x).readers = ∅
  Step σ σ' := ∃ p s', WorldStep cfg owner node σ.page p s' ∧
    σ'.page = Function.update σ.page p s' ∧
    ∀ n, SlotStep p ((σ.page p).frame n) (s'.frame n) (σ.slot n) (σ'.slot n)

variable {cfg : Config} {owner : PID → NodeID} {node : W → NodeID} {σ : Store PID W C F}

/-- The pages of the store run as they do without the arrays. -/
theorem store_world (h : (store F cfg owner node).Reachable σ) :
    (world cfg owner node).Reachable σ.page := by
  induction h with
  | init h => exact .init h.1
  | step _ h ih =>
    obtain ⟨p, s', hst, hpage, _⟩ := h
    exact ih.step ⟨p, s', hst, hpage⟩

theorem store_init_mirrors (h : (store F cfg owner node).Init σ) (n : NodeID) :
    Mirrors (fun p => (σ.page p).frame n) (σ.slot n) := by
  refine ⟨?_, ?_, fun x _ => (h.2 n x).1⟩
  · intro x p hp
    simp [(h.2 n x).1.pid] at hp
  · intro x y p hp
    simp [(h.2 n x).1.pid] at hp

theorem store_step_mirrors {σ' : Store PID W C F} (st : (store F cfg owner node).Step σ σ')
    {n : NodeID} (h : Mirrors (fun p => (σ.page p).frame n) (σ.slot n)) :
    Mirrors (fun p => (σ'.page p).frame n) (σ'.slot n) := by
  obtain ⟨p, s', _, hpage, hslots⟩ := st
  have hframes : (fun q => (σ'.page q).frame n) =
      Function.update (fun q => (σ.page q).frame n) p (s'.frame n) := by
    funext q
    by_cases hq : q = p
    · subst hq
      simp [hpage]
    · simp [hpage, hq]
  rw [hframes]
  exact h.step (hslots n)

theorem store_mirrors (h : (store F cfg owner node).Reachable σ) (n : NodeID) :
    Mirrors (fun p => (σ.page p).frame n) (σ.slot n) := by
  induction h with
  | init h => exact store_init_mirrors h n
  | step _ st ih => exact store_step_mirrors st ih

/-! ## The owner's frames -/

/-- What holds of a frame on the owner node of its page, when it is not latched. -/
structure OwnerFrame (n : NodeID) (b : BufferFrame PID W C) : Prop where
  hot : b.state = .used .hot ↔ b.page ≠ none ∧ b.isPossessor n = true
  evicted : b.state = .used .evicted →
    b.page = none ∧ b.isPossessor n = false ∧ ∃ m, m ≠ n ∧ b.isPossessor m = true
  free : b.state = .free ↔ b.pid = none
  nobody : b.state = .free → b.possession = .nobody

omit [DecidableEq PID] [DecidableEq W] in
theorem BufferFrame.Blank.ownerFrame {n : NodeID} {b : BufferFrame PID W C} (h : b.Blank) :
    OwnerFrame n b := by
  refine ⟨?_, ?_, ?_, fun _ => h.possession⟩
  · simp [h.state, h.page]
  · simp [h.state]
  · simp [h.state, h.pid]

omit [DecidableEq PID] [DecidableEq W] in
/-- Somebody possesses the page of a settled frame. -/
theorem Frame.Settled.ownerFrame {n : NodeID} {f : Frame W C} (h : f.Settled n)
    {b : BufferFrame PID W C} (hview : b.view = some f) (hpid : b.pid ≠ none) :
    OwnerFrame n b := by
  have hb : b.state = .used f.state ∧ b.page = f.page ∧ ∀ m, b.isPossessor m = f.isPossessor m := by
    unfold BufferFrame.view at hview
    split at hview
    · cases hview
    · obtain rfl := Option.some.inj hview
      exact ⟨‹_›, rfl, fun m => rfl⟩
  obtain ⟨hstate, hpage, hpossessor⟩ := hb
  refine ⟨?_, ?_, ?_, ?_⟩
  · rw [hstate, hpage, hpossessor]
    rcases h.hot with hhot | ⟨hev, _, hnone⟩
    · have hsome : f.page ≠ none := by
        intro hnone
        simp [hnone, Frame.Hot] at hhot
      simp [hhot.1, hhot.2.1, hsome]
    · simp [hev, hnone]
  · intro hev
    have hev' : f.state = .evicted := by simpa [hstate] using hev
    obtain ⟨hself, hnone⟩ := h.of_evicted hev'
    refine ⟨hpage.trans hnone, (hpossessor n).trans hself, ?_⟩
    -- a node is named in either mode, and it is not the owner
    have hnamed : ∃ m, f.isPossessor m = true := by
      cases hmode : f.possession with
      | nobody => exact absurd hmode h.possession
      | exclusive => exact ⟨f.possessors.toNode, by simp [Frame.isPossessor, hmode]⟩
      | shared =>
        obtain ⟨m, hm⟩ := Possessors.any_iff.mp (h.shared hmode)
        exact ⟨m, by simpa [Frame.isPossessor, hmode] using hm⟩
    obtain ⟨m, hm⟩ := hnamed
    refine ⟨m, ?_, (hpossessor m).trans hm⟩
    rintro rfl
    simp [hself] at hm
  · simp [hstate, hpid]
  · simp [hstate]

omit [DecidableEq W] in
/-- The owner's frame of a page is settled whenever no one has latched it, allocated or not. -/
theorem Invariant.settled {o : NodeID} {s : PageState W C} {f : Frame W C}
    (h : Invariant o node s) (hf : s.frame o = some f) (hh : f.holder = none) : f.Settled o := by
  unfold Invariant at h
  split at h
  · exact h.nodes.settled hf hh
  · cases h with
    | unused hun _ => exact (hun.owner f hf).2.1
    | allocating w hn _ _ _ _ ho =>
      rw [ho] at hf
      obtain rfl := Option.some.inj hf
      refine ⟨by simp [allocatedFrame], .inr ⟨rfl, ?_, rfl⟩, by simp [allocatedFrame]⟩
      simp [allocatedFrame, Frame.isPossessor, hn]

/-- In every reachable state every frame that is not latched and carries no PID of another owner
is in order. -/
theorem owner_frames (h : (store F cfg owner node).Reachable σ) (n : NodeID) (x : F)
    (hlatch : (σ.slot n x).holder = none) (hown : ∀ p, (σ.slot n x).pid = some p → owner p = n) :
    OwnerFrame n (σ.slot n x) := by
  have hmirrors := store_mirrors h n
  rcases hpid : (σ.slot n x).pid with _ | p
  · exact (hmirrors.blank x hpid).ownerFrame
  · obtain ⟨f, hf, hview⟩ := hmirrors.linked x p hpid
    obtain rfl := hown p hpid
    have hfree : f.holder = none := by
      unfold BufferFrame.view at hview
      split at hview
      · cases hview
      · obtain rfl := Option.some.inj hview
        exact hlatch
    have hinv := machine_invariant (world_page (store_world h) p)
    exact (hinv.settled hf hfree).ownerFrame hview (by simp [hpid])

/-- A frame of the array before anything has happened. -/
def BufferFrame.initial : BufferFrame PID W C :=
  ⟨none, .free, .nobody, 0#64, 0, false, false, none, none, ∅⟩

/-- One page and one frame on each node; a worker of node 1 is allocating the page on node 0. -/
def allocatedStore : Store Unit Unit Nat Unit where
  page _ := ((PageState.start 7 false).setFrame 0 (some (allocatedFrame 1)) 4).setPc () .allocate
  slot n _ := if n = 0 then BufferFrame.initial.allocate () 1 else .initial

theorem allocatedStore_reachable :
    (store Unit ⟨true, true, true⟩ (fun _ => 0) fun _ => 1).Reachable allocatedStore := by
  have hinit : (store Unit ⟨true, true, true⟩ (fun _ => 0) fun _ => 1).Reachable
      (⟨fun _ => PageState.start 7 false, fun _ _ => .initial⟩ : Store Unit Unit Nat Unit) :=
    .init ⟨fun _ => PageState.start_init 7 false,
      fun _ _ => ⟨⟨rfl, rfl, rfl, rfl, rfl, rfl, rfl, rfl⟩, rfl, rfl⟩⟩
  refine .step hinit ⟨(), _, .step (.handler (.allocation (w := ()) rfl rfl (by decide) rfl)), ?_,
    ?_⟩
  · funext x
    simp [allocatedStore]
  · intro n
    by_cases hn : n = 0
    · subst hn
      have hslot : allocatedStore.slot 0 = Function.update (fun _ => BufferFrame.initial) ()
          (BufferFrame.initial.allocate () 1) := by
        funext x
        simp [allocatedStore]
      rw [hslot]
      exact .insert rfl rfl (.allocate 1) (by simp; rfl)
    · have hslot : allocatedStore.slot n = fun _ => .initial := by
        funext x
        simp [allocatedStore, hn]
      rw [hslot]
      exact .absent rfl (by simp [hn, PageState.start])

theorem owner_frames_allocated : OwnerFrame 0 (allocatedStore.slot 0 ()) :=
  owner_frames allocatedStore_reachable 0 () rfl (fun _ _ => rfl)

end ScaleStore.Protocol
