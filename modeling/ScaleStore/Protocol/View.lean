/-
# The ledger of a page

How a state of the machine is read as a ledger of possession.  The copies in use
are the HOT frames of the nodes that possess the page; the directory is the
owner's frame, except while a worker of the owner changes it; the acquisitions
under way are the workers between the owner's grant and the end of `fix`.
-/

import ScaleStore.Lib.LedgerMoves
import ScaleStore.Protocol.LocalSteps

namespace ScaleStore.Protocol

variable {W C : Type}

/-! ## Copies -/

/-- A worker has latched the frame exclusively. -/
def Frame.byWorker (f : Frame W C) : Bool :=
  match f.holder with
  | some (.worker _) => true
  | _ => false

/-- The copy in use on the node `n`, if the frame is one.  A worker that asks for an upgrade has
moved the version on already. -/
def Frame.copy (f : Frame W C) (n : NodeID) (p : Provider) : Option Copy :=
  if f.state = .hot ∧ f.isPossessor n = true ∧ p ≠ .acked then
    some ⟨if f.possession = .shared ∧ f.byWorker = true then f.pVersion - 1 else f.pVersion,
      f.possession = .exclusive⟩
  else none

/-- The version of a frame that a worker has left behind after it failed to copy the page. -/
def Frame.left (f : Frame W C) : Option Nat :=
  if f.state = .ioRdma ∧ f.holder = none then some f.pVersion else none

/-! ## Acquisitions -/

/-- The acquisition that a plan of a worker on `n` amounts to. -/
def Plan.acquisition (n : NodeID) (g : GuardState) (t : Access) (e : Nat) :
    Plan → Acquisition NodeID
  | .move shared => ⟨n, e, true, t = .exclusive, shared.members, false, false⟩
  | .invalidate shared =>
    ⟨n, e, true, true, shared.members, true, g = .remotePossessionChange⟩
  | .copy _ => ⟨n, e, false, false, ∅, false, false⟩
  | .complete =>
    if t = .exclusive then ⟨n, e, true, true, ∅, true, g = .remotePossessionChange⟩
    else ⟨n, e, false, false, ∅, true, false⟩

/-- The plan that a worker follows after this response. -/
def Response.planned (r : Response) : Plan :=
  match r.result with
  | .withPage => .complete
  | .noPageExclusiveConflict => .move (Possessors.set 0#64 r.conflictingNodeId.toNode)
  | .noPageSharedConflict => .move r.conflictingNodeId
  | .withPageSharedConflict => .invalidate r.conflictingNodeId
  | .noPageEvicted => .copy r.conflictingNodeId

theorem Response.plan_eq {r : Response} {plan : Plan} (h : r.plan = .ok plan) :
    plan = r.planned := by
  unfold Response.plan at h
  unfold Response.planned
  rcases hr : r.result with _ | _ | _ | _ | _
  all_goals rw [hr] at h
  case withPage => simpa using h.symm
  case noPageExclusiveConflict => simpa using h.symm
  all_goals
    simp only [ensure_bind] at h
    split at h
    case isTrue => simpa [Pure.pure, Except.pure] using h.symm
    case isFalse => cases h

/-- The acquisition of a worker on the node `n`. -/
def Pc.acquisition (n : NodeID) : Pc C → Option (Acquisition NodeID)
  | .response t r => some (r.planned.acquisition n .remote t r.pVersion)
  | .move _ t e c rest =>
    some ⟨n, e, true, t = .exclusive, insert c (rest.members : Set NodeID), false, false⟩
  | .invalidate g t e pending => some ((Plan.invalidate pending).acquisition n g t e)
  | .copy g t e shared _ => some ((Plan.copy shared).acquisition n g t e)
  | .copyFailed g t e shared => some ((Plan.copy shared).acquisition n g t e)
  | .complete g t e => if g = .ssd then none else some (Plan.complete.acquisition n g t e)
  | .updated t _ (.succeed e) =>
    some ((Plan.invalidate 0#64).acquisition n .remotePossessionChange t e)
  | .updated t _ (.succeedWithSharedConflict e shared) =>
    some ((Plan.invalidate (shared.reset n)).acquisition n .remotePossessionChange t e)
  | _ => none

/-! ## The directory -/

/-- The owner's frame as it stands. -/
def Frame.entry (f : Frame W C) : Set NodeID × Bool := (f.named, f.possession = .exclusive)

/-- The nodes that possess the page by the owner's frame `f` and whether exclusively, while a
worker with this program counter holds the frame's latch.  A possession change on the owner is
valid from its beginning. -/
def Pc.view (o : NodeID) (f : Frame W C) : Pc C → Set NodeID × Bool
  | .move .localPossessionChange t _ _ _ => ({o}, t = .exclusive)
  | .invalidate .localPossessionChange _ _ _ => ({o}, true)
  | .copy .localPossessionChange _ _ _ _ => (insert o (f.named : Set NodeID), false)
  | .copyFailed .localPossessionChange _ _ _ => (insert o (f.named : Set NodeID), false)
  | .complete .localPossessionChange t _ =>
    if t = .exclusive then ({o}, true)
    else if f.possession = .exclusive then ({o}, false)
    else (insert o (f.named : Set NodeID), false)
  | _ => f.entry

/-- The nodes that possess the page by the owner's frame, and whether exclusively. -/
def Frame.view (f : Frame W C) (o : NodeID) (pc : W → Pc C) : Set NodeID × Bool :=
  match f.holder with
  | some (.worker w) => (pc w).view o f
  | _ => f.entry

/-- The ledger of a page owned by `o`. -/
def ledger (o : NodeID) (node : W → NodeID) (s : PageState W C) : Ledger NodeID W where
  epoch := match s.frame o with
    | some f => f.pVersion
    | none => 0
  dir := match s.frame o with
    | some f => (f.view o s.pc).1
    | none => ∅
  dirExcl := match s.frame o with
    | some f => (f.view o s.pc).2
    | none => false
  live n := (s.frame n).bind fun f => f.copy n (s.provider n)
  acq w := (s.pc w).acquisition (node w)
  left n := (s.frame n).bind Frame.left

variable {o : NodeID} {node : W → NodeID} {s s' : PageState W C} {f f' : Frame W C}

@[simp] theorem ledger_live (n : NodeID) :
    (ledger o node s).live n = (s.frame n).bind fun f => f.copy n (s.provider n) := rfl

@[simp] theorem ledger_acq (w : W) :
    (ledger o node s).acq w = (s.pc w).acquisition (node w) := rfl

@[simp] theorem ledger_left (n : NodeID) :
    (ledger o node s).left n = (s.frame n).bind Frame.left := rfl

theorem ledger_epoch (hf : s.frame o = some f) : (ledger o node s).epoch = f.pVersion := by
  simp [ledger, hf]

theorem ledger_dir (hf : s.frame o = some f) : (ledger o node s).dir = (f.view o s.pc).1 := by
  simp [ledger, hf]

theorem ledger_dirExcl (hf : s.frame o = some f) :
    (ledger o node s).dirExcl = (f.view o s.pc).2 := by
  simp [ledger, hf]

theorem ledger_none (hf : s.frame o = none) :
    (ledger o node s).epoch = 0 ∧ (ledger o node s).dir = ∅ := by
  simp [ledger, hf]

/-! ## Workers under way -/

theorem Pc.acquisition_latched {p : Pc C} {n : NodeID} {q : Acquisition NodeID}
    (h : p.acquisition n = some q) : p.latched = true := by
  cases p <;> first | rfl | simp [Pc.acquisition] at h

theorem Plan.acquisition_node (n : NodeID) (g : GuardState) (t : Access) (e : Nat) (plan : Plan) :
    (plan.acquisition n g t e).node = n := by
  cases plan with
  | complete =>
    simp only [Plan.acquisition]
    split <;> rfl
  | _ => rfl

theorem Pc.acquisition_node {p : Pc C} {n : NodeID} {q : Acquisition NodeID}
    (h : p.acquisition n = some q) : q.node = n := by
  cases p with
  | complete g t e =>
    simp only [Pc.acquisition] at h
    split at h
    · cases h
    · rw [← Option.some.inj h, Plan.acquisition_node]
  | updated t old r =>
    cases r with
    | failed => cases h
    | succeed => rw [← Option.some.inj h, Plan.acquisition_node]
    | succeedWithSharedConflict => rw [← Option.some.inj h, Plan.acquisition_node]
  | response => rw [← Option.some.inj h, Plan.acquisition_node]
  | move => rw [← Option.some.inj h]
  | invalidate => rw [← Option.some.inj h, Plan.acquisition_node]
  | copy => rw [← Option.some.inj h, Plan.acquisition_node]
  | copyFailed => rw [← Option.some.inj h, Plan.acquisition_node]
  | _ => cases h

/-- A node is busy only while one of its workers holds the latch of its frame. -/
theorem Nodes.busy (h : Nodes o node s) {n : NodeID} (hb : (ledger o node s).Busy n) :
    ∃ w f, node w = n ∧ s.frame n = some f ∧ f.holder = some (.worker w) ∧
      ((s.pc w).acquisition n).isSome = true := by
  obtain ⟨w, q, hq, rfl⟩ := hb
  rw [ledger_acq] at hq
  have hn := Pc.acquisition_node hq
  obtain ⟨f, hf, hh⟩ := (h (node w)).holds w rfl (Pc.acquisition_latched hq)
  exact ⟨w, f, hn.symm, hn ▸ hf, hh, by rw [hn, hq]; rfl⟩

theorem Nodes.not_busy (h : Nodes o node s) {n : NodeID}
    (hf : ∀ f, s.frame n = some f → f.byWorker = false) : ¬ (ledger o node s).Busy n := by
  intro hb
  obtain ⟨w, f, -, hf', hh, -⟩ := h.busy hb
  have := hf f hf'
  simp [Frame.byWorker, hh] at this

theorem Frame.Latchable.byWorker (h : f.Latchable) : f.byWorker = false := by
  simp [Frame.byWorker, h.1]

theorem Nodes.not_busy_of_latchable (h : Nodes o node s) {n : NodeID} (hf : s.frame n = some f)
    (hl : f.Latchable) : ¬ (ledger o node s).Busy n := by
  apply h.not_busy
  intro f' hf'
  rw [hf] at hf'
  exact Option.some.inj hf' ▸ hl.byWorker

/-- The worker that holds the latch is the only one that can make its node busy. -/
theorem Nodes.not_busy_of_holder (h : Nodes o node s) {w : W} (hl : (s.pc w).latched = true)
    (ha : (s.pc w).acquisition (node w) = none) : ¬ (ledger o node s).Busy (node w) := by
  intro hb
  obtain ⟨w', f, hn, hf, hh, hq⟩ := h.busy hb
  have hh' := (h (node w)).holder_eq hf rfl hl
  rw [hh] at hh'
  obtain rfl : w' = w := by simpa using hh'
  simp [ha] at hq

/-! ## States with the same ledger -/

theorem Frame.view_of_free {pc : W → Pc C} (h : f.byWorker = false) : f.view o pc = f.entry := by
  unfold Frame.byWorker at h
  unfold Frame.view
  split
  · next w hw => simp [hw] at h
  · rfl

theorem Frame.view_of_worker {pc : W → Pc C} {w : W} (h : f.holder = some (.worker w)) :
    f.view o pc = (pc w).view o f := by
  simp [Frame.view, h]

/-- The directory depends on the owner's frame and on the worker that holds it. -/
theorem Nodes.view_congr (h : Nodes o node s) (hf : s.frame o = some f) {pc : W → Pc C}
    (hpc : ∀ w, f.holder = some (.worker w) → node w = o → pc w = s.pc w) :
    f.view o pc = f.view o s.pc := by
  unfold Frame.view
  split
  · next w hw => rw [hpc w hw ((h o).held f w hf hw).1]
  · rfl

theorem Nodes.sameDir (h : Nodes o node s) (hf : s'.frame o = s.frame o)
    (hpc : ∀ f w, s.frame o = some f → f.holder = some (.worker w) → node w = o →
      s'.pc w = s.pc w) : Ledger.SameDir (ledger o node s) (ledger o node s') := by
  rcases hs : s.frame o with _ | f
  · constructor <;> simp [ledger, hf, hs]
  · have hv : f.view o s'.pc = f.view o s.pc :=
      h.view_congr hs fun w hw hn => hpc f w hs hw hn
    constructor <;> simp [ledger, hf, hs, hv]

theorem ledger_eq (hd : Ledger.SameDir (ledger o node s) (ledger o node s'))
    (hl : ∀ n, (ledger o node s').live n = (ledger o node s).live n)
    (ha : ∀ w, (ledger o node s').acq w = (ledger o node s).acq w)
    (hleft : ∀ n, (ledger o node s').left n = (ledger o node s).left n) :
    ledger o node s' = ledger o node s := by
  obtain ⟨h1, h2, h3⟩ := hd
  have hl' := funext hl
  have ha' := funext ha
  have hleft' := funext hleft
  generalize ledger o node s = a at *
  generalize ledger o node s' = b at *
  cases a
  cases b
  simp_all

section Quiet

variable [DecidableEq W] {w : W} {p : Pc C} {n : NodeID} {k : Nat}

/-- A worker changes its node's frame and its phase, and neither shows. -/
theorem Nodes.quiet_own (h : Nodes o node s) (hf : s.frame (node w) = some f)
    (hcopy : f'.copy (node w) (s.provider (node w)) = f.copy (node w) (s.provider (node w)))
    (hleft : f'.left = f.left)
    (hacq : p.acquisition (node w) = (s.pc w).acquisition (node w))
    (hdir : node w = o → f'.pVersion = f.pVersion ∧
      f'.view o (Function.update s.pc w p) = f.view o s.pc) :
    ledger o node ((s.setFrame (node w) (some f') k).setPc w p) = ledger o node s := by
  apply ledger_eq
  · by_cases ho : node w = o
    · obtain ⟨h1, h2⟩ := hdir ho
      subst ho
      constructor <;> simp [ledger, hf, h1, h2]
    · apply h.sameDir
      · simp [Ne.symm ho]
      · intro f₀ w₀ _ _ hn
        have hne : w₀ ≠ w := by
          rintro rfl
          exact ho hn
        simp [hne]
  · intro n
    by_cases hn : n = node w
    · subst hn
      simp [hf, hcopy]
    · simp [hn]
  · intro w'
    by_cases hw : w' = w
    · subst hw
      simp [hacq]
    · simp [hw]
  · intro n
    by_cases hn : n = node w
    · subst hn
      simp [hf, hleft]
    · simp [hn]

/-- A worker changes its phase. -/
theorem Nodes.quiet_pc (h : Nodes o node s)
    (hacq : p.acquisition (node w) = (s.pc w).acquisition (node w))
    (hdir : node w = o → (s.pc w).latched = true → ∀ f, s.frame o = some f →
      p.view o f = (s.pc w).view o f) :
    ledger o node (s.setPc w p) = ledger o node s := by
  apply ledger_eq
  · rcases hs : s.frame o with _ | f
    · constructor <;> simp [ledger, hs]
    · have hv : f.view o (Function.update s.pc w p) = f.view o s.pc := by
        rcases hh : f.holder with _ | (w' | _ | _ | _)
        case some.worker =>
          rw [Frame.view_of_worker hh, Frame.view_of_worker hh]
          obtain ⟨hn, hfit⟩ := (h o).held f w' hs hh
          by_cases hw : w' = w
          · subst hw
            simpa using hdir hn hfit.latched f hs
          · simp [hw]
        all_goals simp [Frame.view, hh]
      constructor <;> simp [ledger, hs, hv]
  · simp
  · intro w'
    by_cases hw : w' = w
    · subst hw
      simp [hacq]
    · simp [hw]
  · simp

omit [DecidableEq W] in
/-- A frame changes without a worker, and it does not show. -/
theorem quiet_frame (hf : s.frame n = some f)
    (hcopy : f'.copy n (s.provider n) = f.copy n (s.provider n)) (hleft : f'.left = f.left)
    (hdir : n = o → f'.pVersion = f.pVersion ∧ f'.view o s.pc = f.view o s.pc) :
    ledger o node (s.setFrame n (some f') k) = ledger o node s := by
  apply ledger_eq
  · by_cases ho : n = o
    · obtain ⟨h1, h2⟩ := hdir ho
      subst ho
      constructor <;> simp [ledger, hf, h1, h2]
    · constructor <;> simp [ledger, Ne.symm ho]
  · intro m
    by_cases hm : m = n
    · subst hm
      simp [hf, hcopy]
    · simp [hm]
  · simp
  · intro m
    by_cases hm : m = n
    · subst hm
      simp [hf, hleft]
    · simp [hm]

end Quiet

end ScaleStore.Protocol
