/-
# Running the page table

The steps of a thread as a function: where it stands determines what it does, up
to the choices that an act names.
-/

import ScaleStore.PageTable.Machine
import Mathlib.Data.Fintype.Basic

namespace ScaleStore.PageTable

/-- What a thread chooses; `go` where it has no choice. -/
inductive Act (K F : Type) where
  | go
  | start (c : Call K)
  | insert (k : K)
  | retry
  | latch (g : LatchState)
  | take (f : F)
  | release
  | grab (f : F)
  | remove
  | pushed (b : Bool)

deriving instance DecidableEq for Call, Origin, Pc

variable {K F T : Type} [DecidableEq K] [DecidableEq F] [DecidableEq T] [Fintype F] [Fintype T]

instance (s : State K F T) (k : K) : Decidable (s.Fresh k) :=
  inferInstanceAs (Decidable (_ ∧ _))

instance (s : State K F T) (f : F) : Decidable (s.Unlatched f) :=
  inferInstanceAs (Decidable (_ ∧ _))

instance (s : State K F T) (f : F) : (g : LatchState) → Decidable (s.Grants f g)
  | .exclusive => inferInstanceAs (Decidable (s.Unlatched f))
  | .shared | .optimistic => inferInstanceAs (Decidable (s.holder f = none))

/-- The walk of `findFrame` and `findFrameOrInsert` up to the insertion. -/
def actFind (L : Layout K F) (t : T) (s : State K F T) (a : Act K F) : Option (State K F T) :=
  match s.pc t, a with
  | .idle, .start c =>
    if ∀ t', (s.pc t').inserts ≠ some c.pid then some (s.go t (.restart c)) else none
  | .restart c, .go =>
    if isLatched (s.version (L.bucket c.pid)) = false then
      some (s.go t (.test c (s.version (L.bucket c.pid)) none)) else none
  | .test c v slot, .go =>
    if s.deref L c.pid slot = none then some (s.go t (.absent c v slot))
    else some (s.go t (.copy c v slot))
  | .copy c v slot, .go => some (s.go t (.check c v (s.deref L c.pid slot)))
  | .check c v (some tmp), .go =>
    if s.version (L.bucket c.pid) = v then some (s.go t (.compare c v tmp))
    else some (s.go t (.restart c))
  | .compare c v tmp, .go =>
    if s.pid tmp = some c.pid then some (s.go t (.found c v tmp))
    else some (s.go t (.advance c v tmp))
  | .found c v tmp, .go =>
    if s.version (L.bucket c.pid) = v then some (s.go t (.access c v tmp))
    else some (s.go t (.restart c))
  | .access c v tmp, .retry => some (s.go t (.recheck c v tmp none))
  | .access c v tmp, .latch g =>
    if s.Grants tmp g then some ((s.acquire tmp t g).go t (.recheck c v tmp (some g))) else none
  | _, _ => none

/-- `insertFrame`, and what its caller does with the frame. -/
def actInsert (L : Layout K F) (t : T) (s : State K F T) (a : Act K F) : Option (State K F T) :=
  match s.pc t, a with
  | .idle, .insert k => if s.Fresh k then some (s.go t (.latchBucket k)) else none
  | .latchBucket k, .go =>
    if isLatched (s.version (L.bucket k)) = false then
      some ((s.bump (L.bucket k)).go t (.decideNew k)) else none
  | .decideNew k, .go =>
    if s.free (L.bucket k) = true then
      some (s.go t (.latchFrame (.insertFrame k) (L.bucket k)))
    else some (s.go t (.seekEnd k (L.bucket k)))
  | .seekEnd k slot, .go =>
    match s.next slot with
    | some tmp => some (s.go t (.seekDuplicate k tmp))
    | none => some (s.go t (.take (.insertFrame k) slot))
  | .seekDuplicate k tmp, .go =>
    if s.pid tmp = some k then none else some (s.go t (.seekEnd k tmp))
  | .take og slot, .take f =>
    if f ∈ s.frameFreeList then
      some (({ s with frameFreeList := s.frameFreeList.erase f }.setNext slot (some f)).go t
        (.latchFrame og f)) else none
  | .latchFrame og f, .go =>
    if s.Unlatched f then some ((s.latchExclusive f t).go t (.fill og f false false)) else none
  | .fill og f false pid, .go => some ((s.setFree f false).go t (.fill og f true pid))
  | .fill og f true false, .go => some ((s.setPid f (some og.pid)).go t (.fill og f true true))
  | .fill og f true true, .go =>
    some ((s.bump (L.bucket og.pid)).go t
      (match og with
        | .find c => .guard c.pid f .exclusive
        | .insertFrame k => .inserted k f))
  | .inserted _ f, .release => some ((s.unlatchExclusive f).go t .idle)
  | .inserted _ f, .remove => some (s.go t (.remove f))
  | .idle, .grab f =>
    if s.Unlatched f then some ((s.latchExclusive f t).go t (.held f)) else none
  | .held f, .release => some ((s.unlatchExclusive f).go t .idle)
  | .held f, .remove => if s.pid f = none then none else some (s.go t (.remove f))
  | _, _ => none

/-- `removeFrame`. -/
def actRemove (L : Layout K F) (t : T) (s : State K F T) (a : Act K F) : Option (State K F T) :=
  match s.pc t, a with
  | .remove f, .go =>
    if L.isHtBucket f = true then
      if isLatched (s.version f) = false then some ((s.bump f).go t (.clearPid f f)) else none
    else
      match s.pid f with
      | some k => some (s.go t (.latchHome f (L.bucket k)))
      | none => none
  | .latchHome f b, .go =>
    if isLatched (s.version b) = false then some ((s.bump b).go t (.seek f b b)) else none
  | .seek f b slot, .go =>
    match s.next slot with
    | some tmp => some (s.go t (.matchPid f b slot tmp))
    | none => none
  | .matchPid f b slot tmp, .go =>
    if s.pid tmp = s.pid f then some (s.go t (.unlink f b slot tmp (s.next tmp)))
    else some (s.go t (.seek f b tmp))
  | .unlink f b slot _ next, .go => some ((s.setNext slot next).go t (.clearPid f b))
  | .clearPid f b, .go =>
    some ((s.setPid f none).go t (if L.isHtBucket f then .clearState f b else .clearNext f b))
  | .clearNext f b, .go => some ((s.setNext f none).go t (.clearState f b))
  | .clearState f b, .go => some ((s.setFree f true).go t (.unlatchBucket f b))
  | .unlatchBucket f b, .go => some ((s.bump b).go t (.unlatchFrame f))
  | .unlatchFrame f, .go =>
    some ((s.unlatchExclusive f).go t (if L.isHtBucket f then .idle else .push f))
  | .push f, .pushed b =>
    some ({ s with frameFreeList := if b then f :: s.frameFreeList else s.frameFreeList }.go t
      .idle)
  | _, _ => none

def act (L : Layout K F) (t : T) (s : State K F T) (a : Act K F) : Option (State K F T) :=
  (actFind L t s a).or ((actInsert L t s a).or (actRemove L t s a))

/-! ## Acts are steps -/

variable {L : Layout K F} {s s' : State K F T} {t : T} {a : Act K F}

omit [Fintype F] in
theorem actFind_sound (h : actFind L t s a = some s') : Step L t s s' := by
  unfold actFind at h
  split at h
  case h_1 c hp =>
    obtain ⟨hc, rfl⟩ := by simpa using h
    exact .start c hp hc
  case h_2 c hp =>
    obtain ⟨hc, rfl⟩ := by simpa using h
    exact .readVersion hp hc
  case h_3 c v slot hp =>
    split at h
    case isTrue hc =>
      obtain rfl := Option.some.inj h
      exact .testEnd hp hc
    case isFalse hc =>
      obtain rfl := Option.some.inj h
      exact .testMore hp hc
  case h_4 c v slot hp =>
    obtain rfl := Option.some.inj h
    exact .copy hp
  case h_5 c v tmp hp =>
    split at h
    case isTrue hc =>
      obtain rfl := Option.some.inj h
      exact .checkOk hp hc
    case isFalse hc =>
      obtain rfl := Option.some.inj h
      exact .checkFail hp hc
  case h_6 c v tmp hp =>
    split at h
    case isTrue hc =>
      obtain rfl := Option.some.inj h
      exact .compareEq hp hc
    case isFalse hc =>
      obtain rfl := Option.some.inj h
      exact .compareNe hp hc
  case h_7 c v tmp hp =>
    split at h
    case isTrue hc =>
      obtain rfl := Option.some.inj h
      exact .foundOk hp hc
    case isFalse hc =>
      obtain rfl := Option.some.inj h
      exact .foundFail hp hc
  case h_8 c v tmp hp =>
    obtain rfl := Option.some.inj h
    exact .accessRetry hp
  case h_9 c v tmp g hp =>
    obtain ⟨hc, rfl⟩ := by simpa using h
    exact .access g hp hc
  case h_10 => cases h

theorem actInsert_sound (h : actInsert L t s a = some s') : Step L t s s' := by
  unfold actInsert at h
  split at h
  case h_1 k hp =>
    obtain ⟨hc, rfl⟩ := by simpa using h
    exact .startInsert k hp hc
  case h_2 k hp =>
    obtain ⟨hc, rfl⟩ := by simpa using h
    exact .latchBucket hp hc
  case h_3 k hp =>
    split at h
    case isTrue hc =>
      obtain rfl := Option.some.inj h
      exact .newInline hp hc
    case isFalse hc =>
      obtain rfl := Option.some.inj h
      exact .newChain hp (by simpa using hc)
  case h_4 k slot hp =>
    split at h
    case h_1 tmp hc =>
      obtain rfl := Option.some.inj h
      exact .seekMore hp hc
    case h_2 hc =>
      obtain rfl := Option.some.inj h
      exact .seekDone hp hc
  case h_5 k tmp hp =>
    obtain ⟨hc, rfl⟩ := by simpa using h
    exact .seekNext hp hc
  case h_6 og slot f hp =>
    obtain ⟨hc, rfl⟩ := by simpa using h
    exact .take hp hc
  case h_7 og f hp =>
    obtain ⟨hc, rfl⟩ := by simpa using h
    exact .latchFrame hp hc
  case h_8 og f pid hp =>
    obtain rfl := Option.some.inj h
    exact .fillState hp
  case h_9 og f hp =>
    obtain rfl := Option.some.inj h
    exact .fillPid hp
  case h_10 og f hp =>
    obtain rfl := Option.some.inj h
    exact .filled hp
  case h_11 k f hp =>
    obtain rfl := Option.some.inj h
    exact .releaseInserted hp
  case h_12 k f hp =>
    obtain rfl := Option.some.inj h
    exact .startRemove (k := k) (.inr hp)
  case h_13 f hp =>
    obtain ⟨hc, rfl⟩ := by simpa using h
    exact .grab f hp hc
  case h_14 f hp =>
    obtain rfl := Option.some.inj h
    exact .drop hp
  case h_15 f hp =>
    obtain ⟨hc, rfl⟩ := by simpa using h
    exact .removeHeld hp hc
  case h_16 => cases h

omit [Fintype F] [Fintype T] in
theorem actRemove_sound (h : actRemove L t s a = some s') : Step L t s s' := by
  unfold actRemove at h
  split at h
  case h_1 f hp =>
    split at h
    case isTrue hht =>
      obtain ⟨hc, rfl⟩ := by simpa using h
      exact .removeInline hp hht hc
    case isFalse hht =>
      split at h
      case h_1 k hk =>
        obtain rfl := Option.some.inj h
        exact .removeChained hp (by simpa using hht) hk
      case h_2 => cases h
  case h_2 f b hp =>
    obtain ⟨hc, rfl⟩ := by simpa using h
    exact .latchHome hp hc
  case h_3 f b slot hp =>
    split at h
    case h_1 tmp hc =>
      obtain rfl := Option.some.inj h
      exact .seek hp hc
    case h_2 => cases h
  case h_4 f b slot tmp hp =>
    split at h
    case isTrue hc =>
      obtain rfl := Option.some.inj h
      exact .matchYes hp hc
    case isFalse hc =>
      obtain rfl := Option.some.inj h
      exact .matchNo hp hc
  case h_5 f b slot tmp next hp =>
    obtain rfl := Option.some.inj h
    exact .unlink hp
  case h_6 f b hp =>
    obtain rfl := Option.some.inj h
    exact .clearPid hp
  case h_7 f b hp =>
    obtain rfl := Option.some.inj h
    exact .clearNext hp
  case h_8 f b hp =>
    obtain rfl := Option.some.inj h
    exact .clearState hp
  case h_9 f b hp =>
    obtain rfl := Option.some.inj h
    exact .unlatchBucket hp
  case h_10 f hp =>
    obtain rfl := Option.some.inj h
    exact .unlatchFrame hp
  case h_11 f b hp =>
    obtain rfl := Option.some.inj h
    exact .push b hp
  case h_12 => cases h

theorem act_sound (h : act L t s a = some s') : Step L t s s' := by
  unfold act at h
  rcases Option.or_eq_some_iff.mp h with h | ⟨-, h⟩
  · exact actFind_sound h
  · rcases Option.or_eq_some_iff.mp h with h | ⟨-, h⟩
    · exact actInsert_sound h
    · exact actRemove_sound h

end ScaleStore.PageTable
