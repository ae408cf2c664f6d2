/-
# What the handlers do

One statement for each function of `Handlers`: what the frame looked like when
the call succeeded, and what it looks like afterwards.
-/

import ScaleStore.Protocol.Machine

namespace ScaleStore.Protocol

variable {W C : Type}

theorem Frame.isPossessor_exclusive {f : Frame W C} {n : NodeID} (h : f.possession = .exclusive) :
    f.isPossessor n = true ↔ f.possessors.toNode = n := by
  simp [Frame.isPossessor, h]

theorem Frame.isPossessor_shared {f : Frame W C} {n : NodeID} (h : f.possession = .shared) :
    f.isPossessor n = f.possessors.test n := by
  simp [Frame.isPossessor, h]

/-- A frame after `setPossessor` in the mode that was set just before. -/
def Frame.withPossessor (f : Frame W C) (t : Access) (n : NodeID) : Frame W C :=
  { f with
    state := .hot
    possession := t.desired
    possessors := if t = .exclusive then .ofNode n else f.possessors.set n }

theorem Frame.complete_eq (f : Frame W C) (n : NodeID) (t : Access) :
    f.complete n t = .ok (f.withPossessor t n) := by
  cases t <;>
    simp [Frame.complete, Frame.withPossessor, Access.desired, Frame.setPossessor,
      Frame.putExclusive, Frame.putShared, Frame.isPossessor, Bind.bind, Except.bind,
      Pure.pure, Except.pure, ensure]

/-! ## Functors -/

/-- The node does not possess the page in the mode that is asked for. -/
def Access.Misses (t : Access) (n : NodeID) (f : Frame W C) : Prop :=
  f.isPossessor n = false ∨ (t = .exclusive ∧ f.possession ≠ .exclusive)

theorem Access.functor_eq (t : Access) (n o : NodeID) (f : Frame W C) :
    (t.functor n o f = .initialized ∧ ¬ t.Misses n f) ∨
    (t.functor n o f = .localPossessionChange ∧ n = o ∧ t.Misses n f) ∨
    (t.functor n o f = .remotePossessionChange ∧ n ≠ o ∧ t.Misses n f) := by
  unfold Access.Misses Access.functor
  rcases eq_or_ne o n with rfl | ho
  · by_cases hx : f.possession = .exclusive <;> cases hp : f.isPossessor o <;> cases t <;>
      simp [hx]
  · by_cases hx : f.possession = .exclusive <;> cases hp : f.isPossessor n <;> cases t <;>
      simp [ho, ho.symm, hx]

theorem Access.functor_initialized {t : Access} {n o : NodeID} {f : Frame W C}
    (h : t.functor n o f = .initialized) :
    f.isPossessor n = true ∧ (t = .exclusive → f.possession = .exclusive) := by
  rcases t.functor_eq n o f with ⟨-, hm⟩ | ⟨h', -⟩ | ⟨h', -⟩
  · simpa [Access.Misses] using hm
  · simp [h] at h'
  · simp [h] at h'

theorem Access.functor_local {t : Access} {n o : NodeID} {f : Frame W C}
    (h : t.functor n o f = .localPossessionChange) : n = o ∧ t.Misses n f := by
  rcases t.functor_eq n o f with ⟨h', -⟩ | ⟨-, hm⟩ | ⟨h', -⟩
  · simp [h] at h'
  · exact hm
  · simp [h] at h'

theorem Access.functor_remote {t : Access} {n o : NodeID} {f : Frame W C}
    (h : t.functor n o f = .remotePossessionChange) : n ≠ o ∧ t.Misses n f := by
  rcases t.functor_eq n o f with ⟨h', -⟩ | ⟨h', -⟩ | ⟨-, hm⟩
  · simp [h] at h'
  · simp [h] at h'
  · exact hm

/-! ## Possession requests -/

/-- The outcomes of a possession request of the node `m` on the owner's frame. -/
inductive Grant (o m : NodeID) (f : Frame W C) : Possession → Reply C → Frame W C → Prop where
  /-- The owner possesses the page exclusively and turns that into shared possession. -/
  | downgrade {x : C} : f.possession = .exclusive → f.possessors.toNode = o → f.state = .hot →
    f.page = some x →
    Grant o m f .shared (⟨.withPage, 0#64, f.pVersion + 1⟩, some x)
      { f with
        pVersion := f.pVersion + 1
        possession := .shared
        possessors := (Possessors.set 0#64 o).set m }
  /-- Another node possesses the page exclusively. -/
  | displace : f.possession = .exclusive → f.possessors.toNode ≠ o → f.state = .evicted →
    Grant o m f .shared
      (⟨.noPageExclusiveConflict, .ofNode f.possessors.toNode, f.pVersion + 1⟩, none)
      { f with
        pVersion := f.pVersion + 1
        possession := .shared
        possessors := Possessors.set 0#64 m }
  /-- Other nodes share the page. -/
  | join : f.possession = .shared → f.possessors.test m = false → f.possessors.test o = false →
    f.state = .evicted →
    Grant o m f .shared (⟨.noPageEvicted, f.possessors, f.pVersion⟩, none)
      { f with possessors := f.possessors.set m }
  /-- The owner shares the page. -/
  | share {x : C} : f.possession = .shared → f.possessors.test m = false → f.state = .hot →
    f.page = some x →
    Grant o m f .shared (⟨.withPage, 0#64, f.pVersion⟩, some x)
      { f with possessors := f.possessors.set m }
  /-- Other nodes share the page, and the owner has no copy. -/
  | collect : f.possession = .shared → (f.possessors.reset o).any = true → f.state = .evicted →
    Grant o m f .exclusive
      (⟨.noPageSharedConflict, f.possessors.reset o, f.pVersion + 1⟩, none)
      { f with
        pVersion := f.pVersion + 1
        dirty := true
        possession := .exclusive
        possessors := .ofNode m }
  /-- Other nodes share the page with the owner. -/
  | revoke {x : C} : f.possession = .shared → (f.possessors.reset o).any = true →
    f.state = .hot → f.page = some x →
    Grant o m f .exclusive
      (⟨.withPageSharedConflict, f.possessors.reset o, f.pVersion + 1⟩, some x)
      { f with
        pVersion := f.pVersion + 1
        dirty := true
        possession := .exclusive
        possessors := .ofNode m
        state := .evicted
        page := none }
  /-- Nobody but the owner possesses the page. -/
  | give {x : C} : (f.possession = .shared ∧ (f.possessors.reset o).any = false) ∨
      (f.possession = .exclusive ∧ f.possessors.toNode = o) → f.state = .hot → f.page = some x →
    Grant o m f .exclusive (⟨.withPage, 0#64, f.pVersion + 1⟩, some x)
      { f with
        pVersion := f.pVersion + 1
        dirty := true
        possession := .exclusive
        possessors := .ofNode m
        state := .evicted
        page := none }
  /-- Another node possesses the page exclusively. -/
  | replace : f.possession = .exclusive → f.possessors.toNode ≠ o → f.possessors.toNode ≠ m →
    f.state = .evicted →
    Grant o m f .exclusive
      (⟨.noPageExclusiveConflict, .ofNode f.possessors.toNode, f.pVersion + 1⟩, none)
      { f with pVersion := f.pVersion + 1, dirty := true, possessors := .ofNode m }

theorem Frame.handleShared_grant {f f' : Frame W C} {o m : NodeID} {r : Reply C}
    (hs : f.state = .hot ∨ f.state = .evicted)
    (hp : f.possession ≠ .shared ∨ f.isPossessor m = false)
    (h : f.handleShared o m = .ok (r, f')) : Grant o m f .shared r f' := by
  simp only [Frame.handleShared, Frame.answerWithPage, Frame.setPossessor, Frame.isPossessor,
    Frame.getExclusive, Frame.getShared, Frame.putExclusive, Frame.putShared, Bind.bind,
    Except.bind, Pure.pure, Except.pure, ensure] at h
  rcases hpos : f.possession with _ | _ | _
  · -- nobody possesses the page: `setPossessor` throws
    rcases hs with hs | hs <;> simp [hpos, hs] at h
  · by_cases ho : f.possessors.toNode = o
    · rcases hs with hs | hs
      · rcases hpage : f.page with _ | x
        · simp [hpos, hs, ho, hpage] at h
        · simp [hpos, hs, ho, hpage] at h
          obtain ⟨rfl, rfl⟩ := h
          simpa [hs, hpage] using Grant.downgrade (m := m) hpos ho hs hpage
      · simp [hpos, hs, ho] at h
    · rcases hs with hs | hs
      · simp [hpos, hs, ho] at h
      · simp [hpos, hs, ho] at h
        obtain ⟨rfl, rfl⟩ := h
        simpa [hs] using Grant.displace (m := m) hpos ho hs
  · have hm : f.possessors.test m = false := by
      simpa [hpos, Frame.isPossessor_shared hpos] using hp
    rcases hs with hs | hs
    · rcases hpage : f.page with _ | x
      · simp [hpos, hs, hpage] at h
      · simp [hpos, hs, hpage] at h
        obtain ⟨rfl, rfl⟩ := h
        simpa [hpos, hs, hpage] using Grant.share (o := o) hpos hm hs hpage
    · rcases ho : f.possessors.test o with _ | _
      · simp [hpos, hs, ho] at h
        obtain ⟨rfl, rfl⟩ := h
        simpa [hpos, hs] using Grant.join hpos hm ho hs
      · simp [hpos, hs, ho] at h

theorem Frame.handleExclusive_grant {f f' : Frame W C} {o m : NodeID} {r : Reply C}
    (hs : f.state = .hot ∨ f.state = .evicted)
    (hp : f.possession ≠ .exclusive ∨ f.isPossessor m = false)
    (h : f.handleExclusive o m = .ok (r, f')) : Grant o m f .exclusive r f' := by
  simp only [Frame.handleExclusive, Frame.answerWithPage, Frame.setPossessor, Frame.isPossessor,
    Frame.getExclusive, Frame.putExclusive, Frame.putShared, Bind.bind, Except.bind, Pure.pure,
    Except.pure, ensure] at h
  rcases hpos : f.possession with _ | _ | _
  · simp [hpos] at h
  · by_cases ho : f.possessors.toNode = o
    · rcases hs with hs | hs
      · rcases hpage : f.page with _ | x
        · simp [hpos, hs, ho, hpage] at h
        · simp [hpos, hs, ho, hpage] at h
          obtain ⟨rfl, rfl⟩ := h
          simpa [hpos] using Grant.give (m := m) (.inr ⟨hpos, ho⟩) hs hpage
      · simp [hpos, hs, ho] at h
    · rcases hs with hs | hs
      · simp [hpos, hs, ho] at h
      · have hm : f.possessors.toNode ≠ m := by
          simpa [hpos, Frame.isPossessor] using hp
        simp [hpos, hs, ho] at h
        obtain ⟨rfl, rfl⟩ := h
        simpa [hpos, hs] using Grant.replace hpos ho hm hs
  · rcases hany : (f.possessors.reset o).any with _ | _
    · rcases hs with hs | hs
      · rcases hpage : f.page with _ | x
        · simp [hpos, hs, hany, hpage] at h
        · simp [hpos, hs, hany, hpage] at h
          obtain ⟨rfl, rfl⟩ := h
          exact Grant.give (.inl ⟨hpos, hany⟩) hs hpage
      · simp [hpos, hs, hany] at h
    · rcases hs with hs | hs
      · rcases hpage : f.page with _ | x
        · simp [hpos, hs, hany, hpage] at h
        · simp [hpos, hs, hany, hpage] at h
          obtain ⟨rfl, rfl⟩ := h
          exact Grant.revoke hpos hany hs hpage
      · simp [hpos, hs, hany] at h
        obtain ⟨rfl, rfl⟩ := h
        simpa [hs] using Grant.collect (m := m) hpos hany hs

/-- What an answered possession request has done. -/
theorem Frame.handlePossessionRequest_grant {f f' : Frame W C} {o m : NodeID} {t : Access}
    {r : Reply C} (h : f.handlePossessionRequest t.desired o m = .ok (r, f')) :
    Grant o m f t.desired r f' := by
  simp only [Frame.handlePossessionRequest, ensure_bind] at h
  split at h
  case isFalse => simp at h
  case isTrue hs =>
    split at h
    case isFalse => simp at h
    case isTrue hp =>
      have hs' : f.state = .hot ∨ f.state = .evicted := by simpa using hs
      have hp' : f.possession ≠ t.desired ∨ f.isPossessor m = false := by
        simpa only [Bool.or_eq_true, decide_eq_true_eq, Bool.not_eq_true'] using hp
      cases t with
      | exclusive => exact f.handleExclusive_grant hs' hp' h
      | shared => exact f.handleShared_grant hs' hp' h
      | optimistic => exact f.handleShared_grant hs' hp' h

/-! ## Move, copy and update requests -/

theorem Frame.handleMove_ok {f : Frame W C} {x : C} (h : f.handleMove = .ok x) :
    f.page = some x := by
  unfold Frame.handleMove at h
  split at h
  case h_1 c hc => rw [hc, Except.ok.inj h]
  case h_2 => cases h

theorem Frame.handleCopy_ok {f : Frame W C} {e : Nat} {x : C}
    (h : f.handleCopy e = .ok (some x)) :
    f.possession = .shared ∧ f.pVersion = e ∧ f.page = some x ∧
      (f.mhWaiting = true → f.state = .hot) := by
  simp only [Frame.handleCopy, ensure_bind] at h
  split at h
  case isTrue hw =>
    split at h <;> simp [Pure.pure, Except.pure] at h
  case isFalse hw =>
    split at h
    case isFalse => simp at h
    case isTrue hp =>
      split at h
      case isFalse => simp at h
      case isTrue he =>
        split at h
        case isFalse => simp at h
        case isTrue hx =>
          refine ⟨by simpa using hp, by simpa using he, by simpa [Pure.pure, Except.pure] using h,
            ?_⟩
          intro hm
          by_contra hne
          exact hw ⟨hm, hne⟩

/-- What a successful update request has done to the owner's frame. -/
theorem Frame.handleUpdate_ok {f f' : Frame W C} {o m : NodeID} {old : Nat} {r : UpdateResponse}
    (h : f.handleUpdate o m old = .ok (r, f')) :
    f.pVersion = old ∧ f.possession = .shared ∧ f.possessors.test m = true ∧
    (r = if (f.possessors.reset o).any then
      .succeedWithSharedConflict (old + 1) (f.possessors.reset o) else .succeed (old + 1)) ∧
    f' = { f with
      pVersion := old + 1
      possession := .exclusive
      possessors := .ofNode m
      state := .evicted
      page := if f.state = .evicted then f.page else none
      dirty := true
      mhWaiting := false } := by
  simp only [Frame.handleUpdate, Frame.getShared, Frame.putShared, Frame.setPossessor,
    Frame.putExclusive, Frame.isPossessor, Bind.bind, Except.bind, Pure.pure, Except.pure,
    ensure] at h
  by_cases he : f.pVersion = old
  case neg => simp [he] at h
  by_cases hp : f.possession = .shared
  case neg => simp [he, hp] at h
  rcases hm : f.possessors.test m with _ | _
  · simp [he, hp, hm] at h
  by_cases hs : f.state = .evicted
  · simp [he, hp, hm, hs] at h
    obtain ⟨rfl, rfl⟩ := h
    simp [he, hp, hs]
  · rcases hx : f.page with _ | x
    · simp [he, hp, hm, hs, hx] at h
    · simp [he, hp, hm, hs, hx] at h
      obtain ⟨rfl, rfl⟩ := h
      simp [he, hp, hs]

/-! ## The cold path of `fix` -/

theorem Frame.remoteChange_ok {f f' : Frame W C} {old : Nat} (h : f.remoteChange = .ok (old, f')) :
    f.possession = .shared ∧ f.state = .hot ∧ old = f.pVersion ∧
      f' = { f with pVersion := f.pVersion + 1 } := by
  simp only [Frame.remoteChange, ensure_bind] at h
  split at h
  case isFalse => simp at h
  case isTrue hp =>
    split at h
    case isFalse => simp at h
    case isTrue hs =>
      simp only [Pure.pure, Except.pure, Except.ok.injEq, Prod.mk.injEq] at h
      exact ⟨by simpa using hp, by simpa using hs, h.1.symm, h.2.symm⟩

/-- The ways LOCAL_POSSESSION_CHANGE can begin. -/
inductive LocalChange (o : NodeID) (t : Access) (f : Frame W C) : Plan → Frame W C → Prop where
  /-- Another node possesses the page exclusively. -/
  | displace {x : Option C} : f.possession = .exclusive →
    LocalChange o t f (.move (Possessors.set 0#64 f.possessors.toNode))
      { f with pVersion := f.pVersion + 1, page := x }
  /-- Other nodes share the page, and the owner has no copy. -/
  | collect {x : Option C} : f.possession = .shared → t = .exclusive → f.state = .evicted →
    (f.possessors.reset o).any = true →
    LocalChange o t f (.move (f.possessors.reset o))
      { f with pVersion := f.pVersion + 1, possessors := f.possessors.reset o, page := x }
  /-- The owner has a copy, or nobody has. -/
  | revoke {x : Option C} : f.possession = .shared → t = .exclusive →
    (f.state = .evicted → (f.possessors.reset o).any = false) →
    (f.state ≠ .evicted → x = f.page) →
    LocalChange o t f (.invalidate (f.possessors.reset o))
      { f with pVersion := f.pVersion + 1, possessors := f.possessors.reset o, page := x }
  /-- Other nodes share the page; the owner wants a copy back. -/
  | join {x : Option C} : f.possession = .shared → t ≠ .exclusive → f.state = .evicted →
    f.possessors.any = true →
    LocalChange o t f (.copy f.possessors) { f with page := x }

theorem Frame.localChange_ok {f f' : Frame W C} {o : NodeID} {t : Access} {c : C} {plan : Plan}
    (h : f.localChange o t c = .ok (plan, f')) :
    LocalChange o t f plan f' ∧ (f.page.isSome ∨ f.state = .evicted → f'.page.isSome) := by
  simp only [Frame.localChange, Frame.getExclusive, Frame.getShared, Frame.putShared, Bind.bind,
    Except.bind, Pure.pure, Except.pure, ensure] at h
  rcases hpos : f.possession with _ | _ | _
  · simp [hpos] at h
  · by_cases hs : f.state = .evicted
    · simp [hpos, hs] at h
      obtain ⟨rfl, rfl⟩ := h
      exact ⟨by simpa [hpos, hs] using LocalChange.displace (x := some c) hpos, by simp⟩
    · simp [hpos, hs] at h
      obtain ⟨rfl, rfl⟩ := h
      exact ⟨by simpa [hpos] using LocalChange.displace (x := f.page) hpos, by simp [hs]⟩
  · by_cases ht : t = .exclusive
    · by_cases hs : f.state = .evicted
      · rcases hany : (f.possessors.reset o).any with _ | _
        · simp [hpos, hs, ht, hany] at h
          obtain ⟨rfl, rfl⟩ := h
          exact ⟨by simpa [hpos, hs] using
            LocalChange.revoke (x := some c) hpos ht (fun _ => hany) (by simp [hs]), by simp⟩
        · simp [hpos, hs, ht, hany] at h
          obtain ⟨rfl, rfl⟩ := h
          exact ⟨by simpa [hpos, hs] using
            LocalChange.collect (x := some c) hpos ht hs hany, by simp⟩
      · simp [hpos, hs, ht] at h
        obtain ⟨rfl, rfl⟩ := h
        exact ⟨by simpa [hpos] using
          LocalChange.revoke (x := f.page) hpos ht (by simp [hs]) (by simp), by simp [hs]⟩
    · by_cases hs : f.state = .evicted
      · rcases hany : f.possessors.any with _ | _
        · simp [hpos, hs, ht, hany] at h
        · simp [hpos, hs, ht, hany] at h
          obtain ⟨rfl, rfl⟩ := h
          exact ⟨by simpa [hpos, hs] using
            LocalChange.join (o := o) (x := some c) hpos ht hs hany, by simp⟩
      · simp [hpos, hs, ht] at h

/-! ## The page provider -/

/-- The outcomes of `dropPossessor` for the node `n`. -/
inductive Dropped (ssd : Bool) (o n : NodeID) (f : Frame W C) : Bool × Frame W C → Prop where
  | exclusive : f.possession = .exclusive → (ssd = false → f.possessors.toNode = n) →
    Dropped ssd o n f (true, { f with possessors := .ofNode o })
  | shared : f.possession = .shared →
    (ssd = false → f.possessors.test n = true ∧ (f.possessors.reset n).any = false) →
    Dropped ssd o n f (true, { f with possessors := (f.possessors.reset n).set o })
  /-- The page stays where it is; whether the bit of `n` is cleared here does not matter. -/
  | unread {b : Possessors} : b.reset n = f.possessors.reset n → (ssd = true → f.dirty = false) →
    (ssd = false → f.possession = .shared →
      f.possessors.test n = true ∧ (f.possessors.reset n).any = true) →
    (ssd = false → f.possession ≠ .exclusive) →
    Dropped ssd o n f (false, { f with possessors := b })

theorem Frame.dropPossessor_ok {f : Frame W C} {ssd : Bool} {o n : NodeID} {r : Bool × Frame W C}
    (h : f.dropPossessor ssd o n = .ok r) : Dropped ssd o n f r := by
  simp only [Frame.dropPossessor, Frame.putExclusive, Frame.putShared, Bind.bind, Except.bind,
    Pure.pure, Except.pure, ensure] at h
  cases ssd with
  | true =>
    rcases hd : f.dirty with _ | _
    · simp [hd] at h
      subst h
      exact .unread (b := f.possessors) rfl (fun _ => hd) (by simp) (by simp)
    · rcases hpos : f.possession with _ | _ | _
      · simp [hd, hpos] at h
      · simp [hd, hpos] at h
        subst h
        simpa [hd, hpos] using (.exclusive hpos (by simp) : Dropped true o n f _)
      · simp [hd, hpos] at h
        subst h
        simpa [hd, hpos] using (.shared hpos (by simp) : Dropped true o n f _)
  | false =>
    rcases hpos : f.possession with _ | _ | _
    · simp [hpos] at h
      subst h
      exact .unread (b := f.possessors) rfl (by simp) (by simp [hpos]) (by simp [hpos])
    · by_cases hn : f.possessors.toNode = n
      · simp [hpos, hn] at h
        subst h
        simpa [hpos] using (.exclusive hpos (fun _ => hn) : Dropped false o n f _)
      · simp [hpos, hn] at h
    · rcases hn : f.possessors.test n with _ | _
      · simp [hpos, hn] at h
      · rcases hany : (f.possessors.reset n).any with _ | _
        · simp [hpos, hn, hany] at h
          subst h
          simpa [hpos] using
            (.shared hpos (fun _ => ⟨hn, hany⟩) : Dropped false o n f _)
        · simp [hpos, hn, hany] at h
          subst h
          simpa [hpos] using (.unread (Possessors.reset_reset f.possessors n) (by simp)
            (fun _ _ => ⟨hn, hany⟩) (by simp [hpos]) : Dropped false o n f _)

/-- The page into which an evicted one is read. -/
def Frame.retrieved (f : Frame W C) (x : C) : Option C :=
  if f.state = .evicted then some x else f.page

/-- The answers of the owner to the offer of the node `n`; a page buffer holds `x`. -/
inductive Answer (ssd : Bool) (o n : NodeID) (x : C) (f : Frame W C) : Eviction W C → Prop where
  /-- The node possessed the page exclusively. -/
  | retrieveExclusive : f.possession = .exclusive → (ssd = false → f.possessors.toNode = n) →
    Answer ssd o n x f (.retrieve
      { f with possessors := .ofNode o, page := f.retrieved x, state := .hot, dirty := true })
  | retrieveShared : f.possession = .shared →
    (ssd = false → f.possessors.test n = true ∧ (f.possessors.reset n).any = false) →
    Answer ssd o n x f (.retrieve
      { f with
        possessors := (f.possessors.reset n).set o
        page := f.retrieved x
        state := .hot
        dirty := true })
  /-- Other nodes still share the page. -/
  | keep : f.possession = .shared → (f.possessors.reset n).any = true →
    (ssd = false → f.possessors.test n = true) →
    Answer ssd o n x f (.unlatch { f with possessors := f.possessors.reset n })
  /-- Nobody else shares the page, and it is on the SSD. -/
  | remove : ssd = true → f.dirty = false → f.possession = .shared →
    (f.possessors.reset n).any = false → f.state = .evicted → Answer ssd o n x f .remove

theorem Frame.answerEviction_ok {f : Frame W C} {ssd : Bool} {o n : NodeID} {x : C}
    {ev : Eviction W C} (h : f.answerEviction ssd o n x = .ok ev) : Answer ssd o n x f ev := by
  unfold Frame.answerEviction at h
  rcases hd : f.dropPossessor ssd o n with e | ⟨needRead, f₁⟩
  · simp [hd, Bind.bind, Except.bind] at h
  rw [hd] at h
  simp only [Frame.putShared, Bind.bind, Except.bind, Pure.pure, Except.pure, ensure] at h
  cases Frame.dropPossessor_ok hd with
  | exclusive hpos hn =>
    simp only [↓reduceIte] at h
    split at h
    case h_1 => cases h
    case h_2 =>
      obtain rfl := Except.ok.inj h
      exact .retrieveExclusive hpos hn
  | shared hpos hn =>
    simp only [↓reduceIte] at h
    split at h
    case h_1 => cases h
    case h_2 =>
      obtain rfl := Except.ok.inj h
      exact .retrieveShared hpos hn
  | @unread b hb hclean hn hx =>
    by_cases hpos : f.possession = .shared
    · rcases hany : (f.possessors.reset n).any with _ | _
      · have hssd : ssd = true := by
          by_contra hne
          have := (hn (by simpa using hne) hpos).2
          simp [hany] at this
        by_cases hs : f.state = .evicted
        · rcases hp : f.page with _ | y
          · simp [hpos, hb, hany, hs, hp] at h
            subst h
            exact .remove hssd (hclean hssd) hpos hany hs
          · simp [hpos, hb, hany, hs, hp] at h
        · simp [hpos, hb, hany, hs] at h
      · simp [hpos, hb, hany] at h
        subst h
        simpa [hpos] using
          (.keep hpos hany (fun hf => (hn hf hpos).1) : Answer ssd o n x f _)
    · simp [hpos] at h

/-- What `evict_owner_page` does. -/
inductive OwnerEviction (o : NodeID) (ssd : Bool) (f : Frame W C) : Eviction W C → Prop where
  | unlatch : OwnerEviction o ssd f (.unlatch f)
  /-- Nobody but the owner possesses the page. -/
  | remove : ssd = true → f.dirty = false → f.state = .hot → f.isPossessor o = true →
    (∀ n, f.isPossessor n = true → n = o) → OwnerEviction o ssd f .remove
  /-- Other nodes share the page. -/
  | evict : f.state = .hot → f.possession = .shared → (f.possessors.reset o).any = true →
    OwnerEviction o ssd f (.unlatch
      { f with possessors := f.possessors.reset o, page := none, state := .evicted })

theorem Frame.evictOwnerPage_ok {f : Frame W C} {ssd dice : Bool} {o : NodeID}
    {ev : Eviction W C} (h : f.evictOwnerPage ssd dice o = .ok ev) : OwnerEviction o ssd f ev := by
  simp only [Frame.evictOwnerPage, Frame.putShared, Bind.bind, Except.bind, Pure.pure,
    Except.pure, ensure] at h
  split at h
  case isTrue =>
    obtain rfl := Except.ok.inj h
    exact .unlatch
  case isFalse hclean =>
    have hd : ssd = true → f.dirty = false := by
      intro hssd
      simpa [hssd] using hclean
    split at h
    case isTrue hc =>
      obtain rfl := Except.ok.inj h
      obtain ⟨hssd, hs, hpos, ho⟩ := hc
      refine .remove hssd (hd hssd) hs ho fun n hn => ?_
      rw [Frame.isPossessor_exclusive hpos] at hn ho
      rw [← hn, ho]
    case isFalse =>
      split at h
      case isTrue hc =>
        obtain ⟨hs, hpos, ho, hcount⟩ := hc
        split at h
        case isTrue hdice =>
          obtain rfl := Except.ok.inj h
          refine .remove hdice.1 (hd hdice.1) hs ho fun n hn => ?_
          rw [Frame.isPossessor_shared hpos] at hn ho
          have hmem := Possessors.mem_members.mpr hn
          rw [Possessors.members_of_count hcount ho, Finset.mem_singleton] at hmem
          exact hmem
        case isFalse =>
          obtain rfl := Except.ok.inj h
          exact .unlatch
      case isFalse =>
        split at h
        case isTrue hc =>
          obtain ⟨hs, hpos⟩ := hc
          rcases hany : (f.possessors.reset o).any with _ | _
          · simp [hpos, hany] at h
          · simp [hpos, hany] at h
            subst h
            simpa [hpos] using (.evict hs hpos hany : OwnerEviction o ssd f _)
        case isFalse =>
          obtain rfl := Except.ok.inj h
          exact .unlatch

end ScaleStore.Protocol
