/-
# Running the machine

Steps of the machine that can be computed: each act names a step and whatever the
step leaves open.  A list of acts that does not fail is a run.
-/

import ScaleStore.Protocol.Machine

namespace ScaleStore.Protocol

variable {W C : Type}

/-! ## Acts -/

inductive Act (W C : Type) where
  | start (w : W) (t : Access)
  | insert (w : W) (c : C)
  | peek (w : W)
  | changeLocal (w : W) (c : C) (choice : NodeID)
  | receive (w : W) (choice : NodeID)
  | completeExclusive (w : W)
  | completeShared (w : W)
  | completeOptimistic (w : W)
  | downgradeFailed (w : W)
  | copyAbandoned (w : W)
  | releaseExclusive (w : W)
  | requestLoad (w : W)
  | loaded
  | request (w : W)
  | move (w : W)
  | invalidate (w : W) (c : NodeID)
  | invalidateRetry (w : W) (c : NodeID)
  | copyFailed (w : W)
  | select (n : NodeID)
  | refuse (n : NodeID)
  | accept (n : NodeID) (c : C)
  | landed
  | overlooked
  | retrieved
  | applyStale (n : NodeID)
  | writeBack

/-- `Enters`, with the member that `movePageRnd` and `copyPageRnd` choose. -/
def Plan.enter (self : NodeID) (g : GuardState) (t : Access) (e : Nat) (choice : NodeID) :
    Plan → Option (Pc C)
  | .move shared =>
    if shared.test choice = true ∧ choice ≠ self then
      some (.move g t e choice (shared.reset choice))
    else none
  | .invalidate shared =>
    if shared.any = true then
      if shared.test self = false then some (.invalidate g t e shared) else none
    else some (.complete g t e)
  | .copy shared =>
    if shared.test choice = true ∧ choice ≠ self then some (.copy g t e shared choice) else none
  | .complete => some (.complete g t e)

theorem Plan.enter_sound {self choice : NodeID} {g : GuardState} {t : Access} {e : Nat}
    {plan : Plan} {p : Pc C} (h : plan.enter self g t e choice = some p) :
    Enters self g t e plan p := by
  cases plan with
  | move shared =>
    simp only [enter] at h
    split at h
    case isTrue hc =>
      obtain rfl := Option.some.inj h
      exact .move hc.1 hc.2
    case isFalse => cases h
  | invalidate shared =>
    simp only [enter] at h
    split at h
    case isTrue hany =>
      split at h
      case isTrue hself =>
        obtain rfl := Option.some.inj h
        exact .invalidate hany hself
      case isFalse => cases h
    case isFalse hany =>
      obtain rfl := Option.some.inj h
      exact .none (by simpa using hany)
  | copy shared =>
    simp only [enter] at h
    split at h
    case isTrue hc =>
      obtain rfl := Option.some.inj h
      exact .copy hc.1 hc.2
    case isFalse => cases h
  | complete =>
    obtain rfl := Option.some.inj h
    exact .complete

variable [DecidableEq W] (cfg : Config) (o : NodeID) (node : W → NodeID)

/-- The acts of a worker. -/
def actWorker (s : PageState W C) : Act W C → Option (PageState W C)
  | .start w t =>
    match s.known, s.pc w with
    | true, .idle => some (s.setPc w (.fix t))
    | _, _ => none
  | .insert w c =>
    match s.pc w, s.frame (node w) with
    | .fix t, none => some ((s.setFrame (node w) (some (.fresh (.worker w)
        (if node w = o then .ioSsd else .ioRdma) c)) 2).setPc w
        (if node w = o then .load t else .request t))
    | _, _ => none
  | .peek w =>
    match s.pc w, s.frame (node w) with
    | .fix t, some f =>
      if f.holder = none ∧ f.mhWaiting = false then
        some (s.setPc w (.peek t (s.version (node w))))
      else none
    | _, _ => none
  | .changeLocal w c choice =>
    match s.pc w, s.frame (node w) with
    | .peek t v, some f =>
      if s.version (node w) = v ∧ f.Latchable ∧
          t.functor (node w) o f = .localPossessionChange then
        match f.localChange (node w) t c with
        | .ok (plan, f') =>
          (plan.enter (node w) .localPossessionChange t f'.pVersion choice).map fun p =>
            (s.setFrame (node w) (some { f' with holder := some (.worker w) }) 2).setPc w p
        | .error _ => none
      else none
    | _, _ => none
  | .receive w choice =>
    match s.pc w, s.frame (node w) with
    | .response t r, some f =>
      match r.plan with
      | .ok plan => (plan.enter (node w) .remote t r.pVersion choice).map fun p =>
          (s.setFrame (node w) (some { f with pVersion := r.pVersion }) 0).setPc w p
      | .error _ => none
    | _, _ => none
  | .completeExclusive w =>
    match s.pc w, s.frame (node w) with
    | .complete _ .exclusive _, some f =>
      match f.complete (node w) .exclusive with
      | .ok f' => some ((s.setFrame (node w) (some { f' with dirty := true }) 0).setPc w .guardX)
      | .error _ => none
    | _, _ => none
  | .completeShared w =>
    match s.pc w, s.frame (node w) with
    | .complete _ .shared _, some f =>
      match f.complete (node w) .shared with
      | .ok f' => some ((s.setFrame (node w) (some { f' with holder := none }) 2).setPc w
          (.downgrade (s.version (node w) + 2) true))
      | .error _ => none
    | _, _ => none
  | .completeOptimistic w =>
    match s.pc w, s.frame (node w) with
    | .complete _ .optimistic _, some f =>
      match f.complete (node w) .optimistic with
      | .ok f' => some ((s.setFrame (node w) (some { f' with holder := none }) 2).setPc w
          (.guardO (s.version (node w) + 2) none))
      | .error _ => none
    | _, _ => none
  | .downgradeFailed w =>
    match s.pc w with
    | .downgrade _ again => some (s.setPc w (if again then .fix .shared else .idle))
    | _ => none
  | .copyAbandoned w =>
    match s.pc w, s.frame (node w) with
    | .copyFailed .remote t _ _, some f =>
      if f.mhWaiting = true then
        some ((s.setFrame (node w) (some { f with holder := none }) 2).setPc w (.fix t))
      else none
    | _, _ => none
  | .releaseExclusive w =>
    match s.pc w, s.frame (node w) with
    | .guardX, some f =>
      some ((s.setFrame (node w) (some { f with holder := none }) 2).setPc w .idle)
    | _, _ => none
  | _ => none

/-- The acts of the message handlers. -/
def actHandler (s : PageState W C) : Act W C → Option (PageState W C)
  | .requestLoad w =>
    match s.pc w, s.frame o with
    | .request _, none => some (s.setFrame o (some (ssdFrame o s.disk)) 2)
    | _, _ => none
  | .loaded =>
    match s.frame o with
    | some f =>
      if f.holder = some .handler then some (s.setFrame o (some { f with holder := none }) 2)
      else none
    | none => none
  | .request w =>
    match s.pc w, s.frame o, s.frame (node w) with
    | .request t, some f, some own =>
      if f.Latchable then
        match f.handlePossessionRequest t.desired o (node w) with
        | .ok ((r, page), f') => some (((s.setFrame o (some f') 4).setFrame (node w)
            (some { own with page := page.or own.page }) 0).setPc w (.response t r))
        | .error _ => none
      else none
    | _, _, _ => none
  | .move w =>
    match s.pc w with
    | .move g t e c rest =>
      match s.frame c, s.frame (node w), (Plan.invalidate rest).enter (node w) g t e 0 with
      | some f, some own, some p =>
        if f.Latchable then
          match f.handleMove with
          | .ok x => some (((s.setFrame c none 4).setFrame (node w)
              (some { own.forget g c with page := some x }) 0).setPc w p)
          | .error _ => none
        else none
      | _, _, _ => none
    | _ => none
  | .invalidate w c =>
    match s.pc w with
    | .invalidate g t e pending =>
      match s.frame c, s.frame (node w),
        (Plan.invalidate (pending.reset c)).enter (node w) g t e 0 with
      | some f, some own, some p =>
        if pending.test c = true ∧ f.Latchable then
          match f.handleMove with
          | .ok _ => some (((s.setFrame c none 4).setFrame (node w)
              (some (own.forget g c)) 0).setPc w p)
          | .error _ => none
        else none
      | _, _, _ => none
    | _ => none
  | .invalidateRetry w c =>
    match s.pc w, s.frame c with
    | .invalidate _ _ _ pending, some f =>
      if pending.test c = true then
        some (s.setFrame c (some { f with mhWaiting := true }) 0)
      else none
    | _, _ => none
  | .copyFailed w =>
    match s.pc w with
    | .copy g t e shared _ => some (s.setPc w (.copyFailed g t e shared))
    | _ => none
  | _ => none

/-- The acts of the page providers. -/
def actProvider (s : PageState W C) : Act W C → Option (PageState W C)
  | .select n =>
    match s.frame n with
    | some f =>
      if cfg.evict = true ∧ n ≠ o ∧ f.Latchable ∧ f.state = .hot ∧ s.provider n = .idle then
        some ((s.setFrame n (some { f with holder := some .provider }) 2).setProvider n
          (.offered f.pVersion))
      else none
    | none => none
  | .refuse n =>
    match s.provider n with
    | .offered _ => some (s.setProvider n .refused)
    | _ => none
  | .accept n c =>
    match s.frame o with
    | some f =>
      if s.provider n = .offered f.pVersion ∧ f.Latchable ∧ f.mhWaiting = false then
        match f.answerEviction cfg.ssd o n c with
        | .ok ev => some { (s.setFrame o ev.frame ev.bump).setProvider n .acked with
            read := ev.read n }
        | .error _ => none
      else none
    | none => none
  | .landed =>
    match s.read, s.frame o with
    | some n, some f =>
      match s.frame n with
      | some g =>
        match g.page with
        | some x =>
          if f.holder = some .retriever then
            some { s.setFrame o (some { f with page := some x }) 0 with read := none }
          else none
        | none => none
      | none => none
    | _, _ => none
  | .overlooked =>
    match s.read with
    | some _ => some { s with read := none, astray := true }
    | none => none
  | .retrieved =>
    match s.frame o with
    | some f =>
      if f.holder = some .retriever ∧ s.read = none then
        some (s.setFrame o (some { f with holder := none }) 2)
      else none
    | none => none
  | .applyStale n =>
    match s.provider n, s.frame n with
    | .refused, some _ => some ((s.setFrame n none 2).setProvider n .idle)
    | _, _ => none
  | .writeBack =>
    match s.frame o with
    | some f =>
      match f.page with
      | some x =>
        if cfg.evict = true ∧ cfg.ssd = true ∧ f.holder = none ∧ f.state = .hot ∧
            f.dirty = true then
          some { s.setFrame o (some { f with dirty := false }) 0 with disk := x }
        else none
      | none => none
    | none => none
  | _ => none

/-- One act. -/
def act (s : PageState W C) (a : Act W C) : Option (PageState W C) :=
  ((actWorker o node s a).or (actHandler o node s a)).or (actProvider cfg o s a)

/-- A list of acts, as long as none fails. -/
def acts (s : PageState W C) : List (Act W C) → Option (PageState W C)
  | [] => some s
  | a :: as =>
    match act cfg o node s a with
    | some s' => acts s' as
    | none => none

/-! ## Acts are steps -/

variable {cfg o node} {s s' : PageState W C} {a : Act W C}

theorem actWorker_sound (h : actWorker o node s a = some s') : WorkerStep cfg o node s s' := by
  cases a with
  | start w t =>
    simp only [actWorker] at h
    split at h
    case h_1 hk hpc =>
      obtain rfl := Option.some.inj h
      exact .start hk hpc
    case h_2 => cases h
  | insert w c =>
    simp only [actWorker] at h
    split at h
    case h_1 t hpc hf =>
      obtain rfl := Option.some.inj h
      exact .insert c hpc hf
    case h_2 => cases h
  | peek w =>
    simp only [actWorker] at h
    split at h
    case h_1 t f hpc hf =>
      split at h
      case isTrue hc =>
        obtain rfl := Option.some.inj h
        exact .peek hpc hf hc.1 hc.2
      case isFalse => cases h
    case h_2 => cases h
  | changeLocal w c choice =>
    simp only [actWorker] at h
    split at h
    case h_1 t v f hpc hf =>
      split at h
      case isTrue hcond =>
        obtain ⟨hv, hl, hfun⟩ := hcond
        split at h
        case h_1 plan f' hc =>
          obtain ⟨p, hp, rfl⟩ := Option.map_eq_some_iff.mp h
          exact .changeLocal c hpc hf hv hl hfun hc (Plan.enter_sound hp)
        case h_2 => cases h
      case isFalse => cases h
    case h_2 => cases h
  | receive w choice =>
    simp only [actWorker] at h
    split at h
    case h_1 t r f hpc hf =>
      split at h
      case h_1 plan hplan =>
        obtain ⟨p, hp, rfl⟩ := Option.map_eq_some_iff.mp h
        exact .receive hpc hf hplan (Plan.enter_sound hp)
      case h_2 => cases h
    case h_2 => cases h
  | completeExclusive w =>
    simp only [actWorker] at h
    split at h
    case h_1 g e f hpc hf =>
      split at h
      case h_1 f' hc =>
        obtain rfl := Option.some.inj h
        exact .completeExclusive hpc hf hc
      case h_2 => cases h
    case h_2 => cases h
  | completeShared w =>
    simp only [actWorker] at h
    split at h
    case h_1 g e f hpc hf =>
      split at h
      case h_1 f' hc =>
        obtain rfl := Option.some.inj h
        exact .completeShared hpc hf hc
      case h_2 => cases h
    case h_2 => cases h
  | completeOptimistic w =>
    simp only [actWorker] at h
    split at h
    case h_1 g e f hpc hf =>
      split at h
      case h_1 f' hc =>
        obtain rfl := Option.some.inj h
        exact .completeOptimistic hpc hf hc
      case h_2 => cases h
    case h_2 => cases h
  | downgradeFailed w =>
    simp only [actWorker] at h
    split at h
    case h_1 v again hpc =>
      obtain rfl := Option.some.inj h
      exact .downgradeFailed hpc
    case h_2 => cases h
  | copyAbandoned w =>
    simp only [actWorker] at h
    split at h
    case h_1 t e shared f hpc hf =>
      split at h
      case isTrue hm =>
        obtain rfl := Option.some.inj h
        exact .copyAbandoned hpc hf hm
      case isFalse => cases h
    case h_2 => cases h
  | releaseExclusive w =>
    simp only [actWorker] at h
    split at h
    case h_1 f hpc hf =>
      obtain rfl := Option.some.inj h
      exact .releaseExclusive hpc hf
    case h_2 => cases h
  | _ => cases h

theorem actHandler_sound (h : actHandler o node s a = some s') : HandlerStep o node s s' := by
  cases a with
  | requestLoad w =>
    simp only [actHandler] at h
    split at h
    case h_1 t hpc hf =>
      obtain rfl := Option.some.inj h
      exact .requestLoad hpc hf
    case h_2 => cases h
  | loaded =>
    simp only [actHandler] at h
    split at h
    case h_1 f hf =>
      split at h
      case isTrue hh =>
        obtain rfl := Option.some.inj h
        exact .loaded hf hh
      case isFalse => cases h
    case h_2 => cases h
  | request w =>
    simp only [actHandler] at h
    split at h
    case h_1 t f own hpc hf hown =>
      split at h
      case isTrue hl =>
        split at h
        case h_1 r page f' hr =>
          obtain rfl := Option.some.inj h
          exact .request hpc hf hl hr hown
        case h_2 => cases h
      case isFalse => cases h
    case h_2 => cases h
  | move w =>
    simp only [actHandler] at h
    split at h
    case h_1 g t e c rest hpc =>
      split at h
      case h_1 f own p hf hown hp =>
        split at h
        case isTrue hl =>
          split at h
          case h_1 x hx =>
            obtain rfl := Option.some.inj h
            exact .move hpc hf hl hx hown (Plan.enter_sound hp)
          case h_2 => cases h
        case isFalse => cases h
      case h_2 => cases h
    case h_2 => cases h
  | invalidate w c =>
    simp only [actHandler] at h
    split at h
    case h_1 g t e pending hpc =>
      split at h
      case h_1 f own p hf hown hp =>
        split at h
        case isTrue hl =>
          split at h
          case h_1 x hx =>
            obtain rfl := Option.some.inj h
            exact .invalidate hpc hl.1 hf hl.2 hx hown (Plan.enter_sound hp)
          case h_2 => cases h
        case isFalse => cases h
      case h_2 => cases h
    case h_2 => cases h
  | invalidateRetry w c =>
    simp only [actHandler] at h
    split at h
    case h_1 g t e pending f hpc hf =>
      split at h
      case isTrue hc =>
        obtain rfl := Option.some.inj h
        exact .invalidateRetry hpc hc hf
      case isFalse => cases h
    case h_2 => cases h
  | copyFailed w =>
    simp only [actHandler] at h
    split at h
    case h_1 g t e shared c hpc =>
      obtain rfl := Option.some.inj h
      exact .copyFailed hpc
    case h_2 => cases h
  | _ => cases h

omit [DecidableEq W] in
theorem actProvider_sound [DecidableEq W] (h : actProvider cfg o s a = some s') :
    ProviderStep cfg o s s' := by
  cases a with
  | select n =>
    simp only [actProvider] at h
    split at h
    case h_1 f hf =>
      split at h
      case isTrue hc =>
        obtain rfl := Option.some.inj h
        obtain ⟨he, hn, hl, hst, hp⟩ := hc
        exact .select he hn hf hl hst hp
      case isFalse => cases h
    case h_2 => cases h
  | refuse n =>
    simp only [actProvider] at h
    split at h
    case h_1 v hp =>
      obtain rfl := Option.some.inj h
      exact .refuse hp
    case h_2 => cases h
  | accept n c =>
    simp only [actProvider] at h
    split at h
    case h_1 f hf =>
      split at h
      case isTrue hc =>
        obtain ⟨hp, hl, hm⟩ := hc
        split at h
        case h_1 ev hev =>
          obtain rfl := Option.some.inj h
          exact .accept c hp hf hl hm rfl hev
        case h_2 => cases h
      case isFalse => cases h
    case h_2 => cases h
  | landed =>
    simp only [actProvider] at h
    split at h
    case h_1 n f hr hf =>
      split at h
      case h_1 g hg =>
        split at h
        case h_1 x hx =>
          split at h
          case isTrue hh =>
            obtain rfl := Option.some.inj h
            exact .landed hr hf hh hg hx
          case isFalse => cases h
        case h_2 => cases h
      case h_2 => cases h
    case h_2 => cases h
  | overlooked =>
    simp only [actProvider] at h
    split at h
    case h_1 n hr =>
      obtain rfl := Option.some.inj h
      exact .overlooked hr
    case h_2 => cases h
  | retrieved =>
    simp only [actProvider] at h
    split at h
    case h_1 f hf =>
      split at h
      case isTrue hh =>
        obtain rfl := Option.some.inj h
        exact .retrieved hf hh.1 hh.2
      case isFalse => cases h
    case h_2 => cases h
  | applyStale n =>
    simp only [actProvider] at h
    split at h
    case h_1 f hp hf =>
      obtain rfl := Option.some.inj h
      exact .applyStale hp hf
    case h_2 => cases h
  | writeBack =>
    simp only [actProvider] at h
    split at h
    case h_1 f hf =>
      split at h
      case h_1 x hx =>
        split at h
        case isTrue hc =>
          obtain ⟨he, hs, hh, hst, hd⟩ := hc
          obtain rfl := Option.some.inj h
          exact .writeBack he hs hf hh hst hd hx
        case isFalse => cases h
      case h_2 => cases h
    case h_2 => cases h
  | _ => cases h

theorem act_sound (h : act cfg o node s a = some s') : Step cfg o node s s' := by
  unfold act at h
  rcases Option.or_eq_some_iff.mp h with h | ⟨-, h⟩
  · rcases Option.or_eq_some_iff.mp h with h | ⟨-, h⟩
    · exact .worker (actWorker_sound h)
    · exact .handler (actHandler_sound h)
  · exact .provider (actProvider_sound h)

/-- What every step keeps holds after a list of acts. -/
theorem acts_invariant {P : PageState W C → Prop} (hP : ∀ s s', P s → Step cfg o node s s' → P s')
    {as : List (Act W C)} (hs : P s) (h : acts cfg o node s as = some s') : P s' := by
  induction as generalizing s with
  | nil =>
    obtain rfl := Option.some.inj h
    exact hs
  | cons a as ih =>
    simp only [acts] at h
    split at h
    case h_1 s₁ ha => exact ih (hP s s₁ hs (act_sound ha)) h
    case h_2 => cases h

end ScaleStore.Protocol
