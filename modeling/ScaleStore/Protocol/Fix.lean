/-
# What `fix` returns

A call of `fix` may take any of its ways, start again any number of times and be
interleaved with everything else; the guard it returns is the one its functor
asked for.  The frames and their latches are those of the arrays: a guard points
to a frame and remembers the version of the frame's latch, and the frame may come
to hold another page later.  The lookup of a call runs at the page table of its
node; the call goes on when the lookup has found the frame of its page.
-/

import ScaleStore.Guards.Conversions
import ScaleStore.PageTable.Latches
import ScaleStore.PageTable.Map
import ScaleStore.Protocol.Slots

namespace ScaleStore.Protocol

open Guards (Guard LatchState)

variable {PID W C F : Type} {cfg : Config} {o : NodeID} {node : W → NodeID}
  {s s' : PageState W C}

/-! ## Calls -/

/-- `ACCESS::type`. -/
def Access.type : Access → LatchState
  | .exclusive => .exclusive
  | .shared => .shared
  | .optimistic => .optimistic

namespace Pc

/-- The functor of the call of `fix` that is under way. -/
def call : Pc C → Option Access
  | .fix t | .peek t _ | .load t | .request t | .response t _ => some t
  | .move _ t _ _ _ | .invalidate _ t _ _ | .copy _ t _ _ _ | .copyFailed _ t _ _ => some t
  | .complete _ t _ | .update t _ | .updated t _ _ => some t
  | .downgrade _ true => some .shared
  | _ => none

/-- The latch state of the guard the worker has. -/
def guard : Pc C → Option LatchState
  | .guardX => some .exclusive
  | .guardS _ => some .shared
  | .guardO _ _ => some .optimistic
  | _ => none

/-- The functor of a PUR on its way. -/
def updates : Pc C → Option Access
  | .update t _ | .updated t _ _ => some t
  | _ => none

/-- The lookup of the call has returned. -/
def found : Pc C → Bool
  | .fix _ | .peek _ _ => false
  | p => p.call.isSome

/-- The guard stays the one it was; something may have been read through it. -/
inductive Keeps : Pc C → Pc C → Prop where
  | same (p) : Keeps p p
  | read (v a b) : Keeps (.guardO v a) (.guardO v b)

theorem Keeps.stamp {p q : Pc C} (h : Keeps p q) : q.stamp = p.stamp := by
  cases h <;> rfl

theorem Keeps.guard {p q : Pc C} (h : Keeps p q) : q.guard = p.guard := by
  cases h <;> rfl

theorem call_of_guard {p : Pc C} {l : LatchState} (h : p.guard = some l) : p.call = none := by
  cases p <;> first | rfl | cases h

theorem stamp_of_guard {p : Pc C} {l : LatchState} (h : p.guard = some l) (hl : l ≠ .exclusive) :
    ∃ v, p.stamp = some v := by
  cases p with
  | guardX => exact absurd (Option.some.inj h).symm hl
  | guardS v | guardO v => exact ⟨v, rfl⟩
  | _ => cases h

theorem stamp_getD {p : Pc C} {v : Nat} (h : ∀ u, p.stamp = some u → u = v) :
    p.stamp.getD v = v := by
  cases hst : p.stamp with
  | none => rfl
  | some u => exact h u hst

theorem guard_latched {p : Pc C} {l : LatchState} (h : p.guard = some l)
    (hl : p.latched = true) : l = .exclusive := by
  cases p <;> first | exact (Option.some.inj h).symm | exact absurd hl Bool.false_ne_true | cases h

theorem guard_shares {p : Pc C} {l : LatchState} (h : p.guard = some l)
    (hs : p.shares = true) : l = .shared := by
  cases p <;> first | exact (Option.some.inj h).symm | exact absurd hs Bool.false_ne_true

theorem call_of_found {p : Pc C} (h : p.found = true) : p.call ≠ none := by
  cases p <;> first | exact Option.isSome_iff_ne_none.mp h | cases h

theorem updates_latched {p : Pc C} {t : Access} (h : p.updates = some t) : p.latched = true := by
  cases p <;> first | rfl | cases h

theorem updates_call {p : Pc C} {t : Access} (h : p.updates = some t) : p.call = some t := by
  cases p <;> first | exact h | cases h

end Pc

theorem Enters.call {n : NodeID} {g : GuardState} {t : Access} {e : Nat} {plan : Plan} {p : Pc C}
    (h : Enters n g t e plan p) : p.call = some t ∧ p.updates = Option.none := by
  cases h <;> exact ⟨rfl, rfl⟩

/-! ## Steps of a call -/

section Steps

variable [DecidableEq W]

/-- The worker has latched its node's frame, or the latch has the version that it remembers. -/
def Current (node : W → NodeID) (s : PageState W C) (w : W) : Prop :=
  (s.pc w).latched = true ∨ (s.pc w).stamp = some (s.version (node w))

/-- What a step of the machine is for the worker `w`. -/
inductive Goes (o : NodeID) (node : W → NodeID) (s s' : PageState W C) (w : W) : Prop where
  | stays : s'.pc w = s.pc w → Goes o node s s' w
  | starts {t} : s.pc w = .idle → s'.pc w = .fix t → Goes o node s s' w
  | goesOn {t} : (s.pc w).call = some t → (s'.pc w).call = some t →
    (s'.pc w).updates = none ∨ (s'.pc w).updates = (s.pc w).updates →
    ((s.pc w).found = true → (s'.pc w).found = true → (s.pc w).latched = true) →
    Goes o node s s' w
  /-- A PUR is sent. -/
  | asks {t v f old f'} : s.pc w = .peek t v → s.frame (node w) = some f →
    s.version (node w) = v → t.functor (node w) o f = .remotePossessionChange →
    f.remoteChange = .ok (old, f') → s'.pc w = .update t old → Goes o node s s' w
  /-- It has succeeded; from here on the functor is not asked for any more. -/
  | updated {t} : (s.pc w).updates = some t → (s'.pc w).call = some .exclusive →
    (s'.pc w).updates = none → Goes o node s s' w
  | returns {t} : (s.pc w).call = some t → (s'.pc w).guard = some t.type →
    (∀ v, (s'.pc w).stamp = some v → v = s'.version (node w)) →
    ((s.pc w).found = true → Current node s w) → Goes o node s s' w
  /-- A call that is given up, or allocates a page. -/
  | ends : (s'.pc w).call = none → (s'.pc w).guard = none → Goes o node s s' w
  /-- A guard is used, converted or released. -/
  | uses : (s.pc w).call = none → (s'.pc w).call = none → Goes o node s s' w

/-- The other workers stay where they are. -/
theorem Goes.all {w' : W} {p : Pc C} (hpc : s'.pc = Function.update s.pc w' p)
    (h : Goes o node s s' w') (w : W) : Goes o node s s' w := by
  by_cases hw : w = w'
  · exact hw ▸ h
  · exact .stays (by rw [hpc, Function.update_of_ne hw])

/-- The next phase of the same call. -/
theorem Goes.on {w' : W} {p q : Pc C} (hpc : s'.pc = Function.update s.pc w' q) (hp : s.pc w' = p)
    (hq : q.call = p.call ∧ p.call ≠ none ∧ (q.updates = none ∨ q.updates = p.updates) ∧
      (p.found = true → q.found = true → p.latched = true)) (w : W) : Goes o node s s' w := by
  obtain ⟨hcall, hsome, hupdates, hlatched⟩ := hq
  obtain ⟨t, ht⟩ := Option.ne_none_iff_exists'.mp hsome
  refine .all hpc (.goesOn (t := t) ?_ ?_ ?_ ?_) w
  · rw [hp, ht]
  · rw [hpc, Function.update_self, hcall, ht]
  · rw [hpc, Function.update_self, hp]
    exact hupdates
  · rw [hpc, Function.update_self, hp]
    exact hlatched

/-- The next message of the same call. -/
theorem Goes.enter {w' : W} {p q : Pc C} {n : NodeID} {g : GuardState} {t : Access} {e : Nat}
    {plan : Plan} (hpc : s'.pc = Function.update s.pc w' q) (hp : s.pc w' = p)
    (hent : Enters n g t e plan q) (hcall : p.call = some t)
    (hlatched : p.found = true → p.latched = true) (w : W) : Goes o node s s' w := by
  refine .on hpc hp ⟨hent.call.1.trans hcall.symm, ?_, .inl hent.call.2, fun h _ => hlatched h⟩ w
  simp [hcall]

/-- A call that gets its guard. -/
theorem Goes.return {w' : W} {p q : Pc C} {t : Access} (hpc : s'.pc = Function.update s.pc w' q)
    (hp : s.pc w' = p) (hcall : p.call = some t) (hguard : q.guard = some t.type)
    (hst : ∀ v, q.stamp = some v → v = s'.version (node w'))
    (hcurrent : p.found = true → p.latched = true ∨ p.stamp = some (s.version (node w'))) (w : W) :
    Goes o node s s' w := by
  have hself : s'.pc w' = q := by rw [hpc, Function.update_self]
  refine .all hpc (.returns (hp ▸ hcall) (hself ▸ hguard) ?_ ?_) w
  · rw [hself]
    exact hst
  · rw [Current, hp]
    exact hcurrent

theorem Goes.use {w' : W} {p q : Pc C} (hpc : s'.pc = Function.update s.pc w' q)
    (hp : s.pc w' = p) (hcall : p.call = none) (hq : q.call = none) (w : W) :
    Goes o node s s' w := by
  refine .all hpc (.uses (hp ▸ hcall) ?_) w
  rw [hpc, Function.update_self, hq]

theorem WorkerStep.goes (st : WorkerStep cfg o node s s') (w : W) : Goes o node s s' w := by
  cases st with
  | start _ hpc => exact .all rfl (.starts hpc (Function.update_self ..)) w
  | insert c hpc =>
    split
    · exact .on rfl hpc (by simp [Pc.call, Pc.updates, Pc.found, Pc.latched]) w
    · exact .on rfl hpc (by simp [Pc.call, Pc.updates, Pc.found, Pc.latched]) w
  | peek hpc | retry hpc | load hpc | copyAbandoned hpc | copyAbandonedLocal hpc
  | updateFailed hpc | completeShared hpc =>
    exact .on rfl hpc (by simp [Pc.call, Pc.updates, Pc.found, Pc.latched]) w
  | changeLocal c hpc _ _ _ _ _ hent =>
    exact .enter rfl hpc hent rfl (by simp [Pc.found, Pc.latched]) w
  | receive hpc _ _ hent =>
    exact .enter rfl hpc hent rfl (by simp [Pc.found, Pc.latched]) w
  | copyAgain hpc _ _ hent =>
    exact .enter rfl hpc hent rfl (by simp [Pc.found, Pc.latched]) w
  | changeRemote hpc hf hv _ hfun hc =>
    exact .all rfl (.asks hpc hf hv hfun hc (Function.update_self ..)) w
  | updateDone hpc =>
    have hself : ∀ (q : Pc C) (w' : W), (s.setPc w' q).pc w' = q := fun q w' => by simp
    refine .all rfl (.updated (by rw [hpc]; rfl) ?_ ?_) w
    · rw [hself]
      rfl
    · rw [hself]
      rfl
  | updateConflict hpc _ _ hent =>
    have hself : ∀ (q : Pc C) (w' : W), (s.setPc w' q).pc w' = q := fun q w' => by simp
    refine .all rfl (.updated (by rw [hpc]; rfl) ?_ ?_) w
    · rw [hself]
      exact hent.call.1
    · rw [hself]
      exact hent.call.2
  | hitExclusive hpc =>
    exact .return rfl hpc rfl (by rfl) (by simp [Pc.stamp]) (by simp [Pc.found]) w
  | hitShared hpc _ hv =>
    exact .return rfl hpc rfl (by rfl) (by simp [Pc.stamp, hv]) (by simp [Pc.found]) w
  | hitOptimistic hpc _ hv =>
    exact .return rfl hpc rfl (by rfl) (by simp [Pc.stamp, hv]) (by simp [Pc.found]) w
  | completeExclusive hpc | completeOptimistic hpc =>
    exact .return rfl hpc rfl (by rfl) (by simp [Pc.stamp]) (fun _ => .inl rfl) w
  | @downgraded w' v again f hpc hf hv =>
    cases again with
    | true =>
      exact .return rfl hpc rfl (by rfl) (by simp [Pc.stamp, hv])
        (fun _ => .inr (congrArg _ hv.symm)) w
    | false => exact .use rfl hpc rfl (by rfl) w
  | @downgradeFailed w' v again hpc =>
    cases again with
    | true => exact .on rfl hpc (by simp [Pc.call, Pc.updates, Pc.found, Pc.latched]) w
    | false => exact .use rfl hpc rfl (by rfl) w
  | completeDiscarded => exact .all rfl (.ends (by simp [Pc.call]) (by simp [Pc.guard])) w
  | undo | write => exact .stays rfl
  | read c hpc => exact .use rfl hpc rfl (by rfl) w
  | newPage c _ hpc => exact .use rfl hpc rfl (by rfl) w
  | allocate c hpc => exact .use rfl hpc rfl (by rfl) w
  | reclaimPage _ hpc => exact .use rfl hpc rfl (by rfl) w
  | releaseExclusive hpc | releaseShared hpc | releaseOptimistic hpc | exclusiveToShared hpc
  | exclusiveToOptimistic hpc | sharedToOptimistic hpc | optimisticToShared hpc =>
    exact .use rfl hpc rfl (by rfl) w

theorem HandlerStep.goes (st : HandlerStep o node s s') (w : W) : Goes o node s s' w := by
  cases st with
  | requestLoad | loaded | invalidateRetry | updateRetry => exact .stays rfl
  | request hpc | copy hpc | copyFailed hpc =>
    exact .on rfl hpc (by simp [Pc.call, Pc.updates, Pc.found, Pc.latched]) w
  | move hpc _ _ _ _ hent =>
    exact .enter rfl hpc hent rfl (by simp [Pc.found, Pc.latched]) w
  | invalidate hpc _ _ _ _ _ hent =>
    exact .enter rfl hpc hent rfl (by simp [Pc.found, Pc.latched]) w
  | update hpc | updateFailed hpc =>
    exact .on rfl hpc (by simp [Pc.call, Pc.updates, Pc.found, Pc.latched]) w
  | allocation _ hpc => exact .all rfl (.ends (by simp [Pc.call]) (by simp [Pc.guard])) w

theorem Step.goes (st : Step cfg o node s s') (w : W) : Goes o node s s' w := by
  cases st with
  | worker st => exact st.goes w
  | handler st => exact st.goes w
  | provider st => cases st <;> exact .stays rfl

theorem PageStep.goes (st : PageStep cfg o node s s') (w : W) : Goes o node s s' w := by
  cases st with
  | step st => exact st.goes w
  | overwritten st =>
    cases st
    exact .stays rfl

omit [DecidableEq W] in
/-- Of all steps only a return leads from a call to a guard. -/
theorem Goes.returned {w : W} {t : Access} {l : LatchState} (h : Goes o node s s' w)
    (hcall : (s.pc w).call = some t) (hguard : (s'.pc w).guard = some l) :
    l = t.type ∧ (∀ v, (s'.pc w).stamp = some v → v = s'.version (node w)) ∧
      ((s.pc w).found = true → Current node s w) := by
  have hnone := Pc.call_of_guard hguard
  cases h with
  | stays heq => cases (heq ▸ hnone).symm.trans hcall
  | starts hidle => simp [hidle, Pc.call] at hcall
  | goesOn _ hcall' => cases hnone.symm.trans hcall'
  | asks _ _ _ _ _ hask => simp [hask, Pc.guard] at hguard
  | updated _ hcall' => cases hnone.symm.trans hcall'
  | returns hcall' hguard' hst hcurrent =>
    obtain rfl := Option.some.inj (hcall.symm.trans hcall')
    exact ⟨Option.some.inj (hguard.symm.trans hguard'), hst, hcurrent⟩
  | ends _ hguard' => cases hguard'.symm.trans hguard
  | uses hcall' => cases hcall'.symm.trans hcall

/-- A PUR is only sent for exclusive access: a frame that is in use can be shared as it is. -/
theorem updates_exclusive (h : (machine cfg o node).Reachable s) (w : W) (t : Access)
    (hpc : (s.pc w).updates = some t) : t = .exclusive := by
  revert w t
  refine h.invariant (P := fun s => ∀ w t, (s.pc w).updates = some t → t = .exclusive) ?_ ?_
  · intro s hs w t hpc
    simp [hs.pc w, Pc.updates] at hpc
  · intro s s' hs ih st w t hpc
    cases st.goes w with
    | stays heq => exact ih w t (heq ▸ hpc)
    | starts _ hpc' => simp [hpc', Pc.updates] at hpc
    | goesOn _ _ hupd _ =>
      rcases hupd with hupd | hupd
      · simp [hupd] at hpc
      · exact ih w t (hupd ▸ hpc)
    | @asks t' v f old f' hpeek hf hv hfun hc hpc' =>
      obtain rfl : t' = t := by simpa [hpc', Pc.updates] using hpc
      obtain ⟨hn, hmiss⟩ := Access.functor_remote hfun
      obtain ⟨-, hhot, -⟩ := Frame.remoteChange_ok hc
      have hco := (machine_invariant hs).coherent (w := w) (by simp [hpeek]) (by simp [hpeek])
      obtain ⟨hfree, -⟩ := hco.nodes.current (by simp [hpeek, Pc.stamp]) hv hf
      rcases (hco.nodes (node w)).rest f hf hfree with ⟨hn', -⟩ | ⟨-, huse | ⟨hleft, -⟩⟩
      · exact absurd hn' hn
      · exact (hmiss.resolve_left (by simp [huse.2.1])).1
      · cases hhot.symm.trans hleft.1
    | updated _ _ hnone => simp [hnone] at hpc
    | returns _ hguard => cases (Pc.updates_call hpc).symm.trans (Pc.call_of_guard hguard)
    | ends hcall => cases (Pc.updates_call hpc).symm.trans hcall
    | uses _ hcall => cases (Pc.updates_call hpc).symm.trans hcall

theorem le_update_add (v : NodeID → Nat) (m n : NodeID) (k : Nat) :
    v n ≤ Function.update v m (v m + k) n := by
  by_cases hn : n = m
  · subst hn
    simp
  · simp [hn]

/-- Latch versions only grow. -/
theorem Step.version_le (st : Step cfg o node s s') (n : NodeID) : s.version n ≤ s'.version n := by
  cases st with
  | worker st => cases st <;> first | exact Nat.le_refl _ | exact le_update_add s.version _ n _
  | handler st =>
    cases st <;> first | exact Nat.le_refl _ | exact le_update_add s.version _ n _ |
      exact Nat.le_trans (le_update_add s.version _ n _) (le_update_add _ _ n _)
  | provider st => cases st <;> first | exact Nat.le_refl _ | exact le_update_add s.version _ n _

theorem PageStep.version_le (st : PageStep cfg o node s s') (n : NodeID) :
    s.version n ≤ s'.version n := by
  cases st with
  | step st => exact st.version_le n
  | overwritten st =>
    cases st
    exact le_update_add s.version _ n _

end Steps

/-! ## Frames and their slots -/

section Slots

variable [DecidableEq F] [DecidableEq PID] {owner : PID → NodeID}

omit [DecidableEq PID] in
/-- A frame keeps its PID until it is removed. -/
theorem SlotStep.pid {p q : PID} {before after : Option (Frame W C)}
    {slots slots' : F → BufferFrame PID W C} (st : SlotStep p before after slots slots') {x : F}
    (hx : (slots x).pid = some q) (hused : (slots x).state ≠ .free) (hq : q = p → after ≠ none) :
    (slots' x).pid = some q := by
  cases st with
  | absent => exact hx
  | @update y f hy =>
    by_cases hxy : x = y
    · subst hxy
      rw [Function.update_self]
      exact hx
    · rw [Function.update_of_ne hxy]
      exact hx
  | @insert y b hbefore hfree =>
    have hxy : x ≠ y := by
      rintro rfl
      exact hused hfree
    rw [Function.update_of_ne hxy]
    exact hx
  | @remove y hy hafter =>
    have hxy : x ≠ y := by
      rintro rfl
      exact hq (Option.some.inj (hx.symm.trans hy)) hafter
    rw [Function.update_of_ne hxy]
    exact hx

omit [DecidableEq PID] in
/-- A frame that a step leaves is in a slot. -/
theorem SlotStep.slot {p : PID} {before after : Option (Frame W C)}
    {slots slots' : F → BufferFrame PID W C} (st : SlotStep p before after slots slots')
    (hafter : after ≠ none) : ∃ x, (slots' x).pid = some p := by
  cases st with
  | absent _ hnone => exact absurd hnone hafter
  | @update x f hx =>
    refine ⟨x, ?_⟩
    rw [Function.update_self]
    exact hx
  | @insert x b _ _ hins =>
    refine ⟨x, ?_⟩
    rw [Function.update_self]
    exact (BufferFrame.used_of_inserted hins).1
  | remove _ hnone => exact absurd hnone hafter

omit [DecidableEq F] [DecidableEq PID] in
/-- A slot with a PID is in use. -/
theorem Mirrors.used {frames : PID → Option (Frame W C)} {slots : F → BufferFrame PID W C}
    (h : Mirrors frames slots) {x : F} {p : PID} (hx : (slots x).pid = some p) :
    (slots x).state ≠ .free := by
  obtain ⟨f, -, hview⟩ := h.linked x p hx
  intro hfree
  simp [BufferFrame.view, hfree] at hview

variable [DecidableEq W] {σ σ' : Store PID W C F}

/-- A page that does not take the step stays as it is. -/
theorem store_page (st : (store F cfg owner node).Step σ σ') (p : PID) :
    σ'.page p = σ.page p ∨ PageStep cfg (owner p) node (σ.page p) (σ'.page p) := by
  obtain ⟨q, s', hst, hpage, -⟩ := st
  by_cases hp : p = q
  · subst hp
    right
    rw [hpage, Function.update_self]
    exact hst.page
  · left
    rw [hpage, Function.update_of_ne hp]

theorem store_pid (h : (store F cfg owner node).Reachable σ)
    (st : (store F cfg owner node).Step σ σ') {n : NodeID} {x : F} {p : PID}
    (hx : (σ.slot n x).pid = some p) (hp : (σ'.page p).frame n ≠ none) :
    (σ'.slot n x).pid = some p := by
  obtain ⟨q, s', -, hpage, hslots⟩ := st
  refine (hslots n).pid hx ((store_mirrors h n).used hx) ?_
  rintro rfl
  rwa [hpage, Function.update_self] at hp

/-- Every frame of a page is in a slot. -/
theorem store_slot (h : (store F cfg owner node).Reachable σ) (n : NodeID) (p : PID)
    (hp : (σ.page p).frame n ≠ none) : ∃ x, (σ.slot n x).pid = some p := by
  induction h with
  | init h => exact absurd ((h.1 p).frame n) hp
  | @step σ σ' hs st ih =>
    obtain ⟨q, s', -, hpage, hslots⟩ := st
    by_cases hq : p = q
    · subst hq
      rw [hpage, Function.update_self] at hp
      exact (hslots n).slot hp
    · have hold := hp
      rw [hpage, Function.update_of_ne hq] at hold
      obtain ⟨x, hx⟩ := ih hold
      exact ⟨x, (hslots n).pid hx ((store_mirrors hs n).used hx) fun h => absurd h hq⟩

end Slots

/-! ## Calls and guards on the arrays -/

/-- The store, the latches of its frames, and what each worker has called `fix` for and got. -/
structure Calls (PID W C F : Type) where
  store : Store PID W C F
  /-- `HybridLatch::version`. -/
  version : NodeID → F → Nat
  /-- The functor of the latest call. -/
  functor : PID → W → Access
  /-- The guard that the latest call has returned, until it is converted or released. -/
  guard : PID → W → Option (Guard F)

/-- How far a step moves the version of a latch: as far as that of the page in the frame. -/
def Store.moved (σ σ' : Store PID W C F) (n : NodeID) (x : F) : Nat :=
  match (σ.slot n x).pid.or (σ'.slot n x).pid with
  | some p => (σ'.page p).version n - (σ.page p).version n
  | none => 0

/-- The functor of a call that starts here, or of the one before. -/
def Pc.started (before after : Pc C) (t : Access) : Access :=
  match before, after with
  | .idle, .fix t' => t'
  | _, _ => t

/-- What becomes of the guard of a worker that goes on to `after`.  When a call returns, its guard
is on the frame of the page.  `vAcquired` is as far behind the latch as the version that the worker
remembers is behind the page's; under the exclusive latch there is nothing to remember. -/
inductive GuardStep (p : PID) (slots : F → BufferFrame PID W C) (version : F → Nat)
    (pageVersion : Nat) (before after : Pc C) (g : Option (Guard F)) : Option (Guard F) → Prop where
  | returned {x l vAcquired} : before.call ≠ none → after.guard = some l →
    (slots x).pid = some p →
    vAcquired + pageVersion = version x + after.stamp.getD pageVersion →
    GuardStep p slots version pageVersion before after g
      (some ⟨vAcquired, some x, .initialized, l⟩)
  | kept : before.Keeps after → GuardStep p slots version pageVersion before after g g
  | dropped : before.call = none ∨ after.guard = none → ¬ before.Keeps after →
    GuardStep p slots version pageVersion before after g none

section Calls

variable [DecidableEq F] [DecidableEq PID] [DecidableEq W]

/-- The steps of the store, with the guards. -/
structure CallStep (cfg : Config) (owner : PID → NodeID) (node : W → NodeID)
    (c c' : Calls PID W C F) : Prop where
  store : (store F cfg owner node).Step c.store c'.store
  version : ∀ n x, c'.version n x = c.version n x + c.store.moved c'.store n x
  functor : ∀ p w, c'.functor p w =
    ((c.store.page p).pc w).started ((c'.store.page p).pc w) (c.functor p w)
  guard : ∀ p w, GuardStep p (c'.store.slot (node w)) (c'.version (node w))
    ((c'.store.page p).version (node w)) ((c.store.page p).pc w) ((c'.store.page p).pc w)
    (c.guard p w) (c'.guard p w)

/-- All calls of all workers, interleaved with everything else. -/
def calls (F : Type) [DecidableEq F] (cfg : Config) (owner : PID → NodeID) (node : W → NodeID) :
    System (Calls PID W C F) where
  Init c := (store F cfg owner node).Init c.store ∧ (∀ n x, c.version n x = 0b100) ∧
    ∀ p w, c.guard p w = none
  Step := CallStep cfg owner node

variable {owner : PID → NodeID} {c c' : Calls PID W C F}

theorem calls_store (h : (calls F cfg owner node).Reachable c) :
    (store F cfg owner node).Reachable c.store := by
  induction h with
  | init h => exact .init h.1
  | step _ h ih => exact ih.step h.store

theorem calls_page (h : (calls F cfg owner node).Reachable c) (p : PID) :
    (machine cfg (owner p) node).Reachable (c.store.page p) :=
  world_page (store_world (calls_store h)) p

theorem store_goes {σ σ' : Store PID W C F} (st : (store F cfg owner node).Step σ σ') (p : PID)
    (w : W) : Goes (owner p) node (σ.page p) (σ'.page p) w := by
  rcases store_page st p with heq | hst
  · exact .stays (by rw [heq])
  · exact hst.goes w

theorem CallStep.version_le (st : CallStep cfg owner node c c') (p : PID) (n : NodeID) :
    (c.store.page p).version n ≤ (c'.store.page p).version n := by
  rcases store_page st.store p with heq | hst
  · exact Nat.le_of_eq (by rw [heq])
  · exact hst.version_le n

/-! What a call has been started with is what it is carried out with. -/

omit [DecidableEq F] [DecidableEq PID] [DecidableEq W] in
theorem Pc.started_of_call {before after : Pc C} {t t' : Access} (h : before.call = some t') :
    before.started after t = t := by
  cases before <;> first | rfl | cases h

theorem functor_of_call (h : (calls F cfg owner node).Reachable c) (p : PID) (w : W) (t : Access)
    (hpc : ((c.store.page p).pc w).call = some t) : c.functor p w = t := by
  revert p w t
  refine h.invariant (P := fun c => ∀ p w t, ((c.store.page p).pc w).call = some t →
    c.functor p w = t) ?_ ?_
  · intro c hc p w t hpc
    simp [(hc.1.1 p).pc w, Pc.call] at hpc
  · intro c c' hc ih st p w t hpc
    rw [st.functor p w]
    cases store_goes st.store p w with
    | stays heq =>
      rw [heq] at hpc
      rw [Pc.started_of_call hpc]
      exact ih p w t hpc
    | starts hidle hfix =>
      rw [hfix] at hpc
      rw [hidle, hfix]
      exact Option.some.inj hpc
    | goesOn hcall hcall' =>
      rw [Pc.started_of_call hcall, ih p w _ hcall]
      exact Option.some.inj (hcall'.symm.trans hpc)
    | asks hpeek _ _ _ _ hask =>
      rw [hask] at hpc
      rw [hpeek, Pc.started_of_call rfl, ih p w _ (by rw [hpeek]; rfl)]
      exact Option.some.inj hpc
    | updated hupd hcall' =>
      have hcall := Pc.updates_call hupd
      rw [Pc.started_of_call hcall, ih p w _ hcall, updates_exclusive (calls_page hc p) w _ hupd]
      exact Option.some.inj (hcall'.symm.trans hpc)
    | returns _ hguard => cases hpc.symm.trans (Pc.call_of_guard hguard)
    | ends hnone => cases hpc.symm.trans hnone
    | uses _ hnone => cases hpc.symm.trans hnone

/-! ## What a guard stands on -/

omit [DecidableEq PID] in
/-- The frame under a guard: an optimistic one is good for the version it remembers. -/
theorem guard_hot {s : PageState W C} (h : (machine cfg o node).Reachable s) {w : W}
    {l : LatchState} (hg : (s.pc w).guard = some l)
    (hv : l = .optimistic → (s.pc w).stamp = some (s.version (node w))) :
    ∃ f, s.frame (node w) = some f ∧ f.Hot (node w) ∧
      (l = .exclusive → f.possession = .exclusive ∧ f.holder = some (.worker w)) ∧
      (l = .shared → w ∈ f.readers) := by
  have hpc : s.pc w ≠ .idle ∧ s.pc w ≠ .allocate := by
    constructor <;> intro hpc <;> simp [hpc, Pc.guard] at hg
  have hco := (machine_invariant h).coherent hpc.1 hpc.2
  have hnode := hco.nodes (node w)
  cases hw : s.pc w with
  | guardX =>
    obtain ⟨f, hf, hh⟩ := hnode.holds w rfl (by simp [hw, Pc.latched])
    obtain ⟨-, -, hhot, hx⟩ := hco.nodes.fits hw rfl hf
    refine ⟨f, hf, hhot, fun _ => ⟨hx, hh⟩, ?_⟩
    rintro rfl
    simp [hw, Pc.guard] at hg
  | guardS v =>
    obtain ⟨f, hf, hhot⟩ := hnode.reads w rfl (by simp [hw, Pc.shares])
    refine ⟨f, hf, hhot, ?_, fun _ => (hnode.readers f w hf).mpr ⟨rfl, by simp [hw, Pc.shares]⟩⟩
    rintro rfl
    simp [hw, Pc.guard] at hg
  | guardO v seen =>
    obtain rfl : LatchState.optimistic = l := by simpa [hw, Pc.guard] using hg
    rcases hnode.stamp w _ rfl (hv rfl) with hlt | ⟨-, f, hf, -, -, hhot⟩
    · exact absurd hlt (Nat.lt_irrefl _)
    · exact ⟨f, hf, hhot (by simp [hw, Pc.trusts]), by simp, by simp⟩
  | _ => simp [hw, Pc.guard] at hg

omit [DecidableEq PID] in
theorem stamp_le {s : PageState W C} (h : (machine cfg o node).Reachable s) {w : W} {v : Nat}
    (hst : (s.pc w).stamp = some v) : v ≤ s.version (node w) := by
  have hpc : s.pc w ≠ .idle ∧ s.pc w ≠ .allocate := by
    constructor <;> intro hpc <;> simp [hpc, Pc.stamp] at hst
  have hco := (machine_invariant h).coherent hpc.1 hpc.2
  rcases (hco.nodes (node w)).stamp w v rfl hst with hlt | ⟨heq, -⟩
  · exact Nat.le_of_lt hlt
  · exact Nat.le_of_eq heq

/-- The slot `x` is the one of the page, and the versions of its latch and of the page have gone
on equally far since the guard was returned; or the latch has gone on further. -/
def Points (c : Calls PID W C F) (p : PID) (n : NodeID) (x : F) (u : Nat) (pc : Pc C) : Prop :=
  ((c.store.slot n x).pid = some p ∧
    ∀ v, pc.stamp = some v → c.version n x + v = (c.store.page p).version n + u) ∨
  (pc.guard = some .optimistic ∧ u < c.version n x)

/-- A guard that is in use. -/
structure Returned (node : W → NodeID) (c : Calls PID W C F) (p : PID) (w : W) (g : Guard F) :
    Prop where
  guard : ((c.store.page p).pc w).guard = some g.latchState
  state : g.state = .initialized
  latchState : g.latchState = (c.functor p w).type
  frame : ∃ x, g.frame = some x ∧
    Points c p (node w) x g.vAcquired ((c.store.page p).pc w)

/-- A guard stays on its slot until the latch has gone on. -/
theorem Points.step {p : PID} {w : W} {x : F} {u : Nat} (hc : (calls F cfg owner node).Reachable c)
    (st : CallStep cfg owner node c c') {l : LatchState}
    (hg : ((c'.store.page p).pc w).guard = some l)
    (hkeep : ((c.store.page p).pc w).Keeps ((c'.store.page p).pc w))
    (h : Points c p (node w) x u ((c.store.page p).pc w)) :
    Points c' p (node w) x u ((c'.store.page p).pc w) := by
  have hstore := calls_store hc
  have hle := st.version_le p (node w)
  have hv := st.version (node w) x
  rcases h with ⟨hpid, hstamp⟩ | ⟨hopt, hlt⟩
  · have hmoved : c.store.moved c'.store (node w) x =
        (c'.store.page p).version (node w) - (c.store.page p).version (node w) := by
      simp [Store.moved, hpid]
    by_cases hpid' : (c'.store.slot (node w) x).pid = some p
    · refine .inl ⟨hpid', fun v hst => ?_⟩
      have := hstamp v (hkeep.stamp ▸ hst)
      omega
    · -- the frame is gone, so the guard is an optimistic one of an older version
      have hgone : (c'.store.page p).frame (node w) = none := by
        by_contra hf
        exact hpid' (store_pid hstore st.store hpid hf)
      have hc' := calls_page (hc.step st) p
      have hnot : ¬ (l = .optimistic →
          ((c'.store.page p).pc w).stamp = some ((c'.store.page p).version (node w))) := by
        intro hv
        obtain ⟨f, hf, -⟩ := guard_hot hc' hg hv
        cases hgone.symm.trans hf
      obtain ⟨rfl, hne⟩ := Classical.not_imp.mp hnot
      obtain ⟨v, hst⟩ := Pc.stamp_of_guard hg (by simp)
      have hlt : v < (c'.store.page p).version (node w) := by
        refine Nat.lt_of_le_of_ne (stamp_le hc' hst) ?_
        rintro rfl
        exact hne hst
      have := hstamp v (hkeep.stamp ▸ hst)
      exact .inr ⟨hg, by omega⟩
  · exact .inr ⟨hkeep.guard ▸ hopt, by omega⟩

omit [DecidableEq F] [DecidableEq PID] [DecidableEq W] in
/-- A worker that stays where it is is not at the start of a call. -/
theorem Pc.started_of_keeps {before after : Pc C} (h : before.Keeps after) (t : Access) :
    before.started after t = t := by
  cases h with
  | same => cases before <;> rfl
  | read => rfl

theorem returned_of_reachable (h : (calls F cfg owner node).Reachable c) (p : PID) (w : W)
    (g : Guard F) (hg : c.guard p w = some g) : Returned node c p w g := by
  revert p w g
  refine h.invariant (P := fun c => ∀ p w g, c.guard p w = some g → Returned node c p w g) ?_ ?_
  · intro c hc p w g hg
    cases (hc.2.2 p w).symm.trans hg
  · intro c c' hc ih st p w g hg
    have hstep := st.guard p w
    rw [hg] at hstep
    generalize hold : c.guard p w = old at hstep
    have hfunctor := st.functor p w
    cases hstep with
    | @returned x l vAcquired hcall hguard hpid hversion =>
      obtain ⟨t, hcall⟩ := Option.ne_none_iff_exists'.mp hcall
      have hreturn := (store_goes st.store p w).returned hcall hguard
      refine ⟨hguard, rfl, ?_, x, rfl, .inl ⟨hpid, fun v hst => ?_⟩⟩
      · rw [hfunctor, Pc.started_of_call hcall, functor_of_call hc p w t hcall]
        exact hreturn.1
      · rw [hst, Option.getD_some] at hversion
        rw [← hversion, Nat.add_comm]
    | kept hkeep =>
      obtain ⟨hguard, hstate, htype, x, hx, hpoints⟩ := ih p w g hold
      have hguard' : ((c'.store.page p).pc w).guard = some g.latchState :=
        hkeep.guard.trans hguard
      refine ⟨hguard', hstate, ?_, x, hx, hpoints.step hc st hguard' hkeep⟩
      rw [hfunctor, Pc.started_of_keeps hkeep]
      exact htype

/-! ## The postcondition -/

/-- The frame holds the page `p`, in use on the node `n` for an access `t`. -/
structure InUse (n : NodeID) (p : PID) (t : Access) (b : BufferFrame PID W C) : Prop where
  pid : b.pid = some p
  hot : b.state = .used .hot
  page : b.page ≠ none
  possessor : b.isPossessor n = true
  exclusive : t = .exclusive → b.possession = .exclusive

/-- What a guard that `fix` has returned is, for as long as it is not converted or released. -/
structure Postcondition (node : W → NodeID) (c : Calls PID W C F) (p : PID) (w : W) (g : Guard F) :
    Prop where
  state : g.state = .initialized
  latchState : g.latchState = (c.functor p w).type
  /-- While the latch has the version `vAcquired`, and in any case while it is held. -/
  frame : ∃ x, g.frame = some x ∧
    (g.latchState ≠ .optimistic ∨ c.version (node w) x = g.vAcquired →
      InUse (node w) p (c.functor p w) (c.store.slot (node w) x))
  /-- It is the only latch the call has. -/
  holder : ∀ n x, (c.store.slot n x).pid = some p →
    ((c.store.slot n x).holder = some (.worker w) ↔
      g.latchState = .exclusive ∧ n = node w ∧ g.frame = some x)
  readers : ∀ n x, (c.store.slot n x).pid = some p →
    (w ∈ (c.store.slot n x).readers ↔ g.latchState = .shared ∧ n = node w ∧ g.frame = some x)

/-- A step in which a call of `fix` on `p` returns. -/
def Returns (p : PID) (w : W) (c c' : Calls PID W C F) : Prop :=
  ((c.store.page p).pc w).call ≠ none ∧ ((c'.store.page p).pc w).guard ≠ none

omit [DecidableEq F] [DecidableEq PID] [DecidableEq W] in
theorem BufferFrame.of_view {b : BufferFrame PID W C} {f : Frame W C} (h : b.view = some f) :
    b.state = .used f.state ∧ b.page = f.page ∧ b.possession = f.possession ∧
      b.holder = f.holder ∧ b.readers = f.readers ∧ ∀ n, b.isPossessor n = f.isPossessor n := by
  unfold BufferFrame.view at h
  split at h
  · cases h
  · obtain rfl := Option.some.inj h
    exact ⟨‹_›, rfl, rfl, rfl, rfl, fun n => rfl⟩

theorem Returned.postcondition (hc : (calls F cfg owner node).Reachable c) {p : PID} {w : W}
    {g : Guard F} (h : Returned node c p w g) : Postcondition node c p w g := by
  obtain ⟨hguard, hstate, htype, x, hx, hpoints⟩ := h
  have hpage := calls_page hc p
  have hmirrors := store_mirrors (calls_store hc) (node w)
  -- the slot, where the guard can be used
  have hslot : g.latchState ≠ .optimistic ∨ c.version (node w) x = g.vAcquired →
      (c.store.slot (node w) x).pid = some p ∧ (g.latchState = .optimistic →
        ((c.store.page p).pc w).stamp = some ((c.store.page p).version (node w))) := by
    intro hgood
    rcases hpoints with ⟨hpid, hstamp⟩ | ⟨hopt, hlt⟩
    · refine ⟨hpid, fun hopt => ?_⟩
      have hv := hgood.resolve_left (fun hne => hne hopt)
      obtain ⟨v, hst⟩ := Pc.stamp_of_guard hguard (by simp [hopt])
      have := hstamp v hst
      rw [hst]
      congr 1
      omega
    · obtain heq := Option.some.inj (hguard.symm.trans hopt)
      rcases hgood with hne | hv
      · exact absurd heq hne
      · omega
  -- the frame in it
  have hframe : ∀ (hgood : g.latchState ≠ .optimistic ∨ c.version (node w) x = g.vAcquired),
      ∃ f, (c.store.page p).frame (node w) = some f ∧
        (c.store.slot (node w) x).view = some f ∧ f.Hot (node w) ∧
        (g.latchState = .exclusive → f.possession = .exclusive ∧ f.holder = some (.worker w)) ∧
        (g.latchState = .shared → w ∈ f.readers) := by
    intro hgood
    obtain ⟨hpid, hv⟩ := hslot hgood
    obtain ⟨f, hf, hhot, hx, hs⟩ := guard_hot hpage hguard hv
    obtain ⟨f', hf', hview⟩ := hmirrors.linked x p hpid
    obtain rfl := Option.some.inj (hf.symm.trans hf')
    exact ⟨f, hf, hview, hhot, hx, hs⟩
  have hpc : ((c.store.page p).pc w) ≠ .idle ∧ ((c.store.page p).pc w) ≠ .allocate := by
    constructor <;> intro hpc <;> simp [hpc, Pc.guard] at hguard
  have hnodes := ((machine_invariant hpage).coherent hpc.1 hpc.2).nodes
  -- a slot of the page on the worker's node
  have honly : ∀ n y, (c.store.slot n y).pid = some p → node w = n → g.latchState ≠ .optimistic →
      n = node w ∧ g.frame = some y := by
    rintro _ y hy rfl hne
    obtain rfl := hmirrors.unique x y p (hslot (.inl hne)).1 hy
    exact ⟨rfl, hx⟩
  refine ⟨hstate, htype, ⟨x, hx, fun hgood => ?_⟩, ?_, ?_⟩
  · obtain ⟨f, -, hview, hhot, hexcl, -⟩ := hframe hgood
    obtain ⟨hst, hpg, hpos, -, -, hposs⟩ := BufferFrame.of_view hview
    refine ⟨(hslot hgood).1, ?_, ?_, ?_, fun ht => ?_⟩
    · rw [hst, hhot.1]
    · rw [hpg, ← Option.isSome_iff_ne_none]
      exact hhot.2.2
    · rw [hposs]
      exact hhot.2.1
    · rw [hpos]
      exact (hexcl (by rw [htype, ht]; rfl)).1
  · intro n y hy
    constructor
    · intro hh
      obtain ⟨f, hf, hview⟩ := (store_mirrors (calls_store hc) n).linked y p hy
      rw [(BufferFrame.of_view hview).2.2.2.1] at hh
      obtain ⟨hn, hfits⟩ := (hnodes n).held f w hf hh
      have hl : g.latchState = .exclusive := Pc.guard_latched hguard hfits.latched
      exact ⟨hl, honly n y hy hn (by simp [hl])⟩
    · rintro ⟨hl, rfl, hy'⟩
      obtain rfl := Option.some.inj (hx.symm.trans hy')
      obtain ⟨f, -, hview, -, hexcl, -⟩ := hframe (.inl (by simp [hl]))
      rw [(BufferFrame.of_view hview).2.2.2.1]
      exact (hexcl hl).2
  · intro n y hy
    constructor
    · intro hr
      obtain ⟨f, hf, hview⟩ := (store_mirrors (calls_store hc) n).linked y p hy
      rw [(BufferFrame.of_view hview).2.2.2.2.1] at hr
      obtain ⟨hn, hshares⟩ := ((hnodes n).readers f w hf).mp hr
      have hl : g.latchState = .shared := Pc.guard_shares hguard hshares
      exact ⟨hl, honly n y hy hn (by simp [hl])⟩
    · rintro ⟨hl, rfl, hy'⟩
      obtain rfl := Option.some.inj (hx.symm.trans hy')
      obtain ⟨f, -, hview, -, -, hshared⟩ := hframe (.inl (by simp [hl]))
      rw [(BufferFrame.of_view hview).2.2.2.2.1]
      exact hshared hl

/-- A call that returns has its guard on the frame of the page, at the version of the latch. -/
theorem CallStep.returned (st : CallStep cfg owner node c c') {p : PID} {w : W}
    (hcall : ((c.store.page p).pc w).call ≠ none) (hguard : ((c'.store.page p).pc w).guard ≠ none) :
    ∃ g x, c'.guard p w = some g ∧ g.frame = some x ∧
      (c'.store.slot (node w) x).pid = some p ∧ g.vAcquired = c'.version (node w) x := by
  have hstep := st.guard p w
  generalize c'.guard p w = g' at hstep
  cases hstep with
  | @returned x l vAcquired _ hl hpid hversion =>
    -- the version that the worker remembers is the current one
    obtain ⟨t, ht⟩ := Option.ne_none_iff_exists'.mp hcall
    rw [Pc.stamp_getD ((store_goes st.store p w).returned ht hl).2.1] at hversion
    exact ⟨_, x, rfl, rfl, hpid, Nat.add_right_cancel hversion⟩
  | kept hkeep =>
    obtain ⟨l, hl⟩ := Option.ne_none_iff_exists'.mp hguard
    exact absurd (Pc.call_of_guard (hkeep.guard ▸ hl)) hcall
  | dropped hnone => exact (hnone.elim hcall hguard).elim

/-! ## Calls and their lookups -/

/-- The calls, and the page tables of the nodes.  A call is a thread of its own at the table of its
worker's node; `H` are the other threads. -/
structure Lookups (PID W C F H : Type) where
  calls : Calls PID W C F
  table : NodeID → PageTable.State PID F (PID × W ⊕ H)

/-- The lookup of a call returns. -/
def Pc.EndsLookup (before after : Pc C) : Prop :=
  before.call ≠ none ∧ before.found = false ∧ (after.found = true ∨ after.guard ≠ none)

section Lookups

variable {H : Type} [DecidableEq H]

/-- The steps of the calls and of their lookups. -/
inductive LookupStep (cfg : Config) (owner : PID → NodeID) (node : W → NodeID)
    (L : NodeID → PageTable.Layout PID F) (k : Lookups PID W C F H) :
    Lookups PID W C F H → Prop where
  /-- A thread goes on at a table.  A call whose lookup has returned does nothing there but give the
  latch of the frame back. -/
  | table {n t table'} : PageTable.Step (L n) t (k.table n) table' →
    (∀ p w, t = .inl (p, w) → node w = n ∧
      (((k.calls.store.page p).pc w).found = true → table'.pc t = .idle)) →
    LookupStep cfg owner node L k { k with table := Function.update k.table n table' }
  /-- A call goes on.  Its lookup can only return when it has found the frame of the page. -/
  | call {calls'} : CallStep cfg owner node k.calls calls' →
    (∀ p w, ((k.calls.store.page p).pc w).EndsLookup ((calls'.store.page p).pc w) →
      ∃ x g, (k.table (node w)).pc (.inl (p, w)) = .guard p x g ∧
        (calls'.store.slot (node w) x).pid = some p) →
    LookupStep cfg owner node L k { k with calls := calls' }

/-- All calls with their lookups. -/
def lookups (cfg : Config) (owner : PID → NodeID) (node : W → NodeID)
    (L : NodeID → PageTable.Layout PID F) : System (Lookups PID W C F H) where
  Init k := (calls F cfg owner node).Init k.calls ∧
    ∀ n, (PageTable.pageTable (L n)).Init (k.table n)
  Step := LookupStep cfg owner node L

variable {L : NodeID → PageTable.Layout PID F} {k k' : Lookups PID W C F H}

theorem lookups_calls (h : (lookups cfg owner node L).Reachable k) :
    (calls F cfg owner node).Reachable k.calls := by
  induction h with
  | init h => exact .init h.1
  | step _ st ih =>
    cases st with
    | table => exact ih
    | call hcall => exact ih.step hcall

theorem lookups_table (h : (lookups cfg owner node L).Reachable k) (n : NodeID) :
    (PageTable.pageTable (L n)).Reachable (k.table n) := by
  induction h with
  | init h => exact .init (h.2 n)
  | step _ st ih =>
    cases st with
    | @table m t table' hstep =>
      by_cases hn : n = m
      · subst hn
        simp only [Function.update_self]
        exact ih.step ⟨t, hstep⟩
      · simp only [Function.update_of_ne hn]
        exact ih
    | call => exact ih

omit [DecidableEq F] [DecidableEq PID] in
/-- A frame that is latched, or whose latch has the version remembered, is in the table. -/
theorem frame_of_current {s : PageState W C} (h : (machine cfg o node).Reachable s) {w : W}
    (hpc : (s.pc w).found = true) (hcurrent : Current node s w) : s.frame (node w) ≠ none := by
  have hbusy : s.pc w ≠ .idle ∧ s.pc w ≠ .allocate := by
    constructor <;> intro heq <;> simp [heq, Pc.found, Pc.call] at hpc
  have hnode := ((machine_invariant h).coherent hbusy.1 hbusy.2).nodes (node w)
  rcases hcurrent with hlatched | hstamp
  · obtain ⟨f, hf, -⟩ := hnode.holds w rfl hlatched
    simp [hf]
  · rcases hnode.stamp w _ rfl hstamp with hlt | ⟨-, f, hf, -⟩
    · exact absurd hlt (Nat.lt_irrefl _)
    · simp [hf]

omit [DecidableEq F] [DecidableEq PID] in
/-- Between the return of its lookup and its own a call does not get hold of a frame again that it
has given up. -/
theorem Goes.current {s s' : PageState W C} (hs : (machine cfg o node).Reachable s) {w : W}
    (h : Goes o node s s' w) (hle : s.version (node w) ≤ s'.version (node w))
    (hpc : (s.pc w).found = true) (hpc' : (s'.pc w).found = true) (hcurrent : Current node s' w) :
    Current node s w := by
  cases h with
  | stays heq =>
    rw [Current, heq] at hcurrent
    refine hcurrent.imp id fun hstamp => ?_
    rw [hstamp, Nat.le_antisymm (stamp_le hs hstamp) hle]
  | starts hidle => simp [hidle, Pc.found, Pc.call] at hpc
  | goesOn _ _ _ hlatched => exact .inl (hlatched hpc hpc')
  | asks hpeek => simp [hpeek, Pc.found] at hpc
  | updated hupd => exact .inl (Pc.updates_latched hupd)
  | returns _ hguard => exact absurd (Pc.call_of_guard hguard) (Pc.call_of_found hpc')
  | ends hnone => exact absurd hnone (Pc.call_of_found hpc')
  | uses hnone => exact absurd hnone (Pc.call_of_found hpc)

/-- Where the lookup of a call is: when it has returned and the frame it has found is still
latched, that is the frame of the page. -/
structure Looked (node : W → NodeID) (k : Lookups PID W C F H) (p : PID) (w : W) : Prop where
  away : ∀ n, n ≠ node w → (k.table n).pc (.inl (p, w)) = .idle
  found : ((k.calls.store.page p).pc w).found = true →
    (k.table (node w)).pc (.inl (p, w)) = .idle ∨
      ∃ x g, (k.table (node w)).pc (.inl (p, w)) = .guard p x g ∧
        (Current node (k.calls.store.page p) w → (k.calls.store.slot (node w) x).pid = some p)

theorem looked_of_reachable (h : (lookups cfg owner node L).Reachable k) (p : PID) (w : W) :
    Looked node k p w := by
  refine h.invariant (P := fun k => Looked node k p w) ?_ ?_
  · intro k hk
    refine ⟨fun n _ => (hk.2 n).pc _, fun hfound => ?_⟩
    simp [(hk.1.1.1 p).pc w, Pc.found, Pc.call] at hfound
  · intro k k' hk ih st
    cases st with
    | @table n t table' hstep hcall =>
      by_cases ht : t = .inl (p, w)
      · obtain ⟨rfl, hidle⟩ := hcall p w ht
        refine ⟨fun m hm => ?_, fun hfound => .inl ?_⟩
        · simp only [Function.update_of_ne hm]
          exact ih.away m hm
        · simp only [Function.update_self]
          exact ht ▸ hidle hfound
      · have hpc : ∀ m, (Function.update k.table n table' m).pc (.inl (p, w)) =
            (k.table m).pc (.inl (p, w)) := by
          intro m
          by_cases hm : m = n
          · subst hm
            rw [Function.update_self]
            exact hstep.pc_of_ne (Ne.symm ht)
          · rw [Function.update_of_ne hm]
        exact ⟨fun m hm => (hpc m).trans (ih.away m hm), fun hfound => by
          simpa only [hpc] using ih.found hfound⟩
    | @call calls' st hends =>
      have hc := lookups_calls hk
      refine ⟨ih.away, fun hfound => ?_⟩
      have hgoes := store_goes st.store p w
      by_cases hbefore : ((k.calls.store.page p).pc w).found = true
      · refine (ih.found hbefore).imp id ?_
        rintro ⟨x, g, hpc, hslot⟩
        refine ⟨x, g, hpc, fun hcurrent => ?_⟩
        have hold := hgoes.current (calls_page hc p) (st.version_le p (node w)) hbefore hfound
          hcurrent
        exact store_pid (calls_store hc) st.store (hslot hold)
          (frame_of_current (calls_page (hc.step st) p) hfound hcurrent)
      · -- the lookup returns in this step
        have hcall : ((k.calls.store.page p).pc w).call ≠ none := by
          cases hgoes with
          | stays heq => exact absurd (heq ▸ hfound) hbefore
          | starts _ hfix => simp [hfix, Pc.found] at hfound
          | goesOn hcall => simp [hcall]
          | asks hpeek => simp [hpeek, Pc.call]
          | updated hupd => simp [Pc.updates_call hupd]
          | returns hcall => simp [hcall]
          | ends hnone | uses _ hnone => exact absurd hnone (Pc.call_of_found hfound)
        obtain ⟨x, g, hpc, hslot⟩ := hends p w ⟨hcall, by simpa using hbefore, .inl hfound⟩
        exact .inr ⟨x, g, hpc, fun _ => hslot⟩

/-- When a call returns, what its lookup has found is the frame of the guard. -/
theorem Looked.returned (hk : (lookups cfg owner node L).Reachable k)
    (st : (lookups cfg owner node L).Step k k') {p : PID} {w : W}
    (hcall : ((k.calls.store.page p).pc w).call ≠ none)
    (hguard : ((k'.calls.store.page p).pc w).guard ≠ none) :
    ((k'.table (node w)).pc (.inl (p, w)) = .idle ∨
      ∃ x g, (k'.table (node w)).pc (.inl (p, w)) = .guard p x g ∧
        (k'.calls.guard p w).map Guard.frame = some (some x)) ∧
    ∀ n, n ≠ node w → (k'.table n).pc (.inl (p, w)) = .idle := by
  have hlooked := looked_of_reachable hk p w
  refine ⟨?_, (looked_of_reachable (hk.step st) p w).away⟩
  obtain ⟨l, hl⟩ := Option.ne_none_iff_exists'.mp hguard
  cases st with
  | table => exact absurd (Pc.call_of_guard hl) hcall
  | @call calls' st hends =>
    have hc := lookups_calls hk
    have hstore := calls_store (hc.step st)
    obtain ⟨g, x, hg, hx, hpid, -⟩ := st.returned hcall hguard
    -- the page is in one frame of the node only
    have hframe : ∀ y, (calls'.store.slot (node w) y).pid = some p →
        (calls'.guard p w).map Guard.frame = some (some y) := by
      intro y hy
      rw [hg, Option.map_some, hx, (store_mirrors hstore (node w)).unique x y p hpid hy]
    obtain ⟨t, ht⟩ := Option.ne_none_iff_exists'.mp hcall
    by_cases hbefore : ((k.calls.store.page p).pc w).found = true
    · refine (hlooked.found hbefore).imp id ?_
      rintro ⟨y, g, hpc, hslot⟩
      have hin : (calls'.store.page p).frame (node w) ≠ none := by
        obtain ⟨f, hf, -⟩ := (store_mirrors hstore (node w)).linked x p hpid
        simp [hf]
      have hcurrent := ((store_goes st.store p w).returned ht hl).2.2 hbefore
      exact ⟨y, g, hpc, hframe y (store_pid (calls_store hc) st.store (hslot hcurrent) hin)⟩
    · obtain ⟨y, g, hpc, hslot⟩ := hends p w ⟨hcall, by simpa using hbefore, .inr hguard⟩
      exact .inr ⟨y, g, hpc, hframe y hslot⟩

/-- When a call of `fix` returns, by whatever way and after whatever the others have done, it has
returned a guard with the postcondition, at the version that the latch then has; and it keeps the
postcondition for as long as it is in use.  The lookup of the call has given all its latches back
but that of the guard's frame: buckets that are latched are latched by others. -/
theorem fix_postcondition (h : (calls F cfg owner node).Reachable c)
    (hk : (lookups cfg owner node L).Reachable k) (p : PID) (w : W) :
    (∀ c', (calls F cfg owner node).Step c c' → Returns p w c c' →
      ∃ g x, c'.guard p w = some g ∧ g.frame = some x ∧
        g.vAcquired = c'.version (node w) x ∧ Postcondition node c' p w g) ∧
    (∀ g, c.guard p w = some g → Postcondition node c p w g) ∧
    (∀ n t q x g, (k.table n).pc t = .guard q x g → PageTable.OnlyGuard (L n) (k.table n) t q) ∧
    ∀ k', (lookups cfg owner node L).Step k k' → Returns p w k.calls k'.calls →
      (∀ n, PageTable.OnlyGuard (L n) (k'.table n) (.inl (p, w)) p) ∧
      ∀ n x g, (k'.table n).pc (.inl (p, w)) = .guard p x g →
        n = node w ∧ (k'.calls.guard p w).map Guard.frame = some (some x) := by
  refine ⟨?_, ?_, ?_, ?_⟩
  · rintro c' st ⟨hcall, hguard⟩
    obtain ⟨g, x, hg, hx, -, hversion⟩ := st.returned hcall hguard
    exact ⟨g, x, hg, hx, hversion, (returned_of_reachable (h.step st) p w g hg).postcondition
      (h.step st)⟩
  · intro g hg
    exact (returned_of_reachable h p w g hg).postcondition h
  · intro n t q x g hpc
    exact PageTable.onlyGuard (lookups_table hk n) (.inr ⟨x, g, hpc⟩)
  · rintro k' st ⟨hcall, hguard⟩
    have hlookup := Looked.returned hk st hcall hguard
    refine ⟨fun n => PageTable.onlyGuard (lookups_table (hk.step st) n) ?_, ?_⟩
    · by_cases hn : n = node w
      · subst hn
        exact hlookup.1.imp id fun ⟨x, g, hpc, _⟩ => ⟨x, g, hpc⟩
      · exact .inl (hlookup.2 n hn)
    · intro n x g hpc
      by_cases hn : n = node w
      · subst hn
        refine ⟨rfl, ?_⟩
        rcases hlookup.1 with hidle | ⟨x', g', hpc', hslot⟩
        · cases hpc.symm.trans hidle
        · obtain rfl : x = x' := by
            cases hpc.symm.trans hpc'
            rfl
          exact hslot
      · cases hpc.symm.trans (hlookup.2 n hn)

end Lookups

/-! Every run of the store is one with guards. -/

theorem guardStep_exists {σ σ' : Store PID W C F} (h : (store F cfg owner node).Reachable σ)
    (st : (store F cfg owner node).Step σ σ') (version : F → Nat) (p : PID) (w : W)
    (g : Option (Guard F)) : ∃ g', GuardStep p (σ'.slot (node w)) version
      ((σ'.page p).version (node w)) ((σ.page p).pc w) ((σ'.page p).pc w) g g' := by
  by_cases hkeep : ((σ.page p).pc w).Keeps ((σ'.page p).pc w)
  · exact ⟨g, .kept hkeep⟩
  by_cases hcall : ((σ.page p).pc w).call = none
  · exact ⟨none, .dropped (.inl hcall) hkeep⟩
  by_cases hguard : ((σ'.page p).pc w).guard = none
  · exact ⟨none, .dropped (.inr hguard) hkeep⟩
  obtain ⟨l, hl⟩ := Option.ne_none_iff_exists'.mp hguard
  obtain ⟨t, ht⟩ := Option.ne_none_iff_exists'.mp hcall
  have hcurrent := ((store_goes st p w).returned ht hl).2.1
  obtain ⟨f, hf, -⟩ := guard_hot (world_page (store_world (h.step st)) p) hl fun hopt => by
    obtain ⟨v, hv⟩ := Pc.stamp_of_guard hl (by simp [hopt])
    rw [hv, hcurrent v hv]
  obtain ⟨x, hx⟩ := store_slot (h.step st) (node w) p (by simp [hf])
  exact ⟨_, .returned hcall hl hx (congrArg _ (Pc.stamp_getD hcurrent).symm)⟩

theorem calls_step (hc : (calls F cfg owner node).Reachable c) {σ : Store PID W C F}
    (st : (store F cfg owner node).Step c.store σ) :
    ∃ c', (calls F cfg owner node).Step c c' ∧ c'.store = σ := by
  choose guard hguard using fun p w => guardStep_exists (calls_store hc) st
    (fun x => c.version (node w) x + c.store.moved σ (node w) x) p w (c.guard p w)
  exact ⟨⟨σ, fun n x => c.version n x + c.store.moved σ n x,
    fun p w => ((c.store.page p).pc w).started ((σ.page p).pc w) (c.functor p w), guard⟩,
    ⟨st, fun _ _ => rfl, fun _ _ => rfl, hguard⟩, rfl⟩

theorem calls_init {σ : Store PID W C F} (h : (store F cfg owner node).Init σ) :
    (calls F cfg owner node).Init
      ⟨σ, fun _ _ => 0b100, fun _ _ => .shared, fun _ _ => none⟩ :=
  ⟨h, fun _ _ => rfl, fun _ _ => rfl⟩

theorem calls_of_store {σ : Store PID W C F} (h : (store F cfg owner node).Reachable σ) :
    ∃ c, (calls F cfg owner node).Reachable c ∧ c.store = σ := by
  induction h with
  | init h => exact ⟨_, .init (calls_init h), rfl⟩
  | step _ st ih =>
    obtain ⟨c, hc, rfl⟩ := ih
    obtain ⟨c', st', rfl⟩ := calls_step hc st
    exact ⟨c', hc.step st', rfl⟩

section Lookups

variable {H : Type} [DecidableEq H] {L : NodeID → PageTable.Layout PID F}
  {k : Lookups PID W C F H}

/-- With a step of the store in which no lookup returns that has not found its page. -/
theorem lookups_step (hk : (lookups cfg owner node L).Reachable k) {σ : Store PID W C F}
    (st : (store F cfg owner node).Step k.calls.store σ)
    (hends : ∀ p w, ((k.calls.store.page p).pc w).EndsLookup ((σ.page p).pc w) →
      ∃ x g, (k.table (node w)).pc (.inl (p, w)) = .guard p x g ∧
        (σ.slot (node w) x).pid = some p) :
    ∃ c', (calls F cfg owner node).Step k.calls c' ∧
      (lookups cfg owner node L).Step k { k with calls := c' } ∧ c'.store = σ := by
  obtain ⟨c', hstep, rfl⟩ := calls_step (lookups_calls hk) st
  exact ⟨c', hstep, .call hstep hends, rfl⟩

/-- With the steps of one lookup. -/
theorem lookups_run (hk : (lookups cfg owner node L).Reachable k) {p : PID} {w : W}
    (hfound : ((k.calls.store.page p).pc w).found = false)
    {s : PageTable.State PID F (PID × W ⊕ H)}
    (hrun : Relation.ReflTransGen (PageTable.Step (L (node w)) (.inl (p, w)))
      (k.table (node w)) s) :
    (lookups cfg owner node L).Reachable
      { k with table := Function.update k.table (node w) s } := by
  induction hrun with
  | refl =>
    rw [Function.update_eq_self]
    exact hk
  | tail _ hstep ih =>
    have hnext := ih.step (LookupStep.table (n := node w) (by simpa using hstep) ?_)
    · simpa using hnext
    · rintro p' w' heq
      cases heq
      exact ⟨rfl, fun h => absurd h (by simp [hfound])⟩

end Lookups

end Calls

/-! ## A call on the owner -/

/-- One page, and one frame on its owner. -/
def oneFrame (s : PageState Unit Nat) (b : BufferFrame Unit Unit Nat) :
    Store Unit Unit Nat Unit where
  page _ := s
  slot n _ := if n = 0 then b else .initial

theorem oneFrame_step {s s' : PageState Unit Nat} {b b' : BufferFrame Unit Unit Nat}
    (st : Step ⟨true, true, true⟩ 0 (fun _ => 0) s s')
    (hslot : SlotStep () (s.frame 0) (s'.frame 0) (fun _ : Unit => b)
      (Function.update (fun _ => b) () b'))
    (hnone : ∀ n, n ≠ 0 → s.frame n = none ∧ s'.frame n = none) :
    (store Unit ⟨true, true, true⟩ (fun _ => 0) fun _ => 0).Step (oneFrame s b)
      (oneFrame s' b') := by
  refine ⟨(), s', .step st, ?_, fun n => ?_⟩
  · funext x
    simp [oneFrame]
  · by_cases hn : n = 0
    · subst hn
      have hb : Function.update (fun _ : Unit => b) () b' = fun _ => b' := by
        funext x
        simp
      rw [hb] at hslot
      exact hslot
    · have hslots : ∀ (s : PageState Unit Nat) b, (oneFrame s b).slot n = fun _ => .initial := by
        intro s b
        funext x
        simp [oneFrame, hn]
      rw [hslots, hslots]
      exact .absent (hnone n hn).1 (hnone n hn).2

theorem oneFrame_init : (store Unit ⟨true, true, true⟩ (fun _ => 0) fun _ => 0).Init
    (oneFrame (PageState.start 0 true) .initial) := by
  refine ⟨fun _ => PageState.start_init 0 true, fun n x => ?_⟩
  have hslot : (oneFrame (PageState.start 0 true) .initial).slot n x = .initial := by
    simp [oneFrame]
  rw [hslot]
  exact ⟨⟨rfl, rfl, rfl, rfl, rfl, rfl, rfl, rfl⟩, rfl, rfl⟩

/-- The owner's worker has read its page from the SSD for an exclusive access. -/
def ssdRead : PageState Unit Nat :=
  let called := (PageState.start 0 true).setPc () (.fix .exclusive)
  let frame := Frame.fresh (.worker ()) .ioSsd 9
  let inserted := (called.setFrame 0 (some frame) 2).setPc () (.load .exclusive)
  (inserted.setFrame 0 (some { frame with page := some 0 }) 0).setPc ()
    (.complete .ssd .exclusive 0)

/-- A table of one bucket, and its node's frame is free. -/
def oneBucket : PageTable.Layout Unit Unit := ⟨fun _ => (), fun _ => true, fun _ => rfl⟩

def emptyTable : PageTable.State Unit Unit (Unit × Unit ⊕ Unit) where
  pid _ := none
  next _ := none
  free _ := true
  version _ := 0b100
  holder _ := none
  readers _ := ∅
  frameFreeList := []
  pc _ := .idle

theorem emptyTable_init : PageTable.Init oneBucket emptyTable := by
  have hversion : PageTable.isLatched 0b100 = false := by decide
  exact ⟨fun _ => ⟨rfl, rfl, rfl⟩, fun _ => hversion, fun _ => ⟨rfl, rfl⟩,
    ⟨List.nodup_nil, nofun⟩, fun _ => rfl⟩

/-- The lookup does not find the page and inserts a frame for it. -/
theorem lookup_inserts : ∃ s, Relation.ReflTransGen
    (PageTable.Step oneBucket (.inl ((), ()))) emptyTable s ∧
      s.pc (.inl ((), ())) = .guard () () .exclusive := by
  have hwalk := Relation.ReflTransGen.single
    (PageTable.Step.start (L := oneBucket) (t := .inl ((), ())) (s := emptyTable)
      ⟨(), true, true⟩ rfl nofun)
  have hwalk := (hwalk.tail (.readVersion rfl rfl)).tail (.testMore rfl nofun)
  have hwalk := (hwalk.tail (.copy rfl)).tail (.checkOk rfl rfl)
  have hwalk := (hwalk.tail (.compareNe rfl nofun)).tail (.advanceOk rfl rfl)
  have hwalk := (hwalk.tail (.testEnd rfl rfl)).tail (.absentOk rfl rfl rfl)
  have hinsert := (hwalk.tail (.upgradeOk rfl rfl)).tail (.decideInline rfl rfl)
  have hinsert := hinsert.tail (.latchFrame rfl ⟨rfl, rfl⟩)
  have hinsert := ((hinsert.tail (.fillState rfl)).tail (.fillPid rfl)).tail (.filled rfl)
  exact ⟨_, hinsert, rfl⟩

/-- Its worker's lookup has returned the frame. -/
theorem ssdRead_reachable : ∃ (k : Lookups Unit Unit Nat Unit Unit) (b : BufferFrame Unit Unit Nat),
    (lookups ⟨true, true, true⟩ (fun _ => 0) (fun _ => 0) fun _ => oneBucket).Reachable k ∧
      k.calls.store = oneFrame ssdRead b ∧ b.pid = some () ∧
      (k.table 0).pc (.inl ((), ())) = .guard () () .exclusive := by
  have hstart : (store Unit ⟨true, true, true⟩ (fun _ => 0) fun _ => 0).Step
      (oneFrame (PageState.start 0 true) .initial)
      (oneFrame ((PageState.start 0 true).setPc () (.fix .exclusive)) .initial) := by
    refine oneFrame_step (.worker (.start rfl rfl)) ?_ fun n hn => ⟨rfl, rfl⟩
    rw [Function.update_eq_self]
    exact .absent rfl rfl
  have hinit : (lookups ⟨true, true, true⟩ (fun _ => 0) (fun _ => 0) fun _ => oneBucket).Reachable
      (⟨⟨oneFrame (PageState.start 0 true) .initial, fun _ _ => 0b100, fun _ _ => .shared,
        fun _ _ => none⟩, fun _ => emptyTable⟩ : Lookups Unit Unit Nat Unit Unit) :=
    .init ⟨calls_init oneFrame_init, fun _ => emptyTable_init⟩
  obtain ⟨c₁, -, hcall, hc₁⟩ := lookups_step hinit hstart
    fun _ _ hends => absurd rfl hends.1
  obtain ⟨s, hrun, hs⟩ := lookup_inserts
  have hlooked := lookups_run (p := ()) (w := ()) (hinit.step hcall)
    (by rw [hc₁]; rfl) hrun
  obtain ⟨c₂, -, hinsert, hc₂⟩ := lookups_step hlooked
    (hc₁ ▸ oneFrame_step (.worker (.insert (w := ()) 9 rfl rfl))
      (.insert rfl rfl (.fetch (.worker ()) .ioSsd 9) rfl)
      fun n hn => ⟨rfl, by simp [hn, PageState.start]⟩)
    fun _ _ _ => ⟨(), .exclusive, hs, rfl⟩
  obtain ⟨c₃, -, hload, hc₃⟩ := lookups_step (hlooked.step hinsert)
    (hc₂ ▸ oneFrame_step (.worker (.load (w := ()) rfl rfl)) (.update rfl rfl)
      fun n hn => ⟨by simp [hn, PageState.start], by simp [hn, PageState.start]⟩)
    fun _ _ hends => absurd hends.2.1 (by rw [hc₂]; exact Bool.noConfusion)
  exact ⟨_, _, (hlooked.step hinsert).step hload, hc₃, rfl, hs⟩

/-- It returns with its exclusive guard. -/
theorem fix_postcondition_ssdRead : ∃ (k : Lookups Unit Unit Nat Unit Unit) (g : Guard Unit),
    k.calls.guard () () = some g ∧ g.latchState = .exclusive ∧
      Postcondition (fun _ => 0) k.calls () () g ∧
      PageTable.OnlyGuard oneBucket (k.table 0) (.inl ((), ())) () := by
  obtain ⟨k, b, hk, hstore, hpid, -⟩ := ssdRead_reachable
  have hreturn := oneFrame_step (s := ssdRead) (b := b)
    (.worker (.completeExclusive (w := ()) rfl rfl (Frame.complete_eq ..)))
    (.update hpid rfl) fun n hn => ⟨by simp [ssdRead, hn, PageState.start],
      by simp [ssdRead, hn, PageState.start]⟩
  obtain ⟨c', hcall, st, hc'⟩ := lookups_step hk (hstore ▸ hreturn)
    fun _ _ hends => absurd hends.2.1 (by rw [hstore]; exact Bool.noConfusion)
  have hreturns : Returns () () k.calls c' :=
    ⟨by rw [hstore]; simp [oneFrame, ssdRead, Pc.call], by rw [hc']; simp [oneFrame, Pc.guard]⟩
  have hpost := fix_postcondition (lookups_calls hk) hk () ()
  obtain ⟨g, x, hg, -, -, hguard⟩ := hpost.1 c' hcall hreturns
  refine ⟨{ k with calls := c' }, g, hg, ?_, hguard, (hpost.2.2.2 _ st hreturns).1 0⟩
  have hreturned := (returned_of_reachable (lookups_calls (hk.step st)) () () g hg).guard
  rw [hc'] at hreturned
  simpa [oneFrame, Pc.guard, eq_comm] using hreturned

end ScaleStore.Protocol
