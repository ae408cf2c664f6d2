/-
# The flag that is set without the latch

A message handler that does not get the latch of a frame sets `mhWaiting` in it after
the lookup, when nothing keeps the frame in the table any more.  What the machine does
with such a request in one step is here a round of steps, one for each access to the
frame; the frames are the slots of the arrays, which another page may have got in between.

A flag stays behind where a handler goes on with a frame that has lost its PID.  While
that does not happen, whoever finds the flag set finds a request of a worker for it.
-/

import ScaleStore.Protocol.CircularWait
import ScaleStore.Protocol.Slots

namespace ScaleStore.Protocol

variable {PID W C F : Type}

/-! ## Rounds -/

/-- How far the message handler is with a request for which it did not get the latch of the
frame `x`. -/
inductive Round (F : Type) where
  | none
  /-- `findFrame` has returned RETRY. -/
  | retry (x : F)
  /-- PUR: the frame has the version of the request. -/
  | agrees (x : F)
  /-- PUR: UpdateFailed has been written, and the flag is to be cleared. -/
  | failed (x : F)
deriving DecidableEq, Repr

/-- The store, and the rounds with the requests of each worker at each node, for each page. -/
structure Rounds (PID W C F : Type) extends Store PID W C F where
  round : PID → W → NodeID → Round F

/-- `mhWaiting` is written in the frame of `n`. -/
def PageState.flag (s : PageState W C) (n : NodeID) (b : Bool) : PageState W C :=
  s.setFrame n ((s.frame n).map fun f => { f with mhWaiting := b }) 0

variable [DecidableEq PID] [DecidableEq F]

/-- `mhWaiting` is written in the slot `x` of `n`, whatever page has the slot. -/
def Store.flag (σ : Store PID W C F) (n : NodeID) (x : F) (b : Bool) : Store PID W C F where
  page p := if (σ.slot n x).pid = some p then (σ.page p).flag n b else σ.page p
  slot := Function.update σ.slot n
    (Function.update (σ.slot n) x { σ.slot n x with mhWaiting := b })

variable [DecidableEq W]

namespace Rounds

variable (a : Rounds PID W C F)

def setRound (p : PID) (w : W) (n : NodeID) (r : Round F) : Rounds PID W C F :=
  { a with
    round := Function.update a.round p
      (Function.update (a.round p) w (Function.update (a.round p w) n r)) }

def flag (n : NodeID) (x : F) (b : Bool) : Rounds PID W C F :=
  { a with toStore := a.toStore.flag n x b }

/-- The PUR of `w` is answered with UpdateFailed. -/
def refuse (p : PID) (w : W) (t : Access) (old : Nat) : Rounds PID W C F :=
  { a with page := Function.update a.page p ((a.page p).setPc w (.updated t old .failed)) }

/-- A request in the hands of a handler is answered by nobody else: `σ` is the store afterwards. -/
def Undisturbed (owner : PID → NodeID) (σ : Store PID W C F) : Prop :=
  ∀ p w n, a.round p w n ≠ .none → ((a.page p).pc w).asks (owner p) n = true →
    ((σ.page p).pc w).asks (owner p) n = true

end Rounds

/-- Steps of the store and of the rounds. -/
inductive RoundStep (cfg : Config) (owner : PID → NodeID) (node : W → NodeID)
    (a : Rounds PID W C F) : Rounds PID W C F → Prop where
  /-- Everything else, and rounds that nothing comes between. -/
  | store {σ : Store PID W C F} : (store F cfg owner node).Step a.toStore σ →
    a.Undisturbed owner σ → RoundStep cfg owner node a { a with toStore := σ }
  /-- An insertion does not touch a flag that it finds in a `FREE` frame. -/
  | insert {σ : Store PID W C F} {n x} : (a.slot n x).state = .free →
    (a.slot n x).mhWaiting = true → (store F cfg owner node).Step (a.toStore.flag n x false) σ →
    a.Undisturbed owner σ → (σ.slot n x).state ≠ .free →
    RoundStep cfg owner node a { a with toStore := σ.flag n x true }
  /-- `findFrame` finds the frame, and does not get the latch. -/
  | retry {p w n x} : a.round p w n = .none → ((a.page p).pc w).asks (owner p) n = true →
    (a.slot n x).pid = some p → RoundStep cfg owner node a (a.setRound p w n (.retry x))
  /-- PMR without page: the flag is set, and the mailbox armed again. -/
  | wait {p w n x} : a.round p w n = .retry x → ((a.page p).pc w).wants n = true →
    RoundStep cfg owner node a ((a.flag n x true).setRound p w n .none)
  | agree {p w t old x} : a.round p w (owner p) = .retry x → (a.page p).pc w = .update t old →
    (a.slot (owner p) x).pVersion = old →
    RoundStep cfg owner node a (a.setRound p w (owner p) (.agrees x))
  /-- PUR: the flag is set, and the mailbox armed again. -/
  | waitUpdate {p w t old x} : a.round p w (owner p) = .agrees x →
    (a.page p).pc w = .update t old →
    RoundStep cfg owner node a ((a.flag (owner p) x true).setRound p w (owner p) .none)
  /-- PUR: the version has moved on. -/
  | fail {p w t old x} : a.round p w (owner p) = .retry x → (a.page p).pc w = .update t old →
    old < (a.slot (owner p) x).pVersion →
    RoundStep cfg owner node a ((a.refuse p w t old).setRound p w (owner p) (.failed x))
  | clear {p w n x} : a.round p w n = .failed x →
    RoundStep cfg owner node a ((a.flag n x false).setRound p w n .none)

/-- The store with the handlers' rounds; before anything has happened, there are none. -/
def rounds (F : Type) [DecidableEq F] (cfg : Config) (owner : PID → NodeID) (node : W → NodeID) :
    System (Rounds PID W C F) where
  Init a := (store F cfg owner node).Init a.toStore ∧ ∀ p w n, a.round p w n = .none
  Step := RoundStep cfg owner node

/-- A handler goes on with a frame that has lost the PID since the lookup. -/
def GoesAstray (a a' : Rounds PID W C F) : Prop :=
  ∃ p w n x, (a.round p w n = .retry x ∨ a.round p w n = .agrees x) ∧
    a'.round p w n ≠ a.round p w n ∧ (a.slot n x).pid ≠ some p

/-- Every frame that is flagged carries a PID, and a PMR or PUR for that page is with the node:
it has not been answered, or the handler is not through with it. -/
def Attended (owner : PID → NodeID) (a : Rounds PID W C F) : Prop :=
  ∀ n x, (a.slot n x).mhWaiting = true → ∃ p, (a.slot n x).pid = some p ∧
    ∃ w, ((a.page p).pc w).asks (owner p) n = true ∨ a.round p w n ≠ .none

/-! ## Slots and flags -/

omit [DecidableEq PID] [DecidableEq F] [DecidableEq W] in
theorem BufferFrame.mhWaiting_of_view {b : BufferFrame PID W C} {f : Frame W C}
    (h : b.view = some f) : f.mhWaiting = b.mhWaiting := by
  unfold view at h
  split at h
  · cases h
  · exact Option.some.inj h ▸ rfl

omit [DecidableEq PID] [DecidableEq F] [DecidableEq W] in
/-- The flag of the slot is the flag of the frame. -/
theorem BufferFrame.store_flag {b : BufferFrame PID W C} {f : Frame W C} (h : b.view = some f)
    (m : Bool) : b.store { f with mhWaiting := m } = { b with mhWaiting := m } := by
  unfold view at h
  split at h
  · cases h
  · next st hst =>
    obtain rfl := Option.some.inj h
    simp [store, hst]

section SlotSteps

variable {p q : PID} {before after : Option (Frame W C)} {slots slots' : F → BufferFrame PID W C}
  {y : F}

omit [DecidableEq PID] [DecidableEq W] in
/-- The frames of other pages stay as they are. -/
theorem SlotStep.other (st : SlotStep p before after slots slots')
    (hy : (slots' y).pid = some q) (hq : q ≠ p) : slots' y = slots y := by
  have apart : ∀ {x b}, b.pid = some p ∨ b.pid = none →
      (Function.update slots x b y).pid = some q → Function.update slots x b y = slots y := by
    intro x b hb h
    by_cases hyx : y = x
    · subst hyx
      rw [Function.update_self] at h
      rcases hb with hb | hb
      · exact absurd (Option.some.inj (h.symm.trans hb)) hq
      · cases h.symm.trans hb
    · rw [Function.update_of_ne hyx]
  cases st with
  | absent => rfl
  | update hx => exact apart (.inl hx) hy
  | insert _ _ hins => exact apart (.inl (BufferFrame.used_of_inserted hins).1) hy
  | remove => exact apart (.inr rfl) hy

omit [DecidableEq PID] [DecidableEq W] in
/-- A frame that stays in the table stays where it is. -/
theorem SlotStep.stays (st : SlotStep p before after slots slots') (hb : before ≠ none)
    (ha : after ≠ none) (y : F) : (slots' y).pid = (slots y).pid := by
  cases st with
  | absent => rfl
  | @update x f =>
    by_cases hyx : y = x
    · subst hyx
      rw [Function.update_self]
      rfl
    · rw [Function.update_of_ne hyx]
  | insert h => exact absurd h hb
  | remove _ h => exact absurd h ha

end SlotSteps

/-! ## Flags that are asked for -/

/-- What holds of the flags. -/
structure Flagged (owner : PID → NodeID) (node : W → NodeID) (a : Rounds PID W C F) : Prop where
  mirrors : ∀ n, Mirrors (fun p => (a.page p).frame n) (a.slot n)
  elsewhere : ∀ p w, ((a.page p).pc w).Elsewhere (node w)
  flagged : ∀ n x p, (a.slot n x).pid = some p → (a.slot n x).mhWaiting = true →
    (∃ w, ((a.page p).pc w).asks (owner p) n = true) ∨ ∃ w, a.round p w n = .failed x

section Flags

variable {cfg : Config} {owner : PID → NodeID} {node : W → NodeID} {a a' : Rounds PID W C F}
  {σ : Store PID W C F} {n : NodeID} {x : F} {p : PID}

omit [DecidableEq W] [DecidableEq F] in
theorem aside_of_elsewhere {s : PageState W C} (h : ∀ w, (s.pc w).Elsewhere (node w)) :
    Aside node s := by
  rintro w n f hw - - rfl
  have := h w
  cases hpc : s.pc w with
  | invalidate =>
    rw [hpc] at this hw
    simp [Pc.wants, show _ = false from this] at hw
  | _ => simp [hpc, Pc.wants] at hw

omit [DecidableEq F] in
theorem Rounds.round_setRound (w w' : W) (q : PID) (m : NodeID) (r : Round F) :
    (a.setRound p w n r).round q w' m =
      if q = p ∧ w' = w ∧ m = n then r else a.round q w' m := by
  unfold setRound
  by_cases hq : q = p
  · subst hq
    by_cases hw : w' = w
    · subst hw
      by_cases hm : m = n <;> simp [hm]
    · simp [hw]
  · simp [hq]

omit [DecidableEq F] in
/-- Another round stays as it is. -/
theorem Rounds.setRound_of_ne {w w' : W} {q : PID} {m : NodeID} {r r' : Round F}
    (h : a.round q w' m = r') (hne : a.round p w n ≠ r') :
    (a.setRound p w n r).round q w' m = r' := by
  rw [round_setRound, if_neg]
  · exact h
  · rintro ⟨rfl, rfl, rfl⟩
    exact hne h

omit [DecidableEq W] in
theorem Store.flag_pc (b : Bool) (q : PID) : ((σ.flag n x b).page q).pc = (σ.page q).pc := by
  unfold flag
  dsimp only
  split <;> rfl

omit [DecidableEq W] in
theorem Store.flag_slot_of_ne {b : Bool} {m : NodeID} {y : F} (h : ¬ (m = n ∧ y = x)) :
    (σ.flag n x b).slot m y = σ.slot m y := by
  unfold flag
  by_cases hm : m = n
  · subst hm
    have hy : y ≠ x := fun hy => h ⟨rfl, hy⟩
    simp [hy]
  · simp [hm]

omit [DecidableEq W] in
theorem Store.flag_slot (b : Bool) :
    (σ.flag n x b).slot n x = { σ.slot n x with mhWaiting := b } := by
  simp [flag]

omit [DecidableEq W] in
/-- The flag may be set in a frame with a PID, and cleared in any. -/
theorem Store.flag_mirrors (h : ∀ n, Mirrors (fun p => (σ.page p).frame n) (σ.slot n)) {b : Bool}
    (hx : (∃ p, (σ.slot n x).pid = some p) ∨ b = false) (m : NodeID) :
    Mirrors (fun p => ((σ.flag n x b).page p).frame m) ((σ.flag n x b).slot m) := by
  by_cases hm : m = n
  case neg =>
    have hframes : (fun p => ((σ.flag n x b).page p).frame m) = fun p => (σ.page p).frame m := by
      funext p
      unfold flag
      dsimp only
      split
      · simp [PageState.flag, hm]
      · rfl
    have hslots : (σ.flag n x b).slot m = σ.slot m := by
      simp [flag, hm]
    rw [hframes, hslots]
    exact h m
  subst hm
  have hslots : (σ.flag m x b).slot m =
      Function.update (σ.slot m) x { σ.slot m x with mhWaiting := b } := by
    simp [flag]
  rw [hslots]
  rcases hpid : (σ.slot m x).pid with _ | q
  · -- nothing is written in a frame that is not in use
    have hb : b = false := by simpa [hpid] using hx
    have hsame : ({ σ.slot m x with mhWaiting := b } : BufferFrame PID W C) = σ.slot m x := by
      rw [hb, ← ((h m).blank x hpid).mhWaiting]
    rw [hsame, Function.update_eq_self]
    simpa [flag, hpid] using h m
  · obtain ⟨f, hf, hview⟩ := (h m).linked x q hpid
    have hframes : (fun p => ((σ.flag m x b).page p).frame m) =
        Function.update (fun p => (σ.page p).frame m) q (some { f with mhWaiting := b }) := by
      funext p
      by_cases hp : p = q
      · subst hp
        have hf' : (σ.page p).frame m = some f := hf
        simp [flag, hpid, PageState.flag, hf']
      · have hp' : q ≠ p := Ne.symm hp
        simp [flag, hpid, hp, hp']
    rw [hframes, ← BufferFrame.store_flag hview]
    exact (h m).step (.update hpid rfl)

/-- A step of the store keeps the flags that are asked for, and the rounds. -/
theorem Flagged.store (h : Flagged owner node a) (st : (store F cfg owner node).Step a.toStore σ) :
    Flagged owner node { a with toStore := σ } := by
  have hmirrors : ∀ n, Mirrors (fun q => (σ.page q).frame n) (σ.slot n) :=
    fun n => store_step_mirrors st (h.mirrors n)
  obtain ⟨p, s', hst, hpage, hslots⟩ := st
  refine ⟨hmirrors, ?_, ?_⟩
  · intro q
    by_cases hq : q = p
    · subst hq
      have hs' : σ.page q = s' := by simp [hpage]
      rw [hs']
      exact hst.page.elsewhere (h.elsewhere q)
    · have hsame : σ.page q = a.page q := by simp [hpage, hq]
      rw [hsame]
      exact h.elsewhere q
  · intro n y q hy hm
    by_cases hq : q = p
    · subst hq
      have hs' : σ.page q = s' := by simp [hpage]
      obtain ⟨f', hf', hview'⟩ := (hmirrors n).linked y q hy
      have hf'' : s'.frame n = some f' := hs' ▸ hf'
      have hkeeps := hst.page.keepsFlags (aside_of_elsewhere (h.elsewhere q))
      show (∃ w, ((σ.page q).pc w).asks (owner q) n = true) ∨ _
      rw [hs']
      rcases hkeeps n f' hf'' ((BufferFrame.mhWaiting_of_view hview').trans hm) with
        hasks | ⟨f, hf, hmf, hpc⟩
      · exact .inl hasks
      · -- the frame has been flagged before, in the same slot
        have hold : (a.slot n y).pid = some q :=
          ((hslots n).stays (by simp [hf]) (by simp [hf'']) y).symm.trans hy
        obtain ⟨f₁, hf₁, hview⟩ := (h.mirrors n).linked y q hold
        obtain rfl := Option.some.inj (hf.symm.trans hf₁)
        rcases h.flagged n y q hold ((BufferFrame.mhWaiting_of_view hview).symm.trans hmf) with
          ⟨w, hw⟩ | hw
        · exact .inl ⟨w, hpc w hw⟩
        · exact .inr hw
    · have hsame : σ.page q = a.page q := by simp [hpage, hq]
      have hslot := (hslots n).other hy hq
      have hy' : (a.slot n y).pid = some q := hslot ▸ hy
      have hm' : (a.slot n y).mhWaiting = true := hslot ▸ hm
      rcases h.flagged n y q hy' hm' with ⟨w, hw⟩ | hw
      · exact .inl ⟨w, by rw [hsame]; exact hw⟩
      · exact .inr hw

omit [DecidableEq F] in
/-- A round goes on without touching the flags. -/
theorem Flagged.setRound (h : Flagged owner node a) {w : W} {r : Round F}
    (hr : ∀ y, a.round p w n ≠ .failed y) : Flagged owner node (a.setRound p w n r) := by
  refine ⟨h.mirrors, h.elsewhere, fun m y q hy hm => ?_⟩
  rcases h.flagged m y q hy hm with hw | ⟨w', hw'⟩
  · exact .inl hw
  · exact .inr ⟨w', a.setRound_of_ne hw' (hr y)⟩

/-- The flag is set in the frame of a page for which the handler has a request. -/
theorem Flagged.wait (h : Flagged owner node a) {w : W}
    (hr : a.round p w n = .retry x ∨ a.round p w n = .agrees x)
    (hasks : ((a.page p).pc w).asks (owner p) n = true) (hx : (a.slot n x).pid = some p) :
    Flagged owner node ((a.flag n x true).setRound p w n .none) := by
  refine ⟨a.toStore.flag_mirrors h.mirrors (.inl ⟨p, hx⟩), fun q w' => ?_, fun m y q hy hm => ?_⟩
  · show ((((a.toStore.flag n x true).page q).pc w').Elsewhere _)
    rw [Store.flag_pc]
    exact h.elsewhere q w'
  · show (∃ w, (((a.toStore.flag n x true).page q).pc w).asks (owner q) m = true) ∨ _
    rw [Store.flag_pc]
    by_cases hmy : m = n ∧ y = x
    · obtain ⟨rfl, rfl⟩ := hmy
      have hpid : ((a.toStore.flag m y true).slot m y).pid = some q := hy
      rw [Store.flag_slot] at hpid
      obtain rfl := Option.some.inj (hx.symm.trans hpid)
      exact .inl ⟨w, hasks⟩
    · have hslot : (a.toStore.flag n x true).slot m y = a.slot m y := Store.flag_slot_of_ne hmy
      rcases h.flagged m y q (hslot ▸ hy) (hslot ▸ hm) with hw | ⟨w', hw'⟩
      · exact .inl hw
      · refine .inr ⟨w', (a.flag n x true).setRound_of_ne hw' ?_⟩
        show a.round p w n ≠ _
        rcases hr with hr | hr <;> simp [hr]

theorem Flagged.clear (h : Flagged owner node a) {w : W} (hr : a.round p w n = .failed x) :
    Flagged owner node ((a.flag n x false).setRound p w n .none) := by
  refine ⟨a.toStore.flag_mirrors h.mirrors (.inr rfl), fun q w' => ?_, fun m y q hy hm => ?_⟩
  · show ((((a.toStore.flag n x false).page q).pc w').Elsewhere _)
    rw [Store.flag_pc]
    exact h.elsewhere q w'
  · show (∃ w, (((a.toStore.flag n x false).page q).pc w).asks (owner q) m = true) ∨ _
    rw [Store.flag_pc]
    have hmy : ¬ (m = n ∧ y = x) := by
      rintro ⟨rfl, rfl⟩
      have hflag : ((a.toStore.flag m y false).slot m y).mhWaiting = true := hm
      simp [Store.flag_slot] at hflag
    have hslot : (a.toStore.flag n x false).slot m y = a.slot m y := Store.flag_slot_of_ne hmy
    rcases h.flagged m y q (hslot ▸ hy) (hslot ▸ hm) with hw | ⟨w', hw'⟩
    · exact .inl hw
    · refine .inr ⟨w', ?_⟩
      rw [Rounds.round_setRound, if_neg]
      · exact hw'
      · -- this round is about another frame
        rintro ⟨rfl, rfl, rfl⟩
        rw [hr] at hw'
        exact hmy ⟨rfl, (Round.failed.inj hw').symm⟩

omit [DecidableEq F] in
theorem Rounds.refuse_frame (w : W) (t : Access) (old : Nat) (q : PID) (m : NodeID) :
    ((a.refuse p w t old).page q).frame m = (a.page q).frame m := by
  by_cases hq : q = p
  · subst hq
    simp [refuse]
  · simp [refuse, hq]

omit [DecidableEq F] in
/-- The other workers wait on. -/
theorem Rounds.refuse_pc (w w' : W) (t : Access) (old : Nat) (q : PID) :
    ((a.refuse p w t old).page q).pc w' =
      if q = p ∧ w' = w then .updated t old .failed else (a.page q).pc w' := by
  by_cases hq : q = p
  · subst hq
    by_cases hw : w' = w <;> simp [refuse, hw]
  · simp [refuse, hq]

omit [DecidableEq F] in
/-- A PUR that has come too late is answered; the frame is still the one to be cleared. -/
theorem Flagged.fail (h : Flagged owner node a) {w : W} {t : Access} {old : Nat}
    (hr : a.round p w (owner p) = .retry x) (hpc : (a.page p).pc w = .update t old)
    (hx : (a.slot (owner p) x).pid = some p) :
    Flagged owner node ((a.refuse p w t old).setRound p w (owner p) (.failed x)) := by
  refine ⟨fun n => ?_, fun q w' => ?_, fun m y q hy hm => ?_⟩
  · have hframes : (fun q => ((a.refuse p w t old).page q).frame n) =
        fun q => (a.page q).frame n := funext fun q => a.refuse_frame w t old q n
    show Mirrors (fun q => ((a.refuse p w t old).page q).frame n) _
    rw [hframes]
    exact h.mirrors n
  · show (((a.refuse p w t old).page q).pc w').Elsewhere _
    rw [Rounds.refuse_pc]
    split
    · trivial
    · exact h.elsewhere q w'
  · show (∃ w', (((a.refuse p w t old).page q).pc w').asks (owner q) m = true) ∨ _
    rcases h.flagged m y q hy hm with ⟨w', hw'⟩ | ⟨w', hw'⟩
    · by_cases hqw : q = p ∧ w' = w
      · -- the frame of the page is the one that the handler has found
        obtain ⟨rfl, rfl⟩ := hqw
        have hmo : m = owner q := by simpa [hpc, Pc.asks] using hw'
        subst hmo
        obtain rfl := (h.mirrors (owner q)).unique y x q hy hx
        exact .inr ⟨w', by rw [Rounds.round_setRound, if_pos ⟨rfl, rfl, rfl⟩]⟩
      · exact .inl ⟨w', by rw [Rounds.refuse_pc, if_neg hqw]; exact hw'⟩
    · exact .inr ⟨w', (a.refuse p w t old).setRound_of_ne hw' (by simp [Rounds.refuse, hr])⟩

/-- A step that goes on with no lost frame keeps the flags attended. -/
theorem Flagged.step (h : Flagged owner node a) (st : RoundStep cfg owner node a a')
    (hkeep : ¬ GoesAstray a a') : Flagged owner node a' := by
  -- a round that moves on still has its frame
  have found : ∀ {p w n x}, a.round p w n = .retry x ∨ a.round p w n = .agrees x →
      a'.round p w n ≠ a.round p w n → (a.slot n x).pid = some p := by
    intro p w n x hr hne
    by_contra hx
    exact hkeep ⟨p, w, n, x, hr, hne, hx⟩
  cases st with
  | store hst _ => exact h.store hst
  | @insert σ n x hfree hm =>
    -- a frame that is not in use is not flagged
    exfalso
    rcases hpid : (a.slot n x).pid with _ | q
    · simp [((h.mirrors n).blank x hpid).mhWaiting] at hm
    · obtain ⟨f, -, hview⟩ := (h.mirrors n).linked x q hpid
      simp [BufferFrame.view, hfree] at hview
  | retry hr => exact h.setRound (by simp [hr])
  | agree hr => exact h.setRound (by simp [hr])
  | @wait p w n x hr hw =>
    refine h.wait (.inl hr) (Pc.asks_of_wants hw) (found (.inl hr) ?_)
    simp [Rounds.round_setRound, hr]
  | @waitUpdate p w t old x hr hpc =>
    refine h.wait (.inr hr) (by simp [hpc, Pc.asks]) (found (.inr hr) ?_)
    simp [Rounds.round_setRound, hr]
  | @fail p w t old x hr hpc =>
    refine h.fail hr hpc (found (.inl hr) ?_)
    simp [Rounds.round_setRound, hr]
  | clear hr => exact h.clear hr

theorem rounds_init_flagged (h : (rounds F cfg owner node).Init a) : Flagged owner node a := by
  obtain ⟨hstore, hround⟩ := h
  refine ⟨store_init_mirrors hstore, fun p w => ?_, fun n x p hp => ?_⟩
  · simp [(hstore.1 p).pc w, Pc.Elsewhere]
  · simp [(hstore.2 n x).1.pid] at hp

/-- Whoever finds `mhWaiting` set finds a request of a worker for the frame: in every run in which
no handler goes on with a frame that has lost its PID since the lookup, of any workers on any
nodes, with their pages in any slots, and in any interleaving of the accesses. -/
theorem flags_attended (h : ((rounds F cfg owner node).restrict fun a a' =>
    ¬ GoesAstray a a').Reachable a) : Attended owner a := by
  have hinv : Flagged owner node a := by
    apply System.Reachable.invariant _ _ h
    · exact fun a ha => rounds_init_flagged ha
    · exact fun a a' _ ha hst => ha.step hst.1 hst.2
  intro n x hm
  rcases hpid : (a.slot n x).pid with _ | p
  · simp [((hinv.mirrors n).blank x hpid).mhWaiting] at hm
  · refine ⟨p, rfl, ?_⟩
    rcases hinv.flagged n x p hpid hm with ⟨w, hw⟩ | ⟨w, hw⟩
    · exact ⟨w, .inl hw⟩
    · exact ⟨w, .inr (by simp [hw])⟩

end Flags

/-! ## A frame that is lost -/

section Alone

/-- The only slot of a node, for the only page. -/
def slotOf : Option (Frame NodeID Nat) → BufferFrame Unit NodeID Nat
  | none => .initial
  | some f => { (BufferFrame.initial : BufferFrame Unit NodeID Nat).store f with pid := some () }

/-- A store with one page and one frame on each node. -/
def PageState.alone (s : PageState NodeID Nat) : Store Unit NodeID Nat Unit where
  page _ := s
  slot n _ := slotOf (s.frame n)

/-- The frame comes into the table by `findFrameOrInsert`, and is removed with nobody reading it. -/
def FitsSlot : Option (Frame NodeID Nat) → Option (Frame NodeID Nat) → Bool
  | none, some f => decide (f.pVersion = 0 ∧ f.mhWaiting = false ∧ f.dirty = false ∧
      f.readers = ∅ ∧ f.page.isSome = true) &&
    (decide (f.possession = .nobody ∧ f.possessors = 0#64 ∧ f.holder.isSome = true) ||
      decide (f.state = .hot ∧ f.possession = .shared ∧ f.possessors = Possessors.set 0#64 0 ∧
        f.holder = some .handler))
  | some f, none => decide (f.readers = ∅)
  | _, _ => true

theorem slotStep_of_fits {before after : Option (Frame NodeID Nat)}
    (h : FitsSlot before after = true) :
    SlotStep () before after (fun _ : Unit => slotOf before) fun _ => slotOf after := by
  have only : ∀ b : BufferFrame Unit NodeID Nat,
      Function.update (fun _ : Unit => slotOf before) () b = fun _ => b := by
    intro b
    funext x
    simp
  rcases before with _ | f <;> rcases after with _ | f'
  · exact .absent rfl rfl
  · obtain ⟨st, pos, poss, v, mw, d, page, holder, readers⟩ := f'
    simp only [FitsSlot, Bool.and_eq_true, Bool.or_eq_true, decide_eq_true_eq] at h
    obtain ⟨⟨rfl, rfl, rfl, rfl, hpage⟩, hform⟩ := h
    obtain ⟨c, rfl⟩ := Option.isSome_iff_exists.mp hpage
    rcases hform with ⟨rfl, rfl, hholder⟩ | ⟨rfl, rfl, rfl, rfl⟩
    · obtain ⟨ho, rfl⟩ := Option.isSome_iff_exists.mp hholder
      have hst : SlotStep () none (some _) (fun _ : Unit => slotOf none)
          (Function.update (fun _ => slotOf none) () (BufferFrame.initial.fetch () ho st c)) :=
        .insert rfl rfl (.fetch ho st c) rfl
      rwa [only] at hst
    · have hst : SlotStep () none (some _) (fun _ : Unit => slotOf none)
          (Function.update (fun _ => slotOf none) () (BufferFrame.initial.load () 0 c)) :=
        .insert rfl rfl (.load 0 c) rfl
      rwa [only] at hst
  · have hr : f.readers = ∅ := of_decide_eq_true h
    have hst : SlotStep () (some f) none (fun _ : Unit => slotOf (some f))
        (Function.update (fun _ => slotOf (some f)) () (slotOf (some f)).reset) :=
      .remove rfl rfl
    have hreset : (slotOf (some f)).reset = slotOf none := by
      simp [slotOf, BufferFrame.reset, BufferFrame.store, BufferFrame.initial, hr]
    rwa [only, hreset] at hst
  · have hst : SlotStep () (some f) (some f') (fun _ : Unit => slotOf (some f))
        (Function.update (fun _ => slotOf (some f)) () ((slotOf (some f)).store f')) :=
      .update rfl rfl
    rwa [only] at hst

/-- The runs of a page of node 0 that find room on every node. -/
def fitting (cfg : Config) : System (PageState NodeID Nat) where
  Init := Init
  Step s s' := Step cfg 0 oneWorker s s' ∧ ∀ n, FitsSlot (s.frame n) (s'.frame n) = true

theorem fitting_alone {cfg : Config} {s : PageState NodeID Nat} (h : (fitting cfg).Reachable s) :
    (store Unit cfg (fun _ => 0) oneWorker).Reachable s.alone := by
  induction h with
  | @init s h =>
    refine .init ⟨fun _ => h, fun n x => ?_⟩
    have hslot : s.alone.slot n x = .initial := by
      simp [PageState.alone, h.frame n, slotOf]
    rw [hslot]
    exact ⟨⟨rfl, rfl, rfl, rfl, rfl, rfl, rfl, rfl⟩, rfl, rfl⟩
  | @step s s' _ hst ih =>
    refine ih.step ⟨(), s', .step hst.1, ?_, fun n => slotStep_of_fits (hst.2 n)⟩
    funext p
    simp [PageState.alone]

/-- Node 1 remembers the page and offers its frame; node 2 then asks for the page exclusively and
has to invalidate the copy, and the owner refuses the offer. -/
def lostActs : List (Act NodeID Nat) :=
  [.start 1 .optimistic, .insert 1 9, .requestLoad 1, .loaded, .request 1, .receive 1 0,
    .completeOptimistic 1, .select 1, .start 2 .exclusive, .insert 2 9, .request 2, .receive 2 0,
    .refuse 1]

def lostSeen (s : PageState NodeID Nat) : Bool :=
  match s.pc 2, s.frame 1, s.provider 1 with
  | .invalidate _ _ _ pending, some f, .refused => pending.test 1 && decide (f.readers = ∅)
  | _, _, _ => false

theorem lost_run : ∃ s : PageState NodeID Nat, lostSeen s = true ∧
    (fitting ⟨true, false, false⟩).Reachable s := by
  have hrun : (System.runActs (fun a s => (act ⟨true, false, false⟩ 0 oneWorker s a).filter
      fun s' => decide (∀ n, FitsSlot (s.frame n) (s'.frame n) = true)) (PageState.start 0 true)
      lostActs).any lostSeen = true := by decide +kernel
  have hact : ∀ (a : Act NodeID Nat) (s s' : PageState NodeID Nat),
      ((act ⟨true, false, false⟩ 0 oneWorker s a).filter
        fun s' => decide (∀ n, FitsSlot (s.frame n) (s'.frame n) = true)) = some s' →
      (fitting ⟨true, false, false⟩).Step s s' := by
    intro a s s' h
    obtain ⟨hact, hfits⟩ := Option.filter_eq_some_iff.mp h
    exact ⟨act_sound hact, of_decide_eq_true hfits⟩
  obtain ⟨s, hs, hseen⟩ := System.reachable_of_acts hact (PageState.start_init 0 true) hrun
  exact ⟨s, hseen, hs⟩

/-- While no handler has anything in hand, the store runs as it does by itself. -/
theorem store_rounds {cfg : Config} {owner : PID → NodeID} {node : W → NodeID}
    {σ : Store PID W C F} (h : (store F cfg owner node).Reachable σ) :
    ((rounds F cfg owner node).restrict fun a a' => ¬ GoesAstray a a').Reachable
      ⟨σ, fun _ _ _ => .none⟩ := by
  induction h with
  | init h => exact .init ⟨h, fun _ _ _ => rfl⟩
  | step _ hst ih =>
    refine ih.step ⟨.store hst fun p w n hr => absurd rfl hr, ?_⟩
    rintro ⟨p, w, n, x, hr | hr, -⟩ <;> cases hr

/-- The handler of node 1 has found the frame, and has not got the latch. -/
def found (s : PageState NodeID Nat) : Rounds Unit NodeID Nat Unit :=
  Rounds.setRound ⟨s.alone, fun _ _ _ => .none⟩ () 2 1 (.retry ())

theorem found_round {s : PageState NodeID Nat} {p : Unit} {w n : NodeID} {x : Unit}
    (h : (found s).round p w n = .retry x ∨ (found s).round p w n = .agrees x) :
    w = 2 ∧ n = 1 := by
  by_contra hne
  have hnone : (found s).round p w n = .none := by
    rw [found, Rounds.round_setRound, if_neg]
    exact fun h => hne h.2
  simp [hnone] at h

theorem lostSeen_cases {s : PageState NodeID Nat} (h : lostSeen s = true) :
    (s.pc 2).wants 1 = true ∧ s.provider 1 = .refused ∧
      ∃ f, s.frame 1 = some f ∧ f.readers = ∅ := by
  unfold lostSeen at h
  split at h
  case h_1 g t e pending f hpc hf hp =>
    simp only [Bool.and_eq_true, decide_eq_true_eq] at h
    exact ⟨by simpa [hpc, Pc.wants] using h.1, hp, f, hf, h.2⟩
  case h_2 => cases h

theorem found_reachable {s : PageState NodeID Nat} (hseen : lostSeen s = true)
    (h : (fitting ⟨true, false, false⟩).Reachable s) :
    ((rounds Unit ⟨true, false, false⟩ (fun _ => 0) oneWorker).restrict
      fun a a' => ¬ GoesAstray a a').Reachable (found s) := by
  obtain ⟨hw, -, f, hf, -⟩ := lostSeen_cases hseen
  refine (store_rounds (fitting_alone h)).step ⟨.retry rfl (Pc.asks_of_wants hw) ?_, ?_⟩
  · simp [PageState.alone, hf, slotOf]
  · rintro ⟨p, w, n, x, hr | hr, -⟩ <;> cases hr

theorem flags_attended_waiting : ∃ a : Rounds Unit NodeID Nat Unit,
    (a.slot 1 ()).mhWaiting = true ∧ Attended (fun _ => 0) a := by
  obtain ⟨s, hseen, hs⟩ := lost_run
  obtain ⟨hw, -, f, hf, -⟩ := lostSeen_cases hseen
  have hreach := (found_reachable hseen hs).step ⟨.wait (p := ()) (w := 2) (n := 1) (x := ())
    (by simp [found, Rounds.round_setRound]) hw, ?_⟩
  · exact ⟨_, by simp [Rounds.setRound, Rounds.flag, Store.flag], flags_attended hreach⟩
  · rintro ⟨p, w, n, x, hr, -, hx⟩
    obtain ⟨rfl, rfl⟩ := found_round hr
    exact hx (by simp [found, Rounds.setRound, PageState.alone, hf, slotOf])

/-- The frame is removed before the flag is set: the flag stays in a frame that has no PID. -/
theorem flag_left_behind :
    ¬ ∀ a : Rounds Unit NodeID Nat Unit,
      (rounds Unit ⟨true, false, false⟩ (fun _ => 0) oneWorker).Reachable a →
        Attended (fun _ => 0) a := by
  intro hall
  obtain ⟨s, hseen, hs⟩ := lost_run
  obtain ⟨hw, hp, f, hf, hreaders⟩ := lostSeen_cases hseen
  have hreach := (found_reachable hseen hs).of_restrict
  -- the page provider of node 1 removes the frame although the owner has refused
  have hremoved := hreach.step (.store (σ := ((s.setFrame 1 none 2).setProvider 1 .idle).alone)
    ⟨(), (s.setFrame 1 none 2).setProvider 1 .idle, .step (.provider (.applyStale hp hf)), ?_,
      fun n => slotStep_of_fits ?_⟩ ?_)
  case refine_1 =>
    funext p
    simp [PageState.alone]
  case refine_2 =>
    by_cases hn : n = 1
    · subst hn
      simp [found, Rounds.setRound, PageState.alone, hf, FitsSlot, hreaders]
    · have hsame : ((s.setFrame 1 none 2).setProvider 1 .idle).frame n = s.frame n := by
        simp [hn]
      rw [hsame]
      show FitsSlot (s.frame n) (s.frame n) = true
      cases s.frame n <;> rfl
  case refine_3 => exact fun p w n _ h => h
  have hflagged := hall _ (hremoved.step (.wait (p := ()) (w := 2) (n := 1) (x := ())
    (by simp [found, Rounds.round_setRound]) hw))
  obtain ⟨p, hpid, -⟩ := hflagged 1 () (by simp [Rounds.setRound, Rounds.flag, Store.flag])
  simp [Rounds.setRound, Rounds.flag, Store.flag, PageState.alone, slotOf, BufferFrame.initial]
    at hpid

end Alone

end ScaleStore.Protocol
