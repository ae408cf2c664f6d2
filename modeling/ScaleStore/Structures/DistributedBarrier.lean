/-
# The distributed barrier

`DistributedBarrier` keeps a counter of missing participants and an 8-bit round
number on one page.  A participant counts itself in under the exclusive latch;
the last one runs the finalizer and starts the next round, the others poll the
round number with optimistic reads until it differs from the one they saw.

A fast participant may be back in the next round while slow ones still poll the
old one.  What keeps the rounds apart is that the counter cannot reach zero
again before every participant has come back: nobody is ever more than one round
away from anybody else, so two values of the round number would be enough.
-/

import ScaleStore.Lib.System
import Mathlib.Data.Fintype.Card
import Mathlib.Logic.Function.Basic
import Mathlib.Tactic

namespace ScaleStore.DistributedBarrier

/-! ## The page -/

structure Body where
  threadCount : Nat
  cntr : Nat
  round : UInt8
deriving DecidableEq, Repr

/-- `Body::initialize`. -/
def Body.initialize (threads : Nat) : Body := ⟨threads, threads, 0⟩

/-- The exclusive section of `wait`: the page it leaves behind, and whether the participant is the
last to arrive, which then runs the finalizer. -/
def Body.arrive (b : Body) : Body × Bool :=
  let prev := b.cntr
  if prev = 1 then ({ b with cntr := b.threadCount, round := b.round + 1 }, true)
  else ({ b with cntr := prev - 1 }, false)

/-! ## Participants -/

/-- Where a participant is. -/
inductive Pc where
  | outside
  /-- In the loop of `wait`, with the round it saw on arrival. -/
  | polling (prevRound : UInt8)
deriving DecidableEq, Repr

/-- The page and its participants, with the history of their calls. -/
structure State (P : Type) where
  body : Body
  pc : P → Pc
  /-- How many calls of `wait` a participant has begun. -/
  entered : P → Nat
  /-- What the calls that are over have returned, the first one first. -/
  returned : P → List Bool
  /-- Who ran the finalizer in its `r`-th call, and with what result. -/
  finalized : Nat → List (P × Bool)

variable {P : Type} [DecidableEq P]

namespace State

/-- `p` arrives, and its finalizer returns `r` if it is the last one. -/
def enter (s : State P) (p : P) (r : Bool) : State P :=
  let counted := { s with
    body := s.body.arrive.1, entered := Function.update s.entered p (s.entered p + 1) }
  if s.body.arrive.2 then
    { counted with
      returned := Function.update s.returned p (s.returned p ++ [r])
      finalized := Function.update s.finalized (s.entered p)
        (s.finalized (s.entered p) ++ [(p, r)]) }
  else { counted with pc := Function.update s.pc p (.polling s.body.round) }

/-- `p` has seen another round and returns. -/
def leave (s : State P) (p : P) : State P :=
  { s with
    pc := Function.update s.pc p .outside
    returned := Function.update s.returned p (s.returned p ++ [false]) }

end State

/-- Exclusive sections and validated optimistic reads are atomic; a participant calls `wait` again
whenever it likes. -/
inductive Step : State P → State P → Prop
  | enter {s : State P} {p : P} (r : Bool) (hp : s.pc p = .outside) : Step s (s.enter p r)
  | again {s : State P} {p : P} {prevRound : UInt8} (hp : s.pc p = .polling prevRound)
      (hround : s.body.round = prevRound) : Step s s
  | leave {s : State P} {p : P} {prevRound : UInt8} (hp : s.pc p = .polling prevRound)
      (hround : s.body.round ≠ prevRound) : Step s (s.leave p)

/-- The constructor initialises the page with the number of participants. -/
structure Init [Fintype P] (s : State P) : Prop where
  body : s.body = Body.initialize (Fintype.card P)
  pc : ∀ p, s.pc p = .outside
  entered : ∀ p, s.entered p = 0
  returned : ∀ p, s.returned p = []
  finalized : ∀ r, s.finalized r = []

def system (P : Type) [DecidableEq P] [Fintype P] : System (State P) := ⟨Init, Step⟩

/-! ## The invariant -/

/-- The round number of the page as the participants of the `r`-th round see it. -/
def number (r : Nat) : UInt8 := UInt8.ofNat r

theorem number_succ (r : Nat) : number (r + 1) = number r + 1 := by
  simp [number, UInt8.ofNat_add]

theorem number_succ_ne (r : Nat) : number (r + 1) ≠ number r := by
  rw [number_succ]
  grind

/-- What a participant's place says about it when `done` rounds are over: it waits for the round
that is under way, or has not noticed yet that the last one is over, or is outside. -/
def Place (done entered returned : Nat) : Pc → Prop
  | .outside => entered = done ∧ returned = done
  | .polling prevRound => returned + 1 = entered ∧ prevRound = number returned ∧
      (entered = done ∨ entered = done + 1)

/-- `done` rounds are over. -/
structure Inv [Fintype P] (s : State P) (done : Nat) : Prop where
  threadCount : s.body.threadCount = Fintype.card P
  round : s.body.round = number done
  /-- The counter is the number of participants that the round under way still lacks. -/
  cntr : s.body.cntr + (Finset.univ.filter fun p => s.entered p = done + 1).card = Fintype.card P
  /-- Decrementing the counter never wraps it around. -/
  pos : ∀ _ : P, 0 < s.body.cntr
  place : ∀ p, Place done (s.entered p) (s.returned p).length (s.pc p)
  once : ∀ r, r < done → ∃ q v, s.finalized r = [(q, v)] ∧ r < (s.returned q).length
  notYet : ∀ r, done ≤ r → s.finalized r = []
  results : ∀ p r v, (s.returned p)[r]? = some v →
    ∃ q w, s.finalized r = [(q, w)] ∧ v = if p = q then w else false

section Steps

variable [Fintype P] {s s' : State P} {done : Nat} {p : P}

theorem Init.inv (h : Init s) : Inv s 0 where
  threadCount := by rw [h.body]; rfl
  round := by rw [h.body]; rfl
  cntr := by simp [h.body, h.entered, Body.initialize]
  pos p := by
    rw [h.body]
    exact Fintype.card_pos_iff.mpr ⟨p⟩
  place p := by
    rw [h.pc, h.entered, h.returned]
    exact ⟨rfl, rfl⟩
  once r hr := absurd hr (Nat.not_lt_zero r)
  notYet r _ := h.finalized r
  results p r v hv := by simp [h.returned] at hv

/-- Somebody outside has not been counted in yet. -/
theorem Inv.entered_outside (hi : Inv s done) (hp : s.pc p = .outside) :
    s.entered p = done ∧ (s.returned p).length = done := by
  have hplace := hi.place p
  rwa [hp] at hplace

/-- Who polls has not got its own result yet. -/
theorem Inv.polling (hi : Inv s done) {prevRound : UInt8} (hp : s.pc p = .polling prevRound) :
    (s.returned p).length + 1 = s.entered p ∧ prevRound = number (s.returned p).length ∧
      (s.entered p = done ∨ s.entered p = done + 1) := by
  have hplace := hi.place p
  rwa [hp] at hplace

/-- When only one participant is missing, the others wait for it. -/
theorem Inv.others_arrived (hi : Inv s done) (hlast : s.body.cntr = 1)
    (hp : s.pc p = .outside) {q : P} (hq : q ≠ p) : s.entered q = done + 1 := by
  have hcard := hi.cntr
  have hsub : (Finset.univ.filter fun q => s.entered q = done + 1) ⊆ Finset.univ.erase p := by
    intro q hmem
    refine Finset.mem_erase.mpr ⟨?_, Finset.mem_univ q⟩
    rintro rfl
    have := (hi.entered_outside hp).1
    have := (Finset.mem_filter.mp hmem).2
    omega
  have herase : (Finset.univ.erase p).card = Fintype.card P - 1 :=
    Finset.card_erase_of_mem (Finset.mem_univ p)
  have heq := Finset.eq_of_subset_of_card_le hsub (by omega)
  have hmem : q ∈ Finset.univ.erase p := Finset.mem_erase.mpr ⟨hq, Finset.mem_univ q⟩
  rw [← heq] at hmem
  exact (Finset.mem_filter.mp hmem).2

/-- An arrival is counted once. -/
theorem card_arrive (hp : s.entered p = done) :
    (Finset.univ.filter fun q =>
      Function.update s.entered p (s.entered p + 1) q = done + 1).card =
      (Finset.univ.filter fun q => s.entered q = done + 1).card + 1 := by
  have hnot : p ∉ Finset.univ.filter fun q => s.entered q = done + 1 := by
    simp [hp]
  rw [← Finset.card_insert_of_notMem hnot]
  congr 1
  ext q
  by_cases hq : q = p
  · subst hq
    simp [hp]
  · simp [hq]

/-- An arrival that is not the last one. -/
theorem Inv.enter_early (hi : Inv s done) (hp : s.pc p = .outside) (hlast : s.body.cntr ≠ 1)
    (r : Bool) : Inv (s.enter p r) done := by
  obtain ⟨hentered, hreturned⟩ := hi.entered_outside hp
  have hpos := hi.pos p
  have harrive : s.body.arrive = ({ s.body with cntr := s.body.cntr - 1 }, false) := by
    simp [Body.arrive, hlast]
  have henter : s.enter p r = { s with
      body := { s.body with cntr := s.body.cntr - 1 }
      entered := Function.update s.entered p (s.entered p + 1)
      pc := Function.update s.pc p (.polling s.body.round) } := by
    simp [State.enter, harrive]
  rw [henter]
  refine { hi with cntr := ?_, pos := fun _ => ?_, place := ?_ }
  · have hcard := hi.cntr
    show s.body.cntr - 1 + (Finset.univ.filter fun q =>
      Function.update s.entered p (s.entered p + 1) q = done + 1).card = Fintype.card P
    rw [card_arrive hentered]
    omega
  · show 0 < s.body.cntr - 1
    omega
  · intro q
    by_cases hq : q = p
    · subst hq
      simp [Place, hentered, hreturned, hi.round]
    · simpa [hq] using hi.place q

/-- The last arrival ends the round. -/
theorem Inv.enter_last (hi : Inv s done) (hp : s.pc p = .outside) (hlast : s.body.cntr = 1)
    (r : Bool) : Inv (s.enter p r) (done + 1) := by
  obtain ⟨hentered, hreturned⟩ := hi.entered_outside hp
  have hothers := fun q => hi.others_arrived (q := q) hlast hp
  have harrive : s.body.arrive =
      ({ s.body with cntr := s.body.threadCount, round := s.body.round + 1 }, true) := by
    simp [Body.arrive, hlast]
  have henter : s.enter p r = { s with
      body := { s.body with cntr := s.body.threadCount, round := s.body.round + 1 }
      entered := Function.update s.entered p (done + 1)
      returned := Function.update s.returned p (s.returned p ++ [r])
      finalized := Function.update s.finalized done [(p, r)] } := by
    simp [State.enter, harrive, hentered, hi.notYet done le_rfl]
  have hcounted : ∀ q, Function.update s.entered p (done + 1) q = done + 1 := by
    intro q
    by_cases hq : q = p
    · simp [hq]
    · simpa [hq] using hothers q hq
  have hlength : ∀ q, (s.returned q).length ≤
      (Function.update s.returned p (s.returned p ++ [r]) q).length := by
    intro q
    by_cases hq : q = p
    · simp [hq]
    · simp [hq]
  rw [henter]
  constructor
  case threadCount => exact hi.threadCount
  case round =>
    show s.body.round + 1 = number (done + 1)
    rw [hi.round, number_succ]
  case cntr =>
    have hnone : (Finset.univ.filter fun q =>
        Function.update s.entered p (done + 1) q = done + 1 + 1) = ∅ := by
      refine Finset.filter_eq_empty_iff.mpr fun q _ => ?_
      rw [hcounted q]
      omega
    show s.body.threadCount + (Finset.univ.filter fun q =>
      Function.update s.entered p (done + 1) q = done + 1 + 1).card = Fintype.card P
    rw [hnone, hi.threadCount]
    rfl
  case pos =>
    intro q
    show 0 < s.body.threadCount
    rw [hi.threadCount]
    exact Fintype.card_pos_iff.mpr ⟨q⟩
  case place =>
    intro q
    show Place (done + 1) (Function.update s.entered p (done + 1) q) _ (s.pc q)
    rw [hcounted q]
    by_cases hq : q = p
    · subst hq
      simp [hp, Place, hreturned]
    · -- everybody else is in the loop and sees the round number change
      have hplace := hi.place q
      rw [hothers q hq] at hplace
      cases hpc : s.pc q with
      | outside =>
        rw [hpc] at hplace
        exact absurd hplace.1 (by omega)
      | polling prevRound =>
        rw [hpc] at hplace
        simpa [hq] using ⟨hplace.1, hplace.2.1, Or.inl rfl⟩
  case once =>
    intro i hlt
    by_cases heq : i = done
    · subst heq
      exact ⟨p, r, by simp, by simp [hreturned]⟩
    · obtain ⟨q, v, hv, hq⟩ := hi.once i (by omega)
      exact ⟨q, v, by simpa [heq] using hv, Nat.lt_of_lt_of_le hq (hlength q)⟩
  case notYet =>
    intro i hle
    have hne : i ≠ done := by omega
    simpa [hne] using hi.notYet i (by omega)
  case results =>
    intro q i v hv
    by_cases hq : q = p
    · subst hq
      simp only [Function.update_self] at hv
      by_cases heq : i = done
      · subst heq
        rw [List.getElem?_append_right (by omega), hreturned] at hv
        exact ⟨q, r, by simp, by simpa using hv.symm⟩
      · have hlt : i < done := by
          have := (List.getElem?_eq_some_iff.mp hv).1
          simp only [List.length_append, List.length_singleton, hreturned] at this
          omega
        rw [List.getElem?_append_left (by omega)] at hv
        simpa [heq] using hi.results q i v hv
    · simp only [Function.update_of_ne hq] at hv
      have hne : i ≠ done := by
        have := (List.getElem?_eq_some_iff.mp hv).1
        have hplace := hi.place q
        rw [hothers q hq] at hplace
        cases hpc : s.pc q with
        | outside =>
          rw [hpc] at hplace
          exact absurd hplace.1 (by omega)
        | polling prevRound =>
          rw [hpc] at hplace
          have := hplace.1
          omega
      simpa [hne] using hi.results q i v hv

/-- Who sees another round number than its own has waited for a round that is over. -/
theorem Inv.leave (hi : Inv s done) {prevRound : UInt8} (hp : s.pc p = .polling prevRound)
    (hround : s.body.round ≠ prevRound) : Inv (s.leave p) done := by
  obtain ⟨hcount, hprev, hdone⟩ := hi.polling hp
  have hover : s.entered p = done := by
    refine hdone.resolve_right fun hentered => hround ?_
    rw [hi.round, hprev]
    congr 1
    omega
  refine { hi with place := ?_, once := ?_, results := ?_ }
  · intro q
    by_cases hq : q = p
    · subst hq
      simp [State.leave, Place, hover]
      omega
    · simpa [State.leave, hq] using hi.place q
  · intro i hlt
    obtain ⟨q, v, hv, hq⟩ := hi.once i hlt
    refine ⟨q, v, hv, ?_⟩
    by_cases hqp : q = p
    · subst hqp
      simp [State.leave]
      omega
    · simpa [State.leave, hqp] using hq
  · intro q i v hv
    by_cases hq : q = p
    · subst hq
      simp only [State.leave, Function.update_self] at hv
      by_cases heq : i = (s.returned q).length
      · subst heq
        -- the finalizer of this round has been run by somebody who has returned from it
        obtain ⟨q', w, hw, hq'⟩ := hi.once (s.returned q).length (by omega)
        have hne : q ≠ q' := by
          rintro rfl
          omega
        exact ⟨q', w, hw, by simpa [hne] using hv.symm⟩
      · have hlt : i < (s.returned q).length := by
          have := (List.getElem?_eq_some_iff.mp hv).1
          simp only [List.length_append, List.length_singleton] at this
          omega
        rw [List.getElem?_append_left hlt] at hv
        exact hi.results q i v hv
    · simp only [State.leave, Function.update_of_ne hq] at hv
      exact hi.results q i v hv

theorem Inv.next (hi : Inv s done) (h : Step s s') : ∃ done', Inv s' done' := by
  cases h with
  | enter r hp =>
    by_cases hlast : s.body.cntr = 1
    · exact ⟨_, hi.enter_last hp hlast r⟩
    · exact ⟨_, hi.enter_early hp hlast r⟩
  | again => exact ⟨_, hi⟩
  | leave hp hround => exact ⟨_, hi.leave hp hround⟩

theorem inv_of_reachable (h : (system P).Reachable s) : ∃ done, Inv s done :=
  h.invariant (P := fun s => ∃ done, Inv s done) (fun _ hinit => ⟨0, Init.inv hinit⟩)
    (fun _ _ _ ⟨_, hi⟩ hstep => hi.next hstep)

/-! ## Rounds -/

/-- Nobody is more than one call behind or ahead. -/
theorem Inv.entered_cases (hi : Inv s done) (p : P) :
    s.entered p = done ∨ s.entered p = done + 1 := by
  cases hp : s.pc p with
  | outside => exact Or.inl (hi.entered_outside hp).1
  | polling prevRound => exact (hi.polling hp).2.2

theorem Inv.returned_le (hi : Inv s done) (p : P) : (s.returned p).length ≤ done := by
  cases hp : s.pc p with
  | outside => exact le_of_eq (hi.entered_outside hp).2
  | polling prevRound =>
    obtain ⟨hcount, -, hentered⟩ := hi.polling hp
    omega

/-- As long as a round is under way, somebody has not arrived. -/
theorem Inv.exists_missing (hi : Inv s done) (p : P) : ∃ q, s.entered q = done := by
  by_contra hnone
  have hall : (Finset.univ.filter fun q => s.entered q = done + 1) = Finset.univ :=
    Finset.filter_eq_self.mpr fun q _ =>
      (hi.entered_cases q).resolve_left fun hq => hnone ⟨q, hq⟩
  have hcard := hi.cntr
  have hpos := hi.pos p
  rw [hall, Finset.card_univ] at hcard
  omega

/-- The one who ran the finalizer has returned its result. -/
theorem Inv.finalizer_returned (hi : Inv s done) {r : Nat} {q : P} {w : Bool}
    (hq : (q, w) ∈ s.finalized r) : (s.returned q)[r]? = some w := by
  have hlt : r < done := by
    by_contra hle
    rw [hi.notYet r (by omega)] at hq
    cases hq
  obtain ⟨q', w', hrun, hreturned⟩ := hi.once r hlt
  rw [hrun] at hq
  obtain ⟨rfl, rfl⟩ : q = q' ∧ w = w' := by simpa using hq
  obtain ⟨v, hv⟩ : ∃ v, (s.returned q)[r]? = some v :=
    ⟨_, List.getElem?_eq_getElem hreturned⟩
  obtain ⟨q', w', hrun', hvalue⟩ := hi.results q r v hv
  rw [hrun] at hrun'
  obtain ⟨rfl, rfl⟩ : q = q' ∧ w = w' := by simpa using hrun'
  rw [hv, hvalue, if_pos rfl]

/-- A waiter sees its own round number while somebody is missing, and the next one afterwards. -/
theorem Inv.round_seen (hi : Inv s done) {prevRound : UInt8} (hp : s.pc p = .polling prevRound) :
    (s.body.round = prevRound ∨ s.body.round = prevRound + 1) ∧
      (s.body.round = prevRound ↔ ∃ q, s.entered q < s.entered p) := by
  obtain ⟨hcount, hprev, hentered⟩ := hi.polling hp
  rcases hentered with hover | hwaits
  · -- the round is over, and nobody is two rounds ahead of a waiter
    have hnext : s.body.round = number ((s.returned p).length + 1) := by
      rw [hi.round, hcount, hover]
    have hne : s.body.round ≠ prevRound := by
      rw [hnext, hprev]
      exact number_succ_ne _
    refine ⟨Or.inr (by rw [hnext, hprev, number_succ]), fun h => absurd h hne, ?_⟩
    rintro ⟨q, hq⟩
    rcases hi.entered_cases q with h | h <;> omega
  · have hsame : s.body.round = prevRound := by
      rw [hi.round, hprev]
      congr 1
      omega
    obtain ⟨q, hq⟩ := hi.exists_missing p
    exact ⟨Or.inl hsame, fun _ => ⟨q, by omega⟩, fun _ => hsame⟩

/-- The barrier separates rounds: whoever has returned from its `r`-th call, everybody has begun
the `r`-th call; in each round one participant runs the finalizer and returns what it returned,
and the others return false; and a waiter sees its own round number or the next one, the next one
exactly when everybody has arrived. -/
theorem rounds_separated (h : (system P).Reachable s) :
    (∀ p q, (s.returned p).length ≤ s.entered q) ∧
      (∀ r q w, (q, w) ∈ s.finalized r →
        s.finalized r = [(q, w)] ∧ (s.returned q)[r]? = some w) ∧
      (∀ p r v, (s.returned p)[r]? = some v →
        ∃ q w, s.finalized r = [(q, w)] ∧ v = if p = q then w else false) ∧
      (∀ p prevRound, s.pc p = .polling prevRound →
        (s.body.round = prevRound ∨ s.body.round = prevRound + 1) ∧
          (s.body.round = prevRound ↔ ∃ q, s.entered q < s.entered p)) := by
  obtain ⟨done, hi⟩ := inv_of_reachable h
  refine ⟨fun p q => ?_, fun r q w hq => ⟨?_, hi.finalizer_returned hq⟩, hi.results,
    fun p prevRound hp => hi.round_seen hp⟩
  · have hle := hi.returned_le p
    rcases hi.entered_cases q with hq | hq <;> omega
  · obtain ⟨q', w', hrun, hvalue⟩ := hi.results q r w (hi.finalizer_returned hq)
    rw [hrun] at hq
    obtain ⟨rfl, rfl⟩ : q = q' ∧ w = w' := by simpa using hq
    exact hrun

end Steps

/-! ## Two participants -/

def twoStart : State Bool where
  body := Body.initialize 2
  pc _ := .outside
  entered _ := 0
  returned _ := []
  finalized _ := []

/-- The second participant is the last to arrive and back in the next round, the first one has not
noticed yet. -/
theorem rounds_separated_two : ∃ s : State Bool,
    s.pc false = .polling 0 ∧ s.pc true = .polling 1 ∧ s.body.round = 0 + 1 ∧
      ¬ ∃ q, s.entered q < s.entered false := by
  have hinit : (system Bool).Reachable twoStart :=
    .init ⟨rfl, fun _ => rfl, fun _ => rfl, fun _ => rfl, fun _ => rfl⟩
  have hrun : (system Bool).Reachable
      (((twoStart.enter false true).enter true true).enter true true) :=
    ((hinit.step (.enter true rfl)).step (.enter true rfl)).step (.enter true rfl)
  obtain ⟨hround, hseen⟩ := (rounds_separated hrun).2.2.2 false 0 rfl
  exact ⟨_, rfl, rfl, hround.resolve_left (by decide), fun hmissing =>
    absurd (hseen.mpr hmissing) (by decide)⟩

end ScaleStore.DistributedBarrier
