/-
# Concurrent objects that act atomically

Threads call operations of a shared object.  An atomic object takes one step
between a call and its return, and that step does all of the operation; a
concurrent implementation runs a program of many instructions, and starts it
again when an attempt has failed.  The implementation is linearizable when every
sequence of calls and returns it shows is one the atomic object can show as well.

The proof rule is a simulation, cut down to one thread.  What a thread knows about
the memory is a value of some type, steps of others must leave true what is known,
and with each instruction the thread may declare that its operation has happened.

The rule judges an instruction by the state it is executed in.  Some conditions are
about what comes next as well, for example that the call is over as soon as a certain
answer is given; such a condition is proved along with the specification.
-/

import ScaleStore.Lib.Programs

namespace ScaleStore

/-! ## Traces -/

/-- A transition system some of whose steps are seen from outside. -/
structure Labelled (L S : Type) where
  Init : S → Prop
  Step : S → Option L → S → Prop

namespace Labelled

variable {L S A : Type} {sys : Labelled L S} {spec : Labelled L A} {s s' s'' : S} {ls ls' : List L}

/-- The state `s` is reached, and `ls` is what was seen on the way. -/
inductive Trace (sys : Labelled L S) : List L → S → Prop
  | init {s : S} (h : sys.Init s) : Trace sys [] s
  | step {ls : List L} {s s' : S} {l : Option L} (ht : Trace sys ls s) (h : sys.Step s l s') :
      Trace sys (ls ++ l.toList) s'

/-- Finitely many steps, with what is seen of them. -/
inductive Moves (sys : Labelled L S) (s : S) : List L → S → Prop
  | refl : Moves sys s [] s
  | tail {ls : List L} {s' s'' : S} {l : Option L} (hm : Moves sys s ls s')
      (h : sys.Step s' l s'') : Moves sys s (ls ++ l.toList) s''

theorem Moves.single {l : Option L} (h : sys.Step s l s') : sys.Moves s l.toList s' :=
  .tail .refl h

theorem Trace.moves (ht : sys.Trace ls s) (hm : sys.Moves s ls' s') :
    sys.Trace (ls ++ ls') s' := by
  induction hm with
  | refl => simpa using ht
  | tail _ h ih =>
    rw [← List.append_assoc]
    exact ih.step h

/-- Every step of `sys` is answered by steps of `spec` that look the same. -/
structure Simulation (sys : Labelled L S) (spec : Labelled L A) (R : S → A → Prop) : Prop where
  init : ∀ s, sys.Init s → ∃ a, spec.Init a ∧ R s a
  step : ∀ s a l s', R s a → sys.Step s l s' → ∃ a', spec.Moves a l.toList a' ∧ R s' a'

/-- What `sys` shows, `spec` shows as well, and ends in a related state. -/
theorem Simulation.trace {R : S → A → Prop} (hsim : Simulation sys spec R) (ht : sys.Trace ls s) :
    ∃ a, spec.Trace ls a ∧ R s a := by
  induction ht with
  | init h =>
    obtain ⟨a, ha, hR⟩ := hsim.init _ h
    exact ⟨a, .init ha, hR⟩
  | step _ h ih =>
    obtain ⟨a, hta, hR⟩ := ih
    obtain ⟨a', hmoves, hR'⟩ := hsim.step _ _ _ _ hR h
    exact ⟨a', hta.moves hmoves, hR'⟩

end Labelled

/-! ## Atomic objects -/

/-- What the operations of an object do to its value, and what they answer. -/
structure AtomicObject (X Op Ans : Type) where
  init : X → Prop
  apply : X → Op → X → Ans → Prop

/-- How far a thread is with its operation. -/
inductive Phase (Op Ans : Type)
  | idle
  | pending (op : Op)
  | done (op : Op) (a : Ans)

inductive Event (T Op Ans : Type)
  | call (t : T) (op : Op)
  | return (t : T) (a : Ans)

structure AtomicState (T X Op Ans : Type) where
  value : X
  phase : T → Phase Op Ans

section Atomic

variable {T X Op Ans : Type} [DecidableEq T]

/-- An operation is called, happens, and returns. -/
inductive AtomicObject.Step (obj : AtomicObject X Op Ans) (s : AtomicState T X Op Ans) :
    Option (Event T Op Ans) → AtomicState T X Op Ans → Prop
  | call {t : T} (op : Op) (h : s.phase t = .idle) :
      Step obj s (some (.call t op)) { s with phase := Function.update s.phase t (.pending op) }
  | happen {t : T} {op : Op} {x : X} {a : Ans} (h : s.phase t = .pending op)
      (happly : obj.apply s.value op x a) :
      Step obj s none ⟨x, Function.update s.phase t (.done op a)⟩
  | return {t : T} {op : Op} {a : Ans} (h : s.phase t = .done op a) :
      Step obj s (some (.return t a)) { s with phase := Function.update s.phase t .idle }

/-- Any number of threads on an atomic object. -/
def AtomicObject.system (obj : AtomicObject X Op Ans) (T : Type) [DecidableEq T] :
    Labelled (Event T Op Ans) (AtomicState T X Op Ans) where
  Init s := obj.init s.value ∧ ∀ t, s.phase t = .idle
  Step := obj.Step

end Atomic

/-! ## Implementations -/

/-- One attempt at an operation is a program; the result `none` starts another one.  The number
an attempt is given bounds its loops and may be any. -/
structure Implementation (T S Op I : Type) (A : I → Type) (Ans : Type) where
  init : S → Prop
  exec : T → (i : I) → S → A i → S → Prop
  /-- What happens to the memory without any of the threads. -/
  environment : S → S → Prop
  attempt : Op → Nat → Prog I A (Option Ans)

inductive CallState (Op I : Type) (A : I → Type) (Ans : Type)
  | idle
  | running (op : Op) (rest : Prog I A (Option Ans))

structure CallStates (T S Op I : Type) (A : I → Type) (Ans : Type) where
  memory : S
  call : T → CallState Op I A Ans

section Implementation

variable {T S Op I Ans : Type} {A : I → Type} [DecidableEq T]

inductive Implementation.Step (impl : Implementation T S Op I A Ans)
    (s : CallStates T S Op I A Ans) :
    Option (Event T Op Ans) → CallStates T S Op I A Ans → Prop
  | call {t : T} (op : Op) (n : Nat) (h : s.call t = .idle) :
      Step impl s (some (.call t op))
        { s with call := Function.update s.call t (.running op (impl.attempt op n)) }
  | instr {t : T} {op : Op} {i : I} {next : A i → Prog I A (Option Ans)} {a : A i} {m : S}
      (h : s.call t = .running op (.instr i next)) (hexec : impl.exec t i s.memory a m) :
      Step impl s none ⟨m, Function.update s.call t (.running op (next a))⟩
  | restart {t : T} {op : Op} (n : Nat) (h : s.call t = .running op (.ret none)) :
      Step impl s none
        { s with call := Function.update s.call t (.running op (impl.attempt op n)) }
  | return {t : T} {op : Op} {a : Ans} (h : s.call t = .running op (.ret (some a))) :
      Step impl s (some (.return t a)) { s with call := Function.update s.call t .idle }
  | environment {m : S} (h : impl.environment s.memory m) :
      Step impl s none { s with memory := m }

/-- Any number of threads that run the implementation. -/
def Implementation.system (impl : Implementation T S Op I A Ans) :
    Labelled (Event T Op Ans) (CallStates T S Op I A Ans) where
  Init s := impl.init s.memory ∧ ∀ t, s.call t = .idle
  Step := impl.Step

end Implementation

/-! ## The logic of one thread -/

section Logic

variable {T S X Op I Ans : Type} {A : I → Type} {R R' : Type}

/-- What it takes to reason about one thread at a time: an invariant that ties the memory to a
ghost state and so to the value of the object, what a thread may count on others for, and what it
can know. -/
structure CallLogic (impl : Implementation T S Op I A Ans) (obj : AtomicObject X Op Ans)
    (G K : Type) where
  value : G → X
  inv : S → G → Prop
  rely : T → S → G → S → G → Prop
  knows : K → T → S → G → Prop
  /-- What a thread knows when it is not in a call. -/
  rest : K
  /-- What must hold wherever an instruction is about to be executed. -/
  safe : T → I → S → G → Prop
  stable : ∀ {t k m g m' g'}, rely t m g m' g' → knows k t m g → knows k t m' g'
  undisturbed : ∀ {m g m'}, inv m g → impl.environment m m' →
    ∃ g', inv m' g' ∧ value g' = value g ∧ ∀ t, rely t m g m' g'
  starts : ∀ {m}, impl.init m → ∃ g, inv m g ∧ obj.init (value g) ∧ ∀ t, knows rest t m g

variable {impl : Implementation T S Op I A Ans} {obj : AtomicObject X Op Ans} {G K : Type}

/-- A condition on an instruction, what comes next for every answer, and the state. -/
abbrev Watch (I : Type) (A : I → Type) (R S G : Type) :=
  (i : I) → (A i → Prog I A R) → S → G → Prop

namespace CallLogic

/-- Either the value of the object stays, or the pending operation happens. -/
inductive Happens (obj : AtomicObject X Op Ans) (x x' : X) : Phase Op Ans → Phase Op Ans → Prop
  | quiet {p : Phase Op Ans} (h : x' = x) : Happens obj x x' p p
  | effect {op : Op} {a : Ans} (h : obj.apply x op x' a) :
      Happens obj x x' (.pending op) (.done op a)

variable (L : CallLogic impl obj G K)

/-- The rest of a program does what it should for a thread that knows `k`: it keeps the
invariant and what others count on, and it ends in `Q`. -/
def Ok (t : T) (Q : R → Phase Op Ans → S → G → Prop) :
    Prog I A R → Phase Op Ans → K → Prop
  | .ret r, p, k => ∀ m g, L.inv m g → L.knows k t m g → Q r p m g
  | .throw, _, k => ∀ m g, L.inv m g → ¬ L.knows k t m g
  | .instr i next, p, k => ∀ m g, L.inv m g → L.knows k t m g → L.safe t i m g ∧
      ∀ a m', impl.exec t i m a m' → ∃ g' p' k', L.inv m' g' ∧ L.knows k' t m' g' ∧
        (∀ u, u ≠ t → L.rely u m g m' g') ∧ Happens obj (L.value g) (L.value g') p p' ∧
        Ok t Q (next a) p' k'

variable {L} {t : T} {Q : R → Phase Op Ans → S → G → Prop} {p : Phase Op Ans} {k : K}

/-- At any moment the thread may look at the state and restate what it knows. -/
theorem ok_of_moment {prog : Prog I A R}
    (h : ∀ m g, L.inv m g → L.knows k t m g → ∃ k', L.knows k' t m g ∧ L.Ok t Q prog p k') :
    L.Ok t Q prog p k := by
  cases prog with
  | ret r =>
    intro m g hinv hk
    obtain ⟨k', hk', hok⟩ := h m g hinv hk
    exact hok m g hinv hk'
  | throw =>
    intro m g hinv hk
    obtain ⟨k', hk', hok⟩ := h m g hinv hk
    exact hok m g hinv hk'
  | instr i next =>
    intro m g hinv hk
    obtain ⟨k', hk', hok⟩ := h m g hinv hk
    exact hok m g hinv hk'

/-- Knowing more does no harm. -/
theorem Ok.weaken {prog : Prog I A R} {k' : K} (hok : L.Ok t Q prog p k)
    (h : ∀ m g, L.inv m g → L.knows k' t m g → L.knows k t m g) : L.Ok t Q prog p k' :=
  ok_of_moment fun m g hinv hk => ⟨k, h m g hinv hk, hok⟩

/-- The result of an attempt that meets the specification of `op`. -/
def post (L : CallLogic impl obj G K) (t : T) (op : Op) (r : Option Ans) (p : Phase Op Ans)
    (m : S) (g : G) : Prop :=
  L.knows L.rest t m g ∧
    match r with
    | none => p = .pending op
    | some a => p = .done op a

/-- A sequence, by way of what is known in between. -/
theorem ok_bind {prog : Prog I A R'} {f : R' → Prog I A R} :
    L.Ok t Q (prog >>= f) p k ↔
      L.Ok t (fun r p' m g => ∃ k', L.knows k' t m g ∧ L.Ok t Q (f r) p' k') prog p k := by
  show L.Ok t Q (prog.bind f) p k ↔ _
  induction prog generalizing p k with
  | ret r =>
    constructor
    · intro hok m g _ hk
      exact ⟨k, hk, hok⟩
    · exact ok_of_moment
  | throw => exact Iff.rfl
  | instr i next ih =>
    refine forall₄_congr fun m g _ _ => and_congr_right fun _ => forall₃_congr fun a m' _ => ?_
    refine exists_congr fun g' => exists_congr fun p' => exists_congr fun k' => ?_
    exact and_congr_right fun _ => and_congr_right fun _ => and_congr_right fun _ =>
      and_congr_right fun _ => ih a

/-- The rule of sequences with a named condition in between. -/
theorem Ok.bind {prog : Prog I A R'} {f : R' → Prog I A R}
    {mid : R' → Phase Op Ans → S → G → Prop} (hok : L.Ok t mid prog p k)
    (h : ∀ r p' m g, L.inv m g → mid r p' m g →
      ∃ k', L.knows k' t m g ∧ L.Ok t Q (f r) p' k') : L.Ok t Q (prog >>= f) p k := by
  rw [ok_bind]
  induction prog generalizing p k with
  | ret r => exact fun m g hinv hk => h r p m g hinv (hok m g hinv hk)
  | throw => exact hok
  | instr i next ih =>
    intro m g hinv hk
    obtain ⟨hsafe, hnext⟩ := hok m g hinv hk
    refine ⟨hsafe, fun a m' hexec => ?_⟩
    obtain ⟨g', p', k', hinv', hk', hrely, hhappens, hok'⟩ := hnext a m' hexec
    exact ⟨g', p', k', hinv', hk', hrely, hhappens, ih a hok'⟩

/-- One instruction and what comes next. -/
theorem ok_exec {i : I} {next : A i → Prog I A R} :
    L.Ok t Q (Prog.exec i >>= next) p k ↔ L.Ok t Q (.instr i next) p k :=
  Iff.rfl

/-! ### What comes next -/

/-- The same, and on the way every instruction satisfies `W` together with what comes next. -/
def Watched (L : CallLogic impl obj G K) (W : Watch I A R S G) (t : T)
    (Q : R → Phase Op Ans → S → G → Prop) : Prog I A R → Phase Op Ans → K → Prop
  | .ret r, p, k => ∀ m g, L.inv m g → L.knows k t m g → Q r p m g
  | .throw, _, k => ∀ m g, L.inv m g → ¬ L.knows k t m g
  | .instr i next, p, k => ∀ m g, L.inv m g → L.knows k t m g → (L.safe t i m g ∧ W i next m g) ∧
      ∀ a m', impl.exec t i m a m' → ∃ g' p' k', L.inv m' g' ∧ L.knows k' t m' g' ∧
        (∀ u, u ≠ t → L.rely u m g m' g') ∧ Happens obj (L.value g) (L.value g') p p' ∧
        Watched L W t Q (next a) p' k'

theorem watched_of_moment {W : Watch I A R S G} {prog : Prog I A R}
    (h : ∀ m g, L.inv m g → L.knows k t m g → ∃ k', L.knows k' t m g ∧
      L.Watched W t Q prog p k') : L.Watched W t Q prog p k := by
  cases prog with
  | ret r =>
    intro m g hinv hk
    obtain ⟨k', hk', hok⟩ := h m g hinv hk
    exact hok m g hinv hk'
  | throw =>
    intro m g hinv hk
    obtain ⟨k', hk', hok⟩ := h m g hinv hk
    exact hok m g hinv hk'
  | instr i next =>
    intro m g hinv hk
    obtain ⟨k', hk', hok⟩ := h m g hinv hk
    exact hok m g hinv hk'

/-- A first part that satisfies its own specification, and of which only the results matter. -/
theorem Ok.watched_bind {W : Watch I A R S G} {P : R' → Prop}
    {prog : Prog I A R'} {f : R' → Prog I A R} {mid : R' → Phase Op Ans → S → G → Prop}
    (hok : L.Ok t mid prog p k) (hends : prog.EndsIn P)
    (hW : ∀ i (next : A i → Prog I A R') m g, (∀ a, (next a).EndsIn P) →
      W i (fun a => next a >>= f) m g)
    (h : ∀ r p' m g, L.inv m g → mid r p' m g →
      ∃ k', L.knows k' t m g ∧ L.Watched W t Q (f r) p' k') :
    L.Watched W t Q (prog >>= f) p k := by
  induction prog generalizing p k with
  | ret r => exact watched_of_moment fun m g hinv hk => h r p m g hinv (hok m g hinv hk)
  | throw => exact hok
  | instr i next ih =>
    intro m g hinv hk
    obtain ⟨hsafe, hnext⟩ := hok m g hinv hk
    refine ⟨⟨hsafe, hW i next m g hends⟩, fun a m' hexec => ?_⟩
    obtain ⟨g', p', k', hinv', hk', hrely, hhappens, hok'⟩ := hnext a m' hexec
    exact ⟨g', p', k', hinv', hk', hrely, hhappens, ih a hok' (hends a)⟩

/-- A condition that says nothing is met by whatever is specified. -/
theorem Ok.watched {W : Watch I A R S G} {prog : Prog I A R}
    (hok : L.Ok t Q prog p k) (hW : ∀ i next m g, W i next m g) : L.Watched W t Q prog p k := by
  induction prog generalizing p k with
  | ret r => exact hok
  | throw => exact hok
  | instr i next ih =>
    intro m g hinv hk
    obtain ⟨hsafe, hnext⟩ := hok m g hinv hk
    refine ⟨⟨hsafe, hW i next m g⟩, fun a m' hexec => ?_⟩
    obtain ⟨g', p', k', hinv', hk', hrely, hhappens, hok'⟩ := hnext a m' hexec
    exact ⟨g', p', k', hinv', hk', hrely, hhappens, ih a hok'⟩

theorem Watched.ok {W : Watch I A R S G} {prog : Prog I A R}
    (h : L.Watched W t Q prog p k) : L.Ok t Q prog p k := by
  induction prog generalizing p k with
  | ret r => exact h
  | throw => exact h
  | instr i next ih =>
    intro m g hinv hk
    obtain ⟨⟨hsafe, -⟩, hnext⟩ := h m g hinv hk
    refine ⟨hsafe, fun a m' hexec => ?_⟩
    obtain ⟨g', p', k', hinv', hk', hrely, hhappens, h'⟩ := hnext a m' hexec
    exact ⟨g', p', k', hinv', hk', hrely, hhappens, ih a h'⟩

/-! ### From one thread to all -/

/-- What a thread's place in its program says about the atomic object. -/
def Matches (L : CallLogic impl obj G K) (W : Op → Watch I A (Option Ans) S G) (t : T) (m : S)
    (g : G) : CallState Op I A Ans → Phase Op Ans → Prop
  | .idle, p => p = .idle ∧ L.knows L.rest t m g
  | .running op rest, p => (p = .pending op ∨ ∃ a, p = .done op a) ∧
      ∃ k, L.knows k t m g ∧ L.Watched (W op) t (L.post t op) rest p k

variable {W : Op → Watch I A (Option Ans) S G}

theorem Matches.stable {c : CallState Op I A Ans} {m m' : S} {g g' : G}
    (h : L.Matches W t m g c p) (hrely : L.rely t m g m' g') : L.Matches W t m' g' c p := by
  cases c with
  | idle => exact ⟨h.1, L.stable hrely h.2⟩
  | running op rest =>
    obtain ⟨hp, k, hk, hok⟩ := h
    exact ⟨hp, k, L.stable hrely hk, hok⟩

/-- The states of the implementation and of the atomic object that belong together. -/
def Related (L : CallLogic impl obj G K) (W : Op → Watch I A (Option Ans) S G)
    (s : CallStates T S Op I A Ans) (a : AtomicState T X Op Ans) : Prop :=
  ∃ g, L.inv s.memory g ∧ L.value g = a.value ∧
    ∀ t, L.Matches W t s.memory g (s.call t) (a.phase t)

variable [DecidableEq T]

/-- Thread `t` moves from one place to another, the others stay where they are. -/
theorem matches_update {m m' : S} {g g' : G} {c : T → CallState Op I A Ans} {ph : T → Phase Op Ans}
    {c' : CallState Op I A Ans} {p' : Phase Op Ans} (h : ∀ u, L.Matches W u m g (c u) (ph u))
    (hrely : ∀ u, u ≠ t → L.rely u m g m' g') (hself : L.Matches W t m' g' c' p') (u : T) :
    L.Matches W u m' g' (Function.update c t c' u) (Function.update ph t p' u) := by
  by_cases hu : u = t
  · subst hu
    simpa using hself
  · simpa [Function.update_of_ne hu] using (h u).stable (hrely u hu)

/-- The same when nothing happens to the memory. -/
theorem matches_still {m : S} {g : G} {c : T → CallState Op I A Ans} {ph : T → Phase Op Ans}
    {c' : CallState Op I A Ans} {p' : Phase Op Ans} (h : ∀ u, L.Matches W u m g (c u) (ph u))
    (hself : L.Matches W t m g c' p') (u : T) :
    L.Matches W u m g (Function.update c t c' u) (Function.update ph t p' u) := by
  by_cases hu : u = t
  · subst hu
    simpa using hself
  · simpa [Function.update_of_ne hu] using h u

/-- When every attempt is correct for the one thread that runs it, the implementation with all
its threads does what the atomic object does. -/
theorem simulation
    (hcode : ∀ t op n, L.Watched (W op) t (L.post t op) (impl.attempt op n) (.pending op) L.rest) :
    Labelled.Simulation impl.system (obj.system T) (L.Related W) := by
  refine ⟨?_, ?_⟩
  · rintro s ⟨hinit, hidle⟩
    obtain ⟨g, hinv, hvalue, hrest⟩ := L.starts hinit
    refine ⟨⟨L.value g, fun _ => .idle⟩, ⟨hvalue, fun _ => rfl⟩, g, hinv, rfl, fun t => ?_⟩
    rw [hidle t]
    exact ⟨rfl, hrest t⟩
  · rintro s a l s' ⟨g, hinv, hvalue, hthreads⟩ hstep
    cases hstep with
    | @call t op n h =>
      have ht := hthreads t
      rw [h] at ht
      have hself : L.Matches W t s.memory g (.running op (impl.attempt op n)) (.pending op) :=
        ⟨.inl rfl, L.rest, ht.2, hcode t op n⟩
      exact ⟨_, .single (.call op ht.1), g, hinv, hvalue, matches_still hthreads hself⟩
    | @instr t op i next ans m h hexec =>
      have ht := hthreads t
      rw [h] at ht
      obtain ⟨hp, k, hk, hok⟩ := ht
      obtain ⟨g', p', k', hinv', hk', hrely, hhappens, hok'⟩ := (hok _ _ hinv hk).2 ans m hexec
      generalize hph : a.phase t = ph at hp hhappens
      cases hhappens with
      | quiet heq =>
        have hself : L.Matches W t m g' (.running op (next ans)) p' := ⟨hp, k', hk', hok'⟩
        refine ⟨a, .refl, g', hinv', heq.trans hvalue, fun u => ?_⟩
        have hall := matches_update hthreads hrely hself u
        rwa [← hph, Function.update_eq_self] at hall
      | @effect op' ans' happly =>
        obtain rfl : op' = op := by
          rcases hp with hp | ⟨_, hp⟩ <;> cases hp
          rfl
        rw [hvalue] at happly
        refine ⟨_, .single (.happen hph happly), g', hinv', rfl, ?_⟩
        have hself : L.Matches W t m g' (.running op' (next ans)) (.done op' ans') :=
          ⟨.inr ⟨_, rfl⟩, k', hk', hok'⟩
        exact matches_update hthreads hrely hself
    | @restart t op n h =>
      have ht := hthreads t
      rw [h] at ht
      obtain ⟨-, k, hk, hok⟩ := ht
      obtain ⟨hrest, hp⟩ := hok _ _ hinv hk
      have hself : L.Matches W t s.memory g (.running op (impl.attempt op n)) (a.phase t) :=
        ⟨.inl hp, L.rest, hrest, hp ▸ hcode t op n⟩
      refine ⟨a, .refl, g, hinv, hvalue, fun u => ?_⟩
      have hall := matches_still hthreads hself u
      rwa [Function.update_eq_self] at hall
    | @«return» t op ans h =>
      have ht := hthreads t
      rw [h] at ht
      obtain ⟨-, k, hk, hok⟩ := ht
      obtain ⟨hrest, hp⟩ := hok _ _ hinv hk
      have hself : L.Matches W t s.memory g .idle .idle := ⟨rfl, hrest⟩
      exact ⟨_, .single (.return hp), g, hinv, hvalue, matches_still hthreads hself⟩
    | environment h =>
      obtain ⟨g', hinv', heq, hrely⟩ := L.undisturbed hinv h
      exact ⟨a, .refl, g', hinv', heq.trans hvalue, fun u => (hthreads u).stable (hrely u)⟩

variable {ls : List (Event T Op Ans)} {s : CallStates T S Op I A Ans}

/-- Calls and returns are those of the atomic object. -/
theorem linearizable
    (hcode : ∀ t op n, L.Ok t (L.post t op) (impl.attempt op n) (.pending op) L.rest)
    (ht : impl.system.Trace ls s) : ∃ a, (obj.system T).Trace ls a := by
  obtain ⟨a, ha, -⟩ := (L.simulation (W := fun _ _ _ _ _ => True) fun t op n =>
    (hcode t op n).watched fun _ _ _ _ => trivial).trace ht
  exact ⟨a, ha⟩

/-- In every state that is reached the invariant holds, a thread outside of a call knows what it
should, no call throws, and an instruction that comes next is safe and meets its condition. -/
theorem invariant
    (hcode : ∀ t op n, L.Watched (W op) t (L.post t op) (impl.attempt op n) (.pending op) L.rest)
    (ht : impl.system.Trace ls s) : ∃ g, L.inv s.memory g ∧
      (∀ t, s.call t = .idle → L.knows L.rest t s.memory g) ∧
      (∀ t op, s.call t ≠ .running op .throw) ∧
      ∀ t op i next, s.call t = .running op (.instr i next) →
        L.safe t i s.memory g ∧ W op i next s.memory g := by
  obtain ⟨a, -, g, hinv, -, hthreads⟩ := (L.simulation hcode).trace ht
  refine ⟨g, hinv, fun t h => ?_, fun t op h => ?_, fun t op i next h => ?_⟩
  · have ht := hthreads t
    rw [h] at ht
    exact ht.2
  · have ht := hthreads t
    rw [h] at ht
    obtain ⟨-, k, hk, hok⟩ := ht
    exact hok _ _ hinv hk
  · have ht := hthreads t
    rw [h] at ht
    obtain ⟨-, k, hk, hok⟩ := ht
    exact (hok _ _ hinv hk).1

/-- No call throws. -/
theorem never_throws
    (hcode : ∀ t op n, L.Ok t (L.post t op) (impl.attempt op n) (.pending op) L.rest)
    (ht : impl.system.Trace ls s) (t : T) (op : Op) : s.call t ≠ .running op .throw := by
  obtain ⟨g, -, -, hthrow, -⟩ := L.invariant (W := fun _ _ _ _ _ => True)
    (fun t op n => (hcode t op n).watched fun _ _ _ _ => trivial) ht
  exact hthrow t op

end CallLogic

end Logic

end ScaleStore
