/-
# Threads that run alone

What a program does while no other thread moves: it is never stuck, and it ends as the
condition says whatever the instructions answer.  A call that has to be started again
returns when every attempt brings it closer to an attempt that ends it.
-/

import ScaleStore.Lib.Linearizable

namespace ScaleStore

section Alone

variable {S I : Type} {A : I → Type} {R R' : Type}

/-- Run alone from a state, the program ends in `Q`. -/
def Prog.Alone (exec : (i : I) → S → A i → S → Prop) (Q : R → S → Prop) : Prog I A R → S → Prop
  | .ret r, m => Q r m
  | .throw, _ => False
  | .instr i next, m => (∃ a m', exec i m a m') ∧
      ∀ a m', exec i m a m' → Alone exec Q (next a) m'

variable {exec : (i : I) → S → A i → S → Prop} {Q Q' : R → S → Prop} {m : S}

theorem Prog.Alone.mono {prog : Prog I A R} (h : ∀ r m, Q r m → Q' r m)
    (halone : prog.Alone exec Q m) : prog.Alone exec Q' m := by
  induction prog generalizing m with
  | ret r => exact h r m halone
  | throw => exact halone
  | instr i next ih => exact ⟨halone.1, fun a m' hexec => ih a (halone.2 a m' hexec)⟩

theorem Prog.Alone.bind {prog : Prog I A R'} {f : R' → Prog I A R}
    {mid : R' → S → Prop} (halone : prog.Alone exec mid m)
    (h : ∀ r m', mid r m' → (f r).Alone exec Q m') : (prog >>= f).Alone exec Q m := by
  show (prog.bind f).Alone exec Q m
  induction prog generalizing m with
  | ret r => exact h r m halone
  | throw => exact halone
  | instr i next ih => exact ⟨halone.1, fun a m' hexec => ih a (halone.2 a m' hexec)⟩

/-- The program gets from one place to another. -/
inductive Prog.Runs (exec : (i : I) → S → A i → S → Prop) : Prog I A R → S → Prog I A R → S → Prop
  | refl {prog : Prog I A R} {m : S} : Runs exec prog m prog m
  | step {i : I} {next : A i → Prog I A R} {m m' m'' : S} {a : A i} {prog' : Prog I A R}
      (hexec : exec i m a m') (h : Runs exec (next a) m' prog' m'') :
      Runs exec (.instr i next) m prog' m''

theorem Prog.Runs.trans {prog prog' prog'' : Prog I A R} {m' m'' : S}
    (h : Prog.Runs exec prog m prog' m') (h' : Prog.Runs exec prog' m' prog'' m'') :
    Prog.Runs exec prog m prog'' m'' := by
  induction h with
  | refl => exact h'
  | step hexec _ ih => exact .step hexec (ih h')

theorem Prog.Runs.bind {prog prog' : Prog I A R'} {f : R' → Prog I A R} {m' : S}
    (h : Prog.Runs exec prog m prog' m') :
    Prog.Runs exec (prog >>= f) m (prog' >>= f) m' := by
  induction h with
  | refl => exact .refl
  | step hexec _ ih => exact .step hexec ih

theorem Prog.Alone.runs {prog : Prog I A R} (halone : prog.Alone exec Q m) :
    ∃ r m', Q r m' ∧ Prog.Runs exec prog m (.ret r) m' := by
  induction prog generalizing m with
  | ret r => exact ⟨r, m, halone, .refl⟩
  | throw => exact halone.elim
  | instr i next ih =>
    obtain ⟨⟨a, m', hexec⟩, hnext⟩ := halone
    obtain ⟨r, m'', hr, hruns⟩ := ih a (hnext a m' hexec)
    exact ⟨r, m'', hr, .step hexec hruns⟩

/-- An instruction with one outcome. -/
theorem Prog.alone_instr {i : I} {next : A i → Prog I A R} {a : A i} {m' : S}
    (hexec : ∀ a' m'', exec i m a' m'' ↔ a' = a ∧ m'' = m') (h : (next a).Alone exec Q m') :
    (Prog.instr i next).Alone exec Q m := by
  refine ⟨⟨a, m', (hexec a m').mpr ⟨rfl, rfl⟩⟩, fun a' m'' hstep => ?_⟩
  obtain ⟨rfl, rfl⟩ := (hexec a' m'').mp hstep
  exact h

end Alone

section Moves

variable {T S Op I Ans : Type} {A : I → Type} [DecidableEq T]
  {impl : Implementation T S Op I A Ans} {exec : (i : I) → S → A i → S → Prop} {t : T}
  {s : CallStates T S Op I A Ans} {op : Op}

theorem Labelled.Moves.trans {L S : Type} {sys : Labelled L S} {s s' s'' : S} {ls ls' : List L}
    (h : sys.Moves s ls s') (h' : sys.Moves s' ls' s'') : sys.Moves s (ls ++ ls') s'' := by
  induction h' with
  | refl => simpa using h
  | tail _ hstep ih =>
    rw [← List.append_assoc]
    exact ih.tail hstep

theorem Labelled.Moves.of_step {L S : Type} {sys : Labelled L S} {s s' : S} {l : Option L}
    {ls : List L} (h : sys.Step s l s') (hl : l.toList = ls) : sys.Moves s ls s' :=
  hl ▸ .single h

/-- What a thread executes, as steps of the implementation. -/
theorem Prog.Runs.moves (hsub : ∀ i m a m', exec i m a m' → impl.exec t i m a m')
    {prog prog' : Prog I A (Option Ans)} {m m' : S} (hruns : Prog.Runs exec prog m prog' m')
    (hmemory : s.memory = m) (hcall : s.call t = .running op prog) :
    impl.system.Moves s [] ⟨m', Function.update s.call t (.running op prog')⟩ := by
  induction hruns generalizing s with
  | refl =>
    subst hmemory
    rw [← hcall, Function.update_eq_self]
    exact .refl
  | @step i next m m' m'' a prog' hexec _ ih =>
    subst hmemory
    have hrest := ih (s := ⟨m', Function.update s.call t (.running op (next a))⟩) rfl (by simp)
    rw [Function.update_idem] at hrest
    have hfirst : impl.system.Moves s [] ⟨m', Function.update s.call t (.running op (next a))⟩ :=
      .of_step (Implementation.Step.instr hcall (hsub i s.memory a m' hexec)) rfl
    exact hfirst.trans hrest

/-- An attempt ends the call, or leaves less than `n` to be done. -/
def EndsOrAdvances (ready : Nat → S → Prop) (final : Ans → S → Prop) (n : Nat) :
    Option Ans → S → Prop
  | some a, m => final a m
  | none, m => ∃ n' < n, ready n' m

/-- Run alone, the program gets to the end of its call, whatever its instructions answer and
whichever of the attempts that are long enough it starts again with. -/
inductive Prog.Returns (exec : (i : I) → S → A i → S → Prop) (attempt : Nat → Prog I A (Option Ans))
    (enough : S → Nat → Prop) (final : Ans → S → Prop) : Prog I A (Option Ans) → S → Prop
  | ret {a : Ans} {m : S} (h : final a m) : Returns exec attempt enough final (.ret (some a)) m
  | restart {m : S}
      (h : ∀ turns, enough m turns → Returns exec attempt enough final (attempt turns) m) :
      Returns exec attempt enough final (.ret none) m
  | instr {i : I} {next : A i → Prog I A (Option Ans)} {m : S} (hgoes : ∃ a m', exec i m a m')
      (h : ∀ a m', exec i m a m' → Returns exec attempt enough final (next a) m') :
      Returns exec attempt enough final (.instr i next) m

section Returns

variable {attempt : Nat → Prog I A (Option Ans)} {enough : S → Nat → Prop} {final : Ans → S → Prop}

theorem Prog.Alone.returns {Q : Option Ans → S → Prop} {prog : Prog I A (Option Ans)} {m : S}
    (halone : prog.Alone exec Q m)
    (h : ∀ r m', Q r m' → Prog.Returns exec attempt enough final (.ret r) m') :
    Prog.Returns exec attempt enough final prog m := by
  induction prog generalizing m with
  | ret r => exact h r m halone
  | throw => exact halone.elim
  | instr i next ih => exact .instr halone.1 fun a m' hexec => ih a (halone.2 a m' hexec)

/-- A thread alone gets through its call when each attempt ends it or gets closer to its end. -/
theorem returns_of_attempts (ready : Nat → S → Prop)
    (hattempt : ∀ n m, ready n m → ∀ turns, enough m turns →
      (attempt turns).Alone exec (EndsOrAdvances ready final n) m) {n : Nat} {m : S}
    (hready : ready n m) {turns : Nat} (hturns : enough m turns) :
    Prog.Returns exec attempt enough final (attempt turns) m := by
  induction n using Nat.strongRecOn generalizing m turns with
  | ind n ih =>
    refine (hattempt n m hready turns hturns).returns ?_
    rintro (_ | a) m' hr
    · obtain ⟨n', hlt, hready'⟩ := hr
      exact .restart fun turns' hturns' => ih n' hlt hready' hturns'
    · exact .ret hr

/-- So there is a run of the implementation in which it returns. -/
theorem Prog.Returns.moves (hsub : ∀ i m a m', exec i m a m' → impl.exec t i m a m')
    (henough : ∀ m, ∃ turns, enough m turns) {prog : Prog I A (Option Ans)} {m : S}
    (h : Prog.Returns exec (impl.attempt op) enough final prog m) (hmemory : s.memory = m)
    (hcall : s.call t = .running op prog) :
    ∃ a m', final a m' ∧
      impl.system.Moves s [.return t a] ⟨m', Function.update s.call t .idle⟩ := by
  induction h generalizing s with
  | @ret a m hfinal =>
    subst hmemory
    exact ⟨a, s.memory, hfinal, .of_step (.return hcall) rfl⟩
  | @restart m _ ih =>
    subst hmemory
    obtain ⟨turns, hturns⟩ := henough s.memory
    obtain ⟨a, m', hfinal, hmoves⟩ := ih turns hturns
      (s := ⟨s.memory, Function.update s.call t (.running op (impl.attempt op turns))⟩) rfl
      (by simp)
    rw [Function.update_idem] at hmoves
    have hfirst : impl.system.Moves s [] ⟨s.memory, Function.update s.call t
        (.running op (impl.attempt op turns))⟩ := .of_step (.restart turns hcall) rfl
    exact ⟨a, m', hfinal, hfirst.trans hmoves⟩
  | @instr i next m hgoes _ ih =>
    subst hmemory
    obtain ⟨b, m₁, hexec⟩ := hgoes
    obtain ⟨a, m', hfinal, hmoves⟩ := ih b m₁ hexec
      (s := ⟨m₁, Function.update s.call t (.running op (next b))⟩) rfl (by simp)
    rw [Function.update_idem] at hmoves
    have hfirst : impl.system.Moves s [] ⟨m₁, Function.update s.call t (.running op (next b))⟩ :=
      .of_step (.instr hcall (hsub i s.memory b m₁ hexec)) rfl
    exact ⟨a, m', hfinal, hfirst.trans hmoves⟩

/-- The whole call, from an idle thread to an idle thread. -/
theorem moves_of_returns (hsub : ∀ i m a m', exec i m a m' → impl.exec t i m a m')
    (henough : ∀ m, ∃ turns, enough m turns)
    (h : ∀ turns, enough s.memory turns →
      Prog.Returns exec (impl.attempt op) enough final (impl.attempt op turns) s.memory)
    (hidle : s.call t = .idle) :
    ∃ a m, final a m ∧
      impl.system.Moves s [.call t op, .return t a] { s with memory := m } := by
  obtain ⟨turns, hturns⟩ := henough s.memory
  have hfirst : impl.system.Moves s [.call t op]
      { s with call := Function.update s.call t (.running op (impl.attempt op turns)) } :=
    .of_step (Implementation.Step.call op turns hidle) rfl
  obtain ⟨a, m, hfinal, hmoves⟩ := (h turns hturns).moves hsub henough (s :=
    { s with call := Function.update s.call t (.running op (impl.attempt op turns)) }) rfl (by simp)
  rw [Function.update_idem, ← hidle, Function.update_eq_self] at hmoves
  exact ⟨a, m, hfinal, hfirst.trans hmoves⟩

end Returns

end Moves

end ScaleStore
