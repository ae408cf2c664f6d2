/-
# Programs of many threads over shared memory

A program is a tree of atomic instructions, each followed by what comes next for
every answer it may get.  Threads call operations whose code is such a program;
between two instructions of one thread others may execute any number of theirs.

What a thread knows about the memory is a value of a type of its own.  A rule says
what an instruction makes of it, and is sound when knowledge of other threads is
left intact.  Specifications of single programs then hold in every interleaving.
-/

import ScaleStore.Lib.System
import Mathlib.Logic.Function.Basic
import Mathlib.Tactic.Common

namespace ScaleStore

/-- A program with atomic instructions `I`, their answers `A`, and a result. -/
inductive Prog (I : Type) (A : I → Type) (R : Type) where
  | ret (r : R)
  | throw
  | instr (i : I) (k : A i → Prog I A R)

namespace Prog

variable {I : Type} {A : I → Type} {R R' : Type}

def bind : Prog I A R → (R → Prog I A R') → Prog I A R'
  | ret r, f => f r
  | throw, _ => throw
  | instr i k, f => instr i fun a => (k a).bind f

instance : Monad (Prog I A) where
  pure := ret
  bind := bind

/-- Every result satisfies `P`. -/
def EndsIn (P : R → Prop) : Prog I A R → Prop
  | ret r => P r
  | throw => True
  | instr _ k => ∀ a, (k a).EndsIn P

/-- One instruction. -/
def exec (i : I) : Prog I A (A i) := instr i ret

/-- An assertion that throws when it fails. -/
def ensure (b : Bool) : Prog I A Unit := if b then ret () else throw

end Prog

section Rules

variable {T S I : Type} {A : I → Type} {R R' K : Type}

/-- What threads can know about the memory, and what the instructions make of it. -/
structure Rules (exec : T → (i : I) → S → A i → S → Prop) (K : Type) where
  inv : S → Prop
  knows : K → T → S → Prop
  /-- From the knowledge `k` the instruction `i` may be executed, and whatever it answers leads to
  a knowledge that satisfies the condition. -/
  wp : K → (i : I) → (A i → K → Prop) → Prop
  sound : ∀ {t i k Q m a m'}, inv m → knows k t m → wp k i Q → exec t i m a m' →
    inv m' ∧ ∃ k', Q a k' ∧ knows k' t m'
  frame : ∀ {t u i k Q m a m' k'}, inv m → knows k t m → wp k i Q → exec t i m a m' → u ≠ t →
    knows k' u m → knows k' u m'

variable {exec : T → (i : I) → S → A i → S → Prop} (L : Rules exec K)

/-- The program does not throw, and its result satisfies `post`. -/
def Rules.Ok (post : R → K → Prop) : Prog I A R → K → Prop
  | .ret r, k => post r k
  | .throw, _ => False
  | .instr i next, k => L.wp k i fun a k' => Ok post (next a) k'

namespace Rules

variable {L} {post : R → K → Prop} {k : K}

@[simp] theorem ok_ret (r : R) : L.Ok post (.ret r) k ↔ post r k := Iff.rfl

@[simp] theorem ok_pure (r : R) : L.Ok post (pure r) k ↔ post r k := Iff.rfl

@[simp] theorem ok_throw : L.Ok post (.throw : Prog I A R) k ↔ False := Iff.rfl

@[simp] theorem ok_exec {i : I} {post : A i → K → Prop} :
    L.Ok post (Prog.exec i) k ↔ L.wp k i post := Iff.rfl

@[simp] theorem ok_ensure {b : Bool} {post : Unit → K → Prop} :
    L.Ok post (Prog.ensure b) k ↔ b = true ∧ post () k := by
  cases b <;> simp [Prog.ensure]

@[simp] theorem ok_ite {c : Prop} [Decidable c] {p q : Prog I A R} :
    L.Ok post (if c then p else q) k ↔ if c then L.Ok post p k else L.Ok post q k := by
  split <;> rfl

/-- A sequence is specified by its first part. -/
@[simp] theorem ok_bind {p : Prog I A R'} {f : R' → Prog I A R} :
    L.Ok post (p >>= f) k ↔ L.Ok (fun r k' => L.Ok post (f r) k') p k := by
  suffices h : L.Ok post (p.bind f) k = L.Ok (fun r k' => L.Ok post (f r) k') p k from
    iff_of_eq h
  induction p generalizing k with
  | ret r => rfl
  | throw => rfl
  | instr i next ih =>
    show L.wp k i _ = L.wp k i _
    congr 1
    funext a k'
    exact ih a

end Rules

end Rules

/-! ## Threads -/

/-- What a thread is doing: nothing, between two calls, or an operation. -/
inductive Activity (H Op I : Type) (A : I → Type) (R : Type) where
  | idle (h : H)
  | running (h : H) (op : Op) (rest : Prog I A R)

/-- Operations, when they may be called, and what the caller goes by afterwards. -/
structure Interface (S H Op I : Type) (A : I → Type) (R : Type) where
  code : Op → Prog I A R
  may : S → H → Op → Prop
  after : H → Op → R → H

structure Threads (T S H Op I : Type) (A : I → Type) (R : Type) where
  memory : S
  call : T → Activity H Op I A R

section Threads

variable {T S H Op I : Type} {A : I → Type} {R K : Type} [DecidableEq T]

/-- One step of thread `t`. -/
inductive ThreadStep (exec : T → (i : I) → S → A i → S → Prop) (api : Interface S H Op I A R)
    (t : T) (s : Threads T S H Op I A R) : Threads T S H Op I A R → Prop where
  | start {h op} : s.call t = .idle h → api.may s.memory h op →
    ThreadStep exec api t s
      { s with call := Function.update s.call t (.running h op (api.code op)) }
  | instr {h op i k a m} : s.call t = .running h op (.instr i k) → exec t i s.memory a m →
    ThreadStep exec api t s ⟨m, Function.update s.call t (.running h op (k a))⟩
  | finish {h op r} : s.call t = .running h op (.ret r) →
    ThreadStep exec api t s
      { s with call := Function.update s.call t (.idle (api.after h op r)) }

/-- The runs of all threads from the memories `init`. -/
def threads (exec : T → (i : I) → S → A i → S → Prop) (api : Interface S H Op I A R)
    (init : S → Prop) (h₀ : H) : System (Threads T S H Op I A R) where
  Init s := init s.memory ∧ ∀ t, s.call t = .idle h₀
  Step s s' := ∃ t, ThreadStep exec api t s s'

variable {exec : T → (i : I) → S → A i → S → Prop} {api : Interface S H Op I A R}
  {L : Rules exec K}

/-- What callers go by is true, and every operation meets its specification. -/
structure Specified (L : Rules exec K) (api : Interface S H Op I A R) (fits : H → K → Prop)
    (post : H → Op → R → K → Prop) : Prop where
  code : ∀ {m t h op k}, L.inv m → L.knows k t m → fits h k → api.may m h op →
    L.Ok (post h op) (api.code op) k
  after : ∀ {h op r k}, post h op r k → fits (api.after h op r) k

variable {fits : H → K → Prop} {post : H → Op → R → K → Prop} {s s' : Threads T S H Op I A R}
  {t : T}

/-- Thread `t` runs `op` and will return with `Q`. -/
def Rules.Running (L : Rules exec K) (t : T) (h : H) (op : Op) (Q : R → K → Prop)
    (s : Threads T S H Op I A R) : Prop :=
  ∃ rest k, s.call t = .running h op rest ∧ L.knows k t s.memory ∧ L.Ok Q rest k

/-- What a thread goes by between its calls is true; what it runs will return as specified. -/
def Rules.Sane (L : Rules exec K) (fits : H → K → Prop) (post : H → Op → R → K → Prop)
    (s : Threads T S H Op I A R) : Prop :=
  L.inv s.memory ∧ ∀ t,
    (∃ h k, s.call t = .idle h ∧ fits h k ∧ L.knows k t s.memory) ∨
    ∃ h op, L.Running t h op (post h op) s

omit [DecidableEq T] in
/-- An instruction is always one that the thread may execute. -/
theorem Rules.Sane.instr (hs : L.Sane fits post s) {h : H} {op : Op} {i : I}
    {next : A i → Prog I A R} (hcall : s.call t = .running h op (.instr i next)) :
    ∃ k, L.knows k t s.memory ∧ L.wp k i fun a k' => L.Ok (post h op) (next a) k' := by
  obtain ⟨h', k, hidle, -⟩ | ⟨h', op', rest, k, hrun, hknows, hok⟩ := hs.2 t
  · rw [hcall] at hidle
    cases hidle
  · rw [hcall] at hrun
    cases hrun
    exact ⟨k, hknows, hok⟩

/-- No step takes away what another thread knows. -/
theorem Rules.Sane.frame (hs : L.Sane fits post s) (hstep : ThreadStep exec api t s s') {u : T}
    (hu : u ≠ t) {k : K} (hknows : L.knows k u s.memory) : L.knows k u s'.memory := by
  cases hstep with
  | start hcall hmay => exact hknows
  | instr hcall hexec =>
    obtain ⟨kt, hkt, hwp⟩ := hs.instr hcall
    exact L.frame hs.1 hkt hwp hexec hu hknows
  | finish hcall => exact hknows

theorem ThreadStep.call_of_ne (hstep : ThreadStep exec api t s s') {u : T} (hu : u ≠ t) :
    s'.call u = s.call u := by
  cases hstep <;> simp [Function.update_of_ne hu]

theorem Rules.Sane.step (hspec : Specified L api fits post) (hs : L.Sane fits post s)
    (hstep : ThreadStep exec api t s s') : L.Sane fits post s' := by
  have hothers : ∀ u, u ≠ t →
      (∃ h k, s'.call u = .idle h ∧ fits h k ∧ L.knows k u s'.memory) ∨
      ∃ h op, L.Running u h op (post h op) s' := by
    intro u hu
    have hcall := hstep.call_of_ne hu
    obtain ⟨h, k, hidle, hfits, hknows⟩ | ⟨h, op, rest, k, hrun, hknows, hok⟩ := hs.2 u
    · exact .inl ⟨h, k, hcall.trans hidle, hfits, hs.frame hstep hu hknows⟩
    · exact .inr ⟨h, op, rest, k, hcall.trans hrun, hs.frame hstep hu hknows, hok⟩
  have hself : L.inv s'.memory ∧
      ((∃ h k, s'.call t = .idle h ∧ fits h k ∧ L.knows k t s'.memory) ∨
        ∃ h op, L.Running t h op (post h op) s') := by
    cases hstep with
    | @start h op hcall hmay =>
      obtain ⟨h', k, hidle, hfits, hknows⟩ | ⟨h', op', rest, k, hrun, -⟩ := hs.2 t
      · rw [hcall] at hidle
        cases hidle
        exact ⟨hs.1, .inr ⟨h, op, api.code op, k, Function.update_self .., hknows,
          hspec.code hs.1 hknows hfits hmay⟩⟩
      · rw [hcall] at hrun
        cases hrun
    | @instr h op i next a m hcall hexec =>
      obtain ⟨k, hknows, hwp⟩ := hs.instr hcall
      obtain ⟨hinv, k', hok, hk'⟩ := L.sound hs.1 hknows hwp hexec
      exact ⟨hinv, .inr ⟨h, op, next a, k', Function.update_self .., hk', hok⟩⟩
    | @finish h op r hcall =>
      obtain ⟨h', k, hidle, -⟩ | ⟨h', op', rest, k, hrun, hknows, hok⟩ := hs.2 t
      · rw [hcall] at hidle
        cases hidle
      · rw [hcall] at hrun
        cases hrun
        exact ⟨hs.1, .inl ⟨_, k, Function.update_self .., hspec.after hok, hknows⟩⟩
  refine ⟨hself.1, fun u => ?_⟩
  by_cases hu : u = t
  · subst hu
    exact hself.2
  · exact hothers u hu

variable {init : S → Prop} {h₀ : H}

/-- The invariant of all runs. -/
theorem Rules.sane (hspec : Specified L api fits post)
    (hinit : ∀ m, init m → L.inv m ∧ ∀ t, ∃ k, fits h₀ k ∧ L.knows k t m)
    (hs : (threads exec api init h₀).Reachable s) : L.Sane fits post s := by
  refine hs.invariant ?_ ?_
  · rintro s ⟨hm, hidle⟩
    obtain ⟨hinv, hknows⟩ := hinit _ hm
    refine ⟨hinv, fun t => .inl ?_⟩
    obtain ⟨k, hfits, hk⟩ := hknows t
    exact ⟨h₀, k, hidle t, hfits, hk⟩
  · rintro s s' - ih ⟨t, hstep⟩
    exact ih.step hspec hstep

omit [DecidableEq T] in
/-- An operation that is about to return does so as specified. -/
theorem Rules.Sane.returns (hs : L.Sane fits post s) {h : H} {op : Op} {r : R}
    (hcall : s.call t = .running h op (.ret r)) :
    ∃ k, L.knows k t s.memory ∧ post h op r k := by
  obtain ⟨h', k, hidle, -⟩ | ⟨h', op', rest, k, hrun, hknows, hok⟩ := hs.2 t
  · rw [hcall] at hidle
    cases hidle
  · rw [hcall] at hrun
    cases hrun
    exact ⟨k, hknows, hok⟩

omit [DecidableEq T] in
/-- No assertion fails. -/
theorem Rules.Sane.not_throw (hs : L.Sane fits post s) (h : H) (op : Op) :
    s.call t ≠ .running h op .throw := by
  intro hcall
  obtain ⟨h', k, hidle, -⟩ | ⟨h', op', rest, k, hrun, hknows, hok⟩ := hs.2 t
  · rw [hcall] at hidle
    cases hidle
  · rw [hcall] at hrun
    cases hrun
    exact hok

/-- The step of thread `t` in which `op`, just called, finds its result. -/
def Decides (exec : T → (i : I) → S → A i → S → Prop) (api : Interface S H Op I A R) (t : T)
    (op : Op) (r : R) (s s' : Threads T S H Op I A R) : Prop :=
  ThreadStep exec api t s s' ∧
    ∃ h, s.call t = .running h op (api.code op) ∧ s'.call t = .running h op (.ret r)

/-- That step is the first instruction of the operation. -/
theorem Decides.first {op : Op} {r : R} (hdecides : Decides exec api t op r s s') {i : I}
    {next : A i → Prog I A R} (hcode : api.code op = .instr i next) :
    ∃ a, exec t i s.memory a s'.memory ∧ next a = .ret r := by
  obtain ⟨hstep, h, hbefore, hafter⟩ := hdecides
  rw [hcode] at hbefore
  cases hstep with
  | start hcall _ =>
    rw [hbefore] at hcall
    cases hcall
  | finish hcall =>
    rw [hbefore] at hcall
    cases hcall
  | @instr _ _ _ _ a m hcall hexec =>
    rw [hbefore] at hcall
    cases hcall
    simp only [Function.update_self] at hafter
    injection hafter with _ _ hret
    exact ⟨a, hexec, hret⟩

/-! ### Runs of one thread -/

theorem reachable_start {h : H} {op : Op} (hs : (threads exec api init h₀).Reachable s)
    (hcall : s.call t = .idle h) (hmay : api.may s.memory h op) :
    ∃ s', (threads exec api init h₀).Reachable s' ∧ s'.memory = s.memory ∧
      s'.call t = .running h op (api.code op) :=
  ⟨_, hs.step ⟨t, .start hcall hmay⟩, rfl, Function.update_self ..⟩

theorem reachable_instr {h : H} {op : Op} {i : I} {next : A i → Prog I A R} {a : A i} {m : S}
    (hs : (threads exec api init h₀).Reachable s)
    (hcall : s.call t = .running h op (.instr i next)) (hexec : exec t i s.memory a m) :
    ∃ s', (threads exec api init h₀).Reachable s' ∧ s'.memory = m ∧
      s'.call t = .running h op (next a) :=
  ⟨_, hs.step ⟨t, .instr hcall hexec⟩, rfl, Function.update_self ..⟩

theorem reachable_finish {h : H} {op : Op} {r : R} (hs : (threads exec api init h₀).Reachable s)
    (hcall : s.call t = .running h op (.ret r)) :
    ∃ s', (threads exec api init h₀).Reachable s' ∧ s'.memory = s.memory ∧
      s'.call t = .idle (api.after h op r) :=
  ⟨_, hs.step ⟨t, .finish hcall⟩, rfl, Function.update_self ..⟩

/-! ### Within one call -/

/-- The thread is in a call. -/
def Threads.InCall (t : T) (s : Threads T S H Op I A R) : Prop :=
  ∃ h op rest, s.call t = .running h op rest

/-- Steps during which thread `t` stays in the same call. -/
def Within (sys : System (Threads T S H Op I A R)) (t : T) :
    Threads T S H Op I A R → Threads T S H Op I A R → Prop :=
  Relation.ReflTransGen fun s s' => sys.Step s s' ∧ s.InCall t ∧ s'.InCall t

omit [DecidableEq T] in
theorem Within.run {sys : System (Threads T S H Op I A R)} (h : Within sys t s s') :
    Relation.ReflTransGen sys.Step s s' := by
  induction h with
  | refl => exact .refl
  | tail _ hstep ih => exact ih.tail hstep.1

/-- What a thread has been found to return with, in the middle of a call, it returns with. -/
theorem Rules.Running.within (hspec : Specified L api fits post) {h : H} {op : Op}
    {Q : R → K → Prop} (hrun : L.Running t h op Q s) (hs : L.Sane fits post s)
    (hwithin : Within (threads exec api init h₀) t s s') : L.Running t h op Q s' := by
  suffices hboth : L.Running t h op Q s' ∧ L.Sane fits post s' from hboth.1
  induction hwithin with
  | refl => exact ⟨hrun, hs⟩
  | tail _ hstep ih =>
    obtain ⟨⟨u, hstep⟩, -, hin⟩ := hstep
    obtain ⟨⟨rest, k, hcall, hknows, hok⟩, hsane⟩ := ih
    refine ⟨?_, hsane.step hspec hstep⟩
    by_cases hu : t = u
    · subst hu
      cases hstep with
      | start hidle hmay =>
        rw [hcall] at hidle
        cases hidle
      | instr hinstr hexec =>
        rw [hcall] at hinstr
        cases hinstr
        obtain ⟨-, k', hok', hk'⟩ := L.sound hsane.1 hknows hok hexec
        exact ⟨_, k', Function.update_self .., hk', hok'⟩
      | finish hret =>
        obtain ⟨h', op', rest', hrunning⟩ := hin
        simp at hrunning
    · exact ⟨rest, k, (hstep.call_of_ne hu).trans hcall, hsane.frame hstep hu hknows, hok⟩

end Threads

end ScaleStore
