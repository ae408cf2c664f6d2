/-
# Conversions between guards

The six converting constructors of `BufferFrameGuards.cpp`, with the move
assignment of `Guard` and the destructors.  A conversion gives its latch back and
takes another one, so between its steps other threads may do anything to the
latch of the frame; what they do is an input of the conversion, an
`Interleaving`.

A conversion is clean when the new guard either holds its latch and nobody had
the frame in between, or is in `RETRY` without a latch and can be destroyed or
assigned to without touching one.  The conversions from an optimistic guard are
always clean; the others are clean exactly when nobody gets in between and the
attempt at a shared latch does not fail for no reason.
-/

import ScaleStore.Lib.VersionLatch

namespace ScaleStore.Guards

open VersionLatch

variable {T F : Type} [DecidableEq T] [DecidableEq F]

/-! ## Guards -/

/-- The values of `STATE` a finished conversion deals with. -/
inductive GuardState where
  | uninitialized
  | retry
  | initialized
  | moved
deriving DecidableEq, Repr

inductive LatchState where
  | unlatched
  | optimistic
  | shared
  | exclusive
deriving DecidableEq, Repr

/-- `Guard`. -/
structure Guard (F : Type) where
  vAcquired : Nat
  frame : Option F
  state : GuardState
  latchState : LatchState
deriving DecidableEq, Repr

/-- `Guard()`. -/
def Guard.fresh : Guard F := ⟨0, none, .uninitialized, .unlatched⟩

/-- The three guard types. -/
inductive Kind where
  | exclusive
  | shared
  | optimistic
deriving DecidableEq, Repr

def Kind.latchState : Kind → LatchState
  | .exclusive => .exclusive
  | .shared => .shared
  | .optimistic => .optimistic

/-- `HybridLatch::unlatchExclusive`: whoever calls it, the writer loses the latch; without one
its `ensure` fails. -/
def unlatchExclusive (s : F → VersionLatch T) (f : F) : Option (F → VersionLatch T) :=
  if (s f).writer = none then none
  else some (Function.update s f { s f with version := (s f).version + 2, writer := none })

/-- `HybridLatch::unlatchShared`: a caller that has no shared latch takes away another one's;
when there is none the behaviour is undefined. -/
def unlatchShared (me : T) (s : F → VersionLatch T) (f : F) : Option (F → VersionLatch T) :=
  if (s f).readers = [] then none
  else if me ∈ (s f).readers then
    some (Function.update s f { s f with readers := (s f).readers.erase me })
  else some (Function.update s f { s f with readers := (s f).readers.tail })

/-- What a move assignment to `g` releases first; it looks at `latchState` only. -/
def Guard.release (me : T) (g : Guard F) (s : F → VersionLatch T) : Option (F → VersionLatch T) :=
  match g.latchState with
  | .exclusive => g.frame.bind (unlatchExclusive s)
  | .shared => g.frame.bind (unlatchShared me s)
  | .optimistic | .unlatched => some s

/-- What a move assignment leaves in its source. -/
def Guard.movedFrom : Guard F := ⟨0, none, .moved, .unlatched⟩

/-- `Guard& operator=(Guard&& other)`: the latches, the target and the source afterwards. -/
def Guard.moveAssign (me : T) (g other : Guard F) (s : F → VersionLatch T) :
    Option ((F → VersionLatch T) × Guard F × Guard F) :=
  (g.release me s).map fun s' => (s', other, .movedFrom)

/-- The destructors; they look at `state` and `latchState`. -/
def Kind.destroy (k : Kind) (me : T) (g : Guard F) (s : F → VersionLatch T) :
    Option (F → VersionLatch T) :=
  match k with
  | .exclusive =>
      if g.state = .initialized ∧ g.latchState = .exclusive then g.frame.bind (unlatchExclusive s)
      else some s
  | .shared =>
      if g.state = .initialized ∧ g.latchState = .shared then g.frame.bind (unlatchShared me s)
      else some s
  | .optimistic => some s

/-! ## Conversions -/

/-- What happens between the steps of a conversion.  All actions are those of other guards. -/
structure Interleaving (T F : Type) where
  /-- Between giving the old latch back and trying for the new one, or checking the version. -/
  between : List (Action T F)
  /-- `try_lock_shared` fails although it need not. -/
  spurious : Bool
  /-- Between getting a shared latch and checking the version. -/
  during : List (Action T F)
  /-- The attempts after which `fix` had to give its latch back, with what others do before and
  while it holds it. -/
  failed : List (List (Action T F) × F × List (Action T F))
  /-- Before `fix` gets its last latch. -/
  before : List (Action T F)
  /-- The frame `fix` returns. -/
  found : F

namespace Interleaving

variable (it : Interleaving T F) (me : T)

/-- One failed attempt of `fix`. -/
def attempt (a : List (Action T F) × F × List (Action T F)) : List (Action T F) :=
  a.1 ++ ⟨me, a.2.1, .lockExclusive⟩ :: (a.2.2 ++ [⟨me, a.2.1, .unlockExclusive⟩])

/-- Everything that happens until `fix(pid, Exclusive())` returns. -/
def fixActions : List (Action T F) :=
  it.failed.flatMap (attempt me) ++ it.before ++ [⟨me, it.found, .lockExclusive⟩]

/-- Nothing of it is done by the converted guard. -/
def Others : Prop :=
  (∀ a ∈ it.between, a.owner ≠ me) ∧ (∀ a ∈ it.during, a.owner ≠ me) ∧
    (∀ x ∈ it.failed, (∀ a ∈ x.1, a.owner ≠ me) ∧ ∀ a ∈ x.2.2, a.owner ≠ me) ∧
    ∀ a ∈ it.before, a.owner ≠ me

end Interleaving

/-- Latches and guards after a conversion, and all that happened to latches on the way. -/
structure Outcome (T F : Type) where
  latches : F → VersionLatch T
  guard : Guard F
  source : Guard F
  trace : List (Action T F)

section Conversions

variable (me : T) (s : F → VersionLatch T) (g : Guard F) (it : Interleaving T F)

/-- `ExclusiveBFGuard(SharedBFGuard&&)`. -/
def sharedToExclusive : Option (Outcome T F) := do
  let f ← g.frame
  let source := { g with state := .moved, latchState := .unlatched }
  let s ← unlatchShared me s f
  let s ← run s (it.fixActions me)
  let v := (s it.found).version
  let state := if it.found ≠ f ∨ v ≠ g.vAcquired + 2 then .retry else .initialized
  return ⟨s, ⟨v, some it.found, state, .exclusive⟩, source,
    ⟨me, f, .unlockShared⟩ :: it.fixActions me⟩

/-- `ExclusiveBFGuard(OptimisticBFGuard&&)`. -/
def optimisticToExclusive : Option (Outcome T F) := do
  let f ← g.frame
  if (s f).version ≠ g.vAcquired then
    return ⟨s, { (Guard.fresh : Guard F) with state := .retry },
      { g with state := .retry, latchState := .unlatched }, []⟩
  let source := { g with state := .moved, latchState := .unlatched }
  let s ← run s (it.fixActions me)
  let v := (s it.found).version
  if it.found ≠ f ∨ v ≠ g.vAcquired + 2 then
    let s ← unlatchExclusive s it.found
    return ⟨s, ⟨v, some it.found, .retry, .unlatched⟩, source,
      it.fixActions me ++ [⟨me, it.found, .unlockExclusive⟩]⟩
  else
    return ⟨s, ⟨v, some it.found, .initialized, .exclusive⟩, source, it.fixActions me⟩

/-- `tryLatchShared` and the comparison with `expected` of the conversions to shared; a failure
leaves the guard as it is, in `RETRY`. -/
def tryShared (s : F → VersionLatch T) (g source : Guard F) (f : F) (expected : Nat)
    (trace : List (Action T F)) : Option (Outcome T F) :=
  match if it.spurious then none else act s ⟨me, f, .lockShared⟩ with
  | none => some ⟨s, { g with state := .retry }, source, trace⟩
  | some s₁ => do
      let s₂ ← run s₁ it.during
      let trace := trace ++ ⟨me, f, .lockShared⟩ :: it.during
      if (s₂ f).version = expected then
        return ⟨s₂, ⟨expected, g.frame, .initialized, .shared⟩, source, trace⟩
      let s₃ ← unlatchShared me s₂ f
      return ⟨s₃, { g with state := .retry }, source, trace ++ [⟨me, f, .unlockShared⟩]⟩

/-- `SharedBFGuard(ExclusiveBFGuard&&)`. -/
def exclusiveToShared : Option (Outcome T F) := do
  let (s, g, source) ← Guard.fresh.moveAssign me g s
  let f ← g.frame
  let s ← unlatchExclusive s f
  let s ← run s it.between
  tryShared me it s g source f (g.vAcquired + 2) (⟨me, f, .unlockExclusive⟩ :: it.between)

/-- `SharedBFGuard(OptimisticBFGuard&&)`. -/
def optimisticToShared : Option (Outcome T F) := do
  let (s, g, source) ← Guard.fresh.moveAssign me g s
  let f ← g.frame
  tryShared me it s g source f g.vAcquired []

/-- `optimisticCheckOrRestart` at the end of the conversions to optimistic. -/
def checkVersion (s : F → VersionLatch T) (g source : Guard F) (f : F) (expected : Nat)
    (trace : List (Action T F)) : Outcome T F :=
  if (s f).version = expected then
    ⟨s, ⟨expected, g.frame, .initialized, .optimistic⟩, source, trace⟩
  else ⟨s, { g with state := .retry }, source, trace⟩

/-- `OptimisticBFGuard(ExclusiveBFGuard&&)`. -/
def exclusiveToOptimistic : Option (Outcome T F) := do
  let (s, g, source) ← Guard.fresh.moveAssign me g s
  let f ← g.frame
  let s ← unlatchExclusive s f
  let s ← run s it.between
  return checkVersion s g source f (g.vAcquired + 2) (⟨me, f, .unlockExclusive⟩ :: it.between)

/-- `OptimisticBFGuard(SharedBFGuard&&)`. -/
def sharedToOptimistic : Option (Outcome T F) := do
  let (s, g, source) ← Guard.fresh.moveAssign me g s
  let f ← g.frame
  let s ← unlatchShared me s f
  let s ← run s it.between
  return checkVersion s g source f g.vAcquired (⟨me, f, .unlockShared⟩ :: it.between)

end Conversions

/-- The six conversions. -/
inductive Conversion where
  | sharedToExclusive
  | optimisticToExclusive
  | exclusiveToShared
  | optimisticToShared
  | exclusiveToOptimistic
  | sharedToOptimistic
deriving DecidableEq, Repr

namespace Conversion

def sourceKind : Conversion → Kind
  | .sharedToExclusive | .sharedToOptimistic => .shared
  | .exclusiveToShared | .exclusiveToOptimistic => .exclusive
  | .optimisticToExclusive | .optimisticToShared => .optimistic

def target : Conversion → Kind
  | .sharedToExclusive | .optimisticToExclusive => .exclusive
  | .exclusiveToShared | .optimisticToShared => .shared
  | .exclusiveToOptimistic | .sharedToOptimistic => .optimistic

def convert (conv : Conversion) (me : T) (s : F → VersionLatch T) (g : Guard F)
    (it : Interleaving T F) : Option (Outcome T F) :=
  match conv with
  | .sharedToExclusive => Guards.sharedToExclusive me s g it
  | .optimisticToExclusive => Guards.optimisticToExclusive me s g it
  | .exclusiveToShared => Guards.exclusiveToShared me s g it
  | .optimisticToShared => Guards.optimisticToShared me s g it
  | .exclusiveToOptimistic => Guards.exclusiveToOptimistic me s g it
  | .sharedToOptimistic => Guards.sharedToOptimistic me s g it

/-- Nobody has the frame exclusively between the two latches, and a shared latch that can be taken
is taken.  The frame `fix` returns is the same one, and its exclusive section is the only one until
then. -/
def Undisturbed (me : T) (it : Interleaving T F) (f : F) : Conversion → Prop
  | .optimisticToExclusive | .optimisticToShared => True
  | .sharedToExclusive => it.found = f ∧ sections f (it.fixActions me) = [me]
  | .exclusiveToShared => sections f it.between = [] ∧ it.spurious = false
  | .exclusiveToOptimistic | .sharedToOptimistic => sections f it.between = []

end Conversion

/-! ## Clean conversions -/

/-- The guard `me` holds exactly the latch of the guard type on `f`, and no other one. -/
def Kind.Holds (k : Kind) (me : T) (s : F → VersionLatch T) (f : F) : Prop :=
  (match k with
    | .exclusive => (s f).writer = some me ∧ me ∉ (s f).readers
    | .shared => (s f).writer = none ∧ (s f).readers.count me = 1
    | .optimistic => ¬ (s f).Held me) ∧
  ∀ f', f' ≠ f → ¬ (s f').Held me

/-- Neither the destructor nor a move assignment to the guard touches a latch. -/
def Inert (k : Kind) (me : T) (g : Guard F) : Prop :=
  ∀ s : F → VersionLatch T, k.destroy me g s = some s ∧
    ∀ other, (g.moveAssign me other s).map Prod.fst = some s

/-- A guard that a conversion can start from. -/
structure Source (k : Kind) (me : T) (s : F → VersionLatch T) (g : Guard F) (f : F) : Prop where
  state : g.state = .initialized
  latchState : g.latchState = k.latchState
  frame : g.frame = some f
  holds : k.Holds me s f
  /-- The version is the one the latch was taken at; that of an optimistic guard may be old. -/
  version : k ≠ .optimistic → g.vAcquired = (s f).version

/-- What a conversion should end in. -/
def Clean (conv : Conversion) (me : T) (f : F) (out : Outcome T F) : Prop :=
  Inert conv.sourceKind me out.source ∧
    ((out.guard.state = .initialized ∧ out.guard.frame = some f ∧
        out.guard.latchState = conv.target.latchState ∧
        out.guard.vAcquired = (out.latches f).version ∧ conv.target.Holds me out.latches f ∧
        sections f out.trace = if conv.target = .exclusive then [me] else []) ∨
      (out.guard.state = .retry ∧ (∀ f', ¬ (out.latches f').Held me) ∧
        Inert conv.target me out.guard))

section Inert

variable {me : T} {g : Guard F} {k : Kind}

theorem inert_of_unlatched (hlatch : g.latchState = .unlatched ∨ g.latchState = .optimistic) :
    Inert k me g := by
  intro s
  constructor
  · cases k <;> rcases hlatch with h | h <;> simp [Kind.destroy, h]
  · intro other
    rcases hlatch with h | h <;> simp [Guard.moveAssign, Guard.release, h]

/-- A guard without a latch whose `latchState` says otherwise is not inert: assigning to it
releases a latch of somebody else, or fails. -/
theorem not_inert_of_latchState
    (hlatch : g.latchState = .exclusive ∨ g.latchState = .shared) : ¬ Inert k me g := by
  intro h
  have hassign := (h fun _ => ⟨0, none, []⟩).2 g
  cases hf : g.frame <;> rcases hlatch with hl | hl <;>
    simp [Guard.moveAssign, Guard.release, hl, hf, unlatchExclusive, unlatchShared] at hassign

end Inert

section Fix

variable {me : T} {s s' : F → VersionLatch T} {it : Interleaving T F}

omit [DecidableEq T] in
theorem held_update_iff {f f' : F} {l : VersionLatch T} :
    (Function.update s f l f').Held me ↔ if f' = f then l.Held me else (s f').Held me := by
  by_cases h : f' = f
  · subst h
    simp
  · simp [h]

theorem not_held_of_others {as : List (Action T F)} (hothers : ∀ a ∈ as, a.owner ≠ me)
    (h : run s as = some s') (hfree : ∀ f, ¬ (s f).Held me) (f : F) : ¬ (s' f).Held me := by
  rw [run_held hothers h f]
  exact hfree f

theorem lockExclusive_holds {f : F} (hfree : ∀ f, ¬ (s f).Held me)
    (h : act s ⟨me, f, .lockExclusive⟩ = some s') : Kind.exclusive.Holds me s' f := by
  obtain ⟨l, hl, rfl⟩ := act_eq_some h
  simp only [VersionLatch.apply, Option.ite_none_right_eq_some, Option.some.injEq] at hl
  obtain ⟨⟨_, hreaders⟩, rfl⟩ := hl
  refine ⟨by simp [hreaders], ?_⟩
  intro f' hne
  rw [held_update_iff, if_neg hne]
  exact hfree f'

theorem unlockExclusive_free {f : F} (hholds : Kind.exclusive.Holds me s f)
    (h : act s ⟨me, f, .unlockExclusive⟩ = some s') (f' : F) : ¬ (s' f').Held me := by
  obtain ⟨l, hl, rfl⟩ := act_eq_some h
  simp only [VersionLatch.apply, Option.ite_none_right_eq_some, Option.some.injEq] at hl
  obtain ⟨_, rfl⟩ := hl
  rw [held_update_iff]
  split
  · simpa [Held] using hholds.1.2
  · exact hholds.2 f' ‹_›

theorem holds_of_others {as : List (Action T F)} {f : F} (hothers : ∀ a ∈ as, a.owner ≠ me)
    (h : run s as = some s') (hholds : Kind.exclusive.Holds me s f) :
    Kind.exclusive.Holds me s' f := by
  have hsame := run_other hothers h f
  refine ⟨⟨hsame.1.mpr hholds.1.1, ?_⟩, ?_⟩
  · rw [← List.count_pos_iff, hsame.2, List.count_pos_iff]
    exact hholds.1.2
  · intro f' hne
    rw [run_held hothers h f']
    exact hholds.2 f' hne

/-- After a failed attempt of `fix` its guard holds nothing. -/
theorem attempt_free {x : List (Action T F) × F × List (Action T F)}
    (hothers : (∀ a ∈ x.1, a.owner ≠ me) ∧ ∀ a ∈ x.2.2, a.owner ≠ me)
    (h : run s (Interleaving.attempt me x) = some s') (hfree : ∀ f, ¬ (s f).Held me) (f : F) :
    ¬ (s' f).Held me := by
  obtain ⟨s₁, h₁, hrest⟩ := run_append h
  obtain ⟨s₂, h₂, hrest⟩ := Option.bind_eq_some_iff.mp hrest
  obtain ⟨s₃, h₃, hlast⟩ := run_append hrest
  have hfree₁ := not_held_of_others hothers.1 h₁ hfree
  have hholds := holds_of_others hothers.2 h₃ (lockExclusive_holds hfree₁ h₂)
  exact unlockExclusive_free hholds (run_singleton hlast) f

theorem failed_free {failed : List (List (Action T F) × F × List (Action T F))}
    (hothers : ∀ x ∈ failed, (∀ a ∈ x.1, a.owner ≠ me) ∧ ∀ a ∈ x.2.2, a.owner ≠ me)
    (h : run s (failed.flatMap (Interleaving.attempt me)) = some s')
    (hfree : ∀ f, ¬ (s f).Held me) (f : F) : ¬ (s' f).Held me := by
  induction failed generalizing s with
  | nil =>
      obtain rfl := Option.some.inj h
      exact hfree f
  | cons x failed ih =>
      rw [List.flatMap_cons] at h
      obtain ⟨s₁, h₁, hrest⟩ := run_append h
      exact ih (fun y hy => hothers y (List.mem_cons_of_mem _ hy)) hrest
        (attempt_free (hothers x List.mem_cons_self) h₁ hfree)

/-- `fix` returns with the exclusive latch of the frame it found, and with nothing else. -/
theorem fix_holds (hothers : it.Others me) (hfree : ∀ f, ¬ (s f).Held me)
    (h : run s (it.fixActions me) = some s') : Kind.exclusive.Holds me s' it.found := by
  obtain ⟨s₁, h₁, hlast⟩ := run_append h
  obtain ⟨s₂, h₂, hbefore⟩ := run_append h₁
  have hfree₂ := failed_free hothers.2.2.1 h₂ hfree
  exact lockExclusive_holds (not_held_of_others hothers.2.2.2 hbefore hfree₂) (run_singleton hlast)

omit [DecidableEq T] in
/-- The last action of `fix` is an exclusive section of its own. -/
theorem sections_fixActions (f : F) : sections f (it.fixActions me) =
    sections f (it.failed.flatMap (Interleaving.attempt me) ++ it.before) ++
      if it.found = f then [me] else [] := by
  rw [Interleaving.fixActions, sections_append]
  congr 1
  by_cases h : it.found = f <;> simp [sections_cons, h]

/-- When the exclusive section of `fix` is the only one on a free latch, its version moves on by
two; and only then. -/
theorem fix_version_iff (hwriter : (s it.found).writer = none)
    (h : run s (it.fixActions me) = some s') :
    (s' it.found).version = (s it.found).version + 2 ↔
      sections it.found (it.fixActions me) = [me] := by
  rw [sections_fixActions, if_pos rfl]
  constructor
  · intro hversion
    have hle := run_version h it.found
    rw [sections_fixActions, if_pos rfl, List.length_append] at hle
    have hnil : (sections it.found
        (it.failed.flatMap (Interleaving.attempt me) ++ it.before)).length = 0 := by
      simp only [List.length_singleton] at hle
      omega
    rw [List.length_eq_zero_iff.mp hnil]
    rfl
  · intro hsections
    obtain ⟨s₁, h₁, hlast⟩ := run_append h
    have hnil := List.append_left_eq_self.mp hsections
    have hquiet := run_quiet hwriter hnil h₁
    obtain ⟨l, hl, rfl⟩ := act_eq_some (run_singleton hlast)
    simp only [VersionLatch.apply, Option.ite_none_right_eq_some, Option.some.injEq] at hl
    obtain ⟨_, rfl⟩ := hl
    simp [hquiet.2]

end Fix

/-! ## When a conversion is clean -/

section Clean

variable {me : T} {s : F → VersionLatch T} {g : Guard F} {f : F} {it : Interleaving T F}
  {out : Outcome T F}

theorem Kind.Holds.free_of_unlatchExclusive {s' : F → VersionLatch T}
    (hholds : Kind.exclusive.Holds me s f) (h : unlatchExclusive s f = some s') :
    (∀ f', ¬ (s' f').Held me) ∧ (s' f).writer = none ∧
      (s' f).version = (s f).version + 2 := by
  simp only [unlatchExclusive, hholds.1.1, reduceCtorEq, if_false, Option.some.injEq] at h
  subst h
  refine ⟨?_, by simp, by simp⟩
  intro f'
  rw [held_update_iff]
  split
  · simpa [Held] using hholds.1.2
  · exact hholds.2 f' ‹_›

theorem Kind.Holds.free_of_unlatchShared {s' : F → VersionLatch T}
    (hholds : Kind.shared.Holds me s f) (h : unlatchShared me s f = some s') :
    (∀ f', ¬ (s' f').Held me) ∧ (s' f).writer = none ∧ (s' f).version = (s f).version := by
  obtain ⟨⟨hwriter, hcount⟩, hfree⟩ := hholds
  have hmem : me ∈ (s f).readers := List.count_pos_iff.mp (by omega)
  have hgone : me ∉ (s f).readers.erase me := by
    rw [← List.count_pos_iff, List.count_erase_self, hcount]
    exact Nat.lt_irrefl 0
  simp only [unlatchShared, List.ne_nil_of_mem hmem, if_false, hmem, if_true,
    Option.some.injEq] at h
  subst h
  refine ⟨?_, by simp [hwriter], by simp⟩
  intro f'
  rw [held_update_iff]
  split
  · simp [Held, hwriter, hgone]
  · exact hfree f' ‹_›

/-- The check at the end of a conversion to optimistic, when nobody had the frame exclusively
at its start. -/
theorem checkVersion_clean_iff {conv : Conversion} {s₁ s₂ : F → VersionLatch T}
    {source : Guard F} {a : Action T F} (htarget : conv.target = .optimistic)
    (hsource : Inert conv.sourceKind me source) (hframe : g.frame = some f)
    (hlatch : g.latchState = .exclusive ∨ g.latchState = .shared)
    (hfree : ∀ f', ¬ (s₁ f').Held me) (hwriter : (s₁ f).writer = none)
    (hothers : ∀ a ∈ it.between, a.owner ≠ me) (ha : a.op ≠ .lockExclusive)
    (hrun : run s₁ it.between = some s₂) :
    Clean conv me f (checkVersion s₂ g source f (s₁ f).version (a :: it.between)) ↔
      sections f it.between = [] := by
  have hsections : sections f (a :: it.between) = sections f it.between := by
    rw [sections_cons, if_neg (fun h => ha h.2)]
  rw [← run_version_eq_iff hwriter hrun]
  unfold checkVersion
  constructor
  · rintro ⟨_, ⟨hstate, _⟩ | ⟨_, _, hinert⟩⟩
    · split at hstate
      · assumption
      · cases hstate
    · split at hinert
      · assumption
      · rw [htarget] at hinert
        exact absurd hinert (not_inert_of_latchState hlatch)
  · intro hversion
    have hquiet := (run_version_eq_iff hwriter hrun).mp hversion
    rw [if_pos hversion]
    refine ⟨hsource, Or.inl ⟨rfl, hframe, by rw [htarget]; rfl, hversion.symm, ?_, ?_⟩⟩
    · rw [htarget]
      have hnone := not_held_of_others hothers hrun hfree
      exact ⟨hnone f, fun f' _ => hnone f'⟩
    · simp [htarget, hsections, hquiet]

/-- `tryLatchShared` and the check behind it, at a state where the guard holds nothing: the new
guard is in order, or keeps its latch state in `RETRY` and holds nothing. -/
theorem tryShared_spec {source : Guard F} {expected : Nat} {trace : List (Action T F)}
    (hfree : ∀ f', ¬ (s f').Held me) (hothers : ∀ a ∈ it.during, a.owner ≠ me)
    (h : tryShared me it s g source f expected trace = some out) :
    out.source = source ∧
      (it.spurious = false ∧ (s f).writer = none ∧ (s f).version = expected ∧
          out.guard = ⟨expected, g.frame, .initialized, .shared⟩ ∧
          (out.latches f).version = expected ∧ Kind.shared.Holds me out.latches f ∧
          sections f out.trace = sections f trace ∨
        (it.spurious = true ∨ (s f).writer ≠ none ∨ (s f).version ≠ expected) ∧
          out.guard = { g with state := .retry } ∧ ∀ f', ¬ (out.latches f').Held me) := by
  unfold tryShared at h
  cases hspurious : it.spurious with
  | true =>
    simp only [hspurious, if_true] at h
    obtain rfl := Option.some.inj h
    exact ⟨rfl, Or.inr ⟨Or.inl rfl, rfl, hfree⟩⟩
  | false =>
    simp only [hspurious, Bool.false_eq_true, if_false] at h
    cases hact : act s ⟨me, f, .lockShared⟩ with
    | none =>
      simp only [hact] at h
      obtain rfl := Option.some.inj h
      refine ⟨rfl, Or.inr ⟨?_, rfl, hfree⟩⟩
      have hreaders : me ∉ (s f).readers := fun hr => hfree f (Or.inr hr)
      right
      left
      intro hwriter
      simp [act, VersionLatch.apply, hwriter, hreaders] at hact
    | some s₁ =>
      simp only [hact] at h
      obtain ⟨s₂, hrun, hrest⟩ := Option.bind_eq_some_iff.mp h
      clear h
      obtain ⟨l, hl, rfl⟩ := act_eq_some hact
      simp only [VersionLatch.apply, Option.ite_none_right_eq_some, Option.some.injEq] at hl
      obtain ⟨⟨hwriter, hreaders⟩, rfl⟩ := hl
      have hheld : Kind.shared.Holds me (Function.update s f
          { s f with readers := me :: (s f).readers }) f := by
        refine ⟨by simp [hwriter, List.count_eq_zero_of_not_mem hreaders], ?_⟩
        intro f' hne
        rw [held_update_iff, if_neg hne]
        exact hfree f'
      obtain ⟨hquiet, hwriter₂, hversion₂⟩ := run_shared hothers
        (f := f) (by simp) (by simp [hwriter]) hrun
      have hholds₂ : Kind.shared.Holds me s₂ f := by
        refine ⟨⟨hwriter₂, ?_⟩, ?_⟩
        · rw [(run_other hothers hrun f).2]
          exact hheld.1.2
        · intro f' hne
          rw [run_held hothers hrun f']
          exact hheld.2 f' hne
      have hversion : (s₂ f).version = (s f).version := by simpa using hversion₂
      by_cases heq : (s₂ f).version = expected
      · simp only [heq, if_true] at hrest
        obtain rfl := Option.some.inj hrest
        refine ⟨rfl, Or.inl ⟨rfl, hwriter, hversion ▸ heq, rfl, heq, hholds₂, ?_⟩⟩
        simp [sections_cons, hquiet]
      · simp only [heq, if_false] at hrest
        obtain ⟨s₃, hunlatch, hrest⟩ := Option.bind_eq_some_iff.mp hrest
        obtain rfl := Option.some.inj hrest
        exact ⟨rfl, Or.inr ⟨Or.inr (Or.inr (hversion ▸ heq)), rfl,
          (hholds₂.free_of_unlatchShared hunlatch).1⟩⟩

theorem sharedToExclusive_clean_iff (hothers : it.Others me) (hsrc : Source .shared me s g f)
    (h : sharedToExclusive me s g it = some out) :
    Clean .sharedToExclusive me f out ↔
      Conversion.Undisturbed me it f .sharedToExclusive := by
  simp only [sharedToExclusive, hsrc.frame, Option.bind_eq_bind, Option.bind_some] at h
  obtain ⟨s₁, hunlatch, h⟩ := Option.bind_eq_some_iff.mp h
  obtain ⟨s₂, hrun, h⟩ := Option.bind_eq_some_iff.mp h
  obtain rfl := Option.some.inj h
  obtain ⟨hfree, hwriter, hversion⟩ := hsrc.holds.free_of_unlatchShared hunlatch
  have hholds := fix_holds hothers hfree hrun
  have hsource : Inert Conversion.sharedToExclusive.sourceKind me
      { g with state := .moved, latchState := .unlatched } := inert_of_unlatched (Or.inl rfl)
  have hv := hsrc.version (by decide)
  simp only [Conversion.Undisturbed]
  constructor
  · rintro ⟨_, ⟨hstate, hframe, _, _, _, hsections⟩ | ⟨_, hnone, _⟩⟩
    · obtain rfl : it.found = f := Option.some.inj hframe
      exact ⟨rfl, by simpa [sections_cons, Conversion.target] using hsections⟩
    · exact absurd (Or.inl hholds.1.1) (hnone it.found)
  · rintro ⟨rfl, hsections⟩
    have hnext := (fix_version_iff hwriter hrun).mpr hsections
    have hsame : (s₂ it.found).version = g.vAcquired + 2 := by omega
    refine ⟨hsource, Or.inl ⟨by simp [hsame], rfl, rfl, rfl, hholds, ?_⟩⟩
    simpa [sections_cons, Conversion.target] using hsections

theorem optimisticToExclusive_clean (hothers : it.Others me) (hsrc : Source .optimistic me s g f)
    (h : optimisticToExclusive me s g it = some out) : Clean .optimisticToExclusive me f out := by
  have hfree : ∀ f', ¬ (s f').Held me := by
    intro f'
    by_cases hf : f' = f
    · rw [hf]
      exact hsrc.holds.1
    · exact hsrc.holds.2 f' hf
  simp only [optimisticToExclusive, hsrc.frame, Option.bind_eq_bind, Option.bind_some] at h
  split at h
  · obtain rfl := Option.some.inj h
    exact ⟨inert_of_unlatched (Or.inl rfl), Or.inr ⟨rfl, hfree, inert_of_unlatched (Or.inl rfl)⟩⟩
  · rename_i hversion
    obtain ⟨s₂, hrun, h⟩ := Option.bind_eq_some_iff.mp h
    have hholds := fix_holds hothers hfree hrun
    split at h
    · obtain ⟨s₃, hunlatch, h⟩ := Option.bind_eq_some_iff.mp h
      obtain rfl := Option.some.inj h
      exact ⟨inert_of_unlatched (Or.inl rfl), Or.inr ⟨rfl,
        (hholds.free_of_unlatchExclusive hunlatch).1, inert_of_unlatched (Or.inl rfl)⟩⟩
    · rename_i hsame
      obtain rfl := Option.some.inj h
      obtain ⟨rfl, hnext⟩ : it.found = f ∧ (s₂ it.found).version = g.vAcquired + 2 := by
        simpa using hsame
      refine ⟨inert_of_unlatched (Or.inl rfl), Or.inl ⟨rfl, rfl, rfl, rfl, hholds, ?_⟩⟩
      -- the version the check has seen leaves room for one exclusive section
      have hle := run_version hrun it.found
      have hsections : sections it.found (it.fixActions me) = _ := sections_fixActions it.found
      rw [if_pos rfl] at hsections
      have hnil : sections it.found
          (it.failed.flatMap (Interleaving.attempt me) ++ it.before) = [] := by
        rw [hsections, List.length_append, List.length_singleton] at hle
        rw [← List.length_eq_zero_iff]
        omega
      simpa [Conversion.target, hnil] using hsections

theorem exclusiveToShared_clean_iff (hothers : it.Others me) (hsrc : Source .exclusive me s g f)
    (h : exclusiveToShared me s g it = some out) :
    Clean .exclusiveToShared me f out ↔
      Conversion.Undisturbed me it f .exclusiveToShared := by
  simp only [exclusiveToShared, Guard.moveAssign, Guard.release, Guard.fresh, Option.map_some,
    Option.bind_eq_bind, Option.bind_some, hsrc.frame] at h
  obtain ⟨s₁, hunlatch, h⟩ := Option.bind_eq_some_iff.mp h
  obtain ⟨s₂, hrun, h⟩ := Option.bind_eq_some_iff.mp h
  obtain ⟨hfree, hwriter, hversion⟩ := hsrc.holds.free_of_unlatchExclusive hunlatch
  obtain ⟨hsource, hres⟩ :=
    tryShared_spec (not_held_of_others hothers.1 hrun hfree) hothers.2.1 h
  have hv := hsrc.version (by decide)
  have hlatch : g.latchState = .exclusive := hsrc.latchState
  have hexpected : g.vAcquired + 2 = (s₁ f).version := by omega
  rw [hexpected] at hres
  simp only [Conversion.Undisturbed]
  rcases hres with ⟨hspurious, _, heq, hguard, hout, hholds, hsections⟩ | ⟨hfailed, hguard, hnone⟩
  · have hquiet := (run_version_eq_iff hwriter hrun).mp heq
    refine iff_of_true ⟨?_, Or.inl ?_⟩ ⟨hquiet, hspurious⟩
    · rw [hsource]
      exact inert_of_unlatched (Or.inl rfl)
    · rw [hguard, hsections]
      exact ⟨rfl, hsrc.frame, rfl, hout.symm, hholds,
        by simp [sections_cons, hquiet, Conversion.target]⟩
  · refine iff_of_false ?_ ?_
    · rintro ⟨_, ⟨hstate, _⟩ | ⟨_, _, hinert⟩⟩
      · rw [hguard] at hstate
        cases hstate
      · rw [hguard] at hinert
        exact not_inert_of_latchState (g := { g with state := .retry }) (Or.inl hlatch) hinert
    · rintro ⟨hquiet, hspurious⟩
      have := run_quiet hwriter hquiet hrun
      rcases hfailed with hs | hw | hne
      · exact absurd hspurious (by simp [hs])
      · exact hw this.1
      · exact hne this.2

theorem optimisticToShared_clean (hothers : it.Others me) (hsrc : Source .optimistic me s g f)
    (h : optimisticToShared me s g it = some out) : Clean .optimisticToShared me f out := by
  simp only [optimisticToShared, Guard.moveAssign, Guard.release, Guard.fresh, Option.map_some,
    Option.bind_eq_bind, Option.bind_some, hsrc.frame] at h
  have hfree : ∀ f', ¬ (s f').Held me := by
    intro f'
    by_cases hf : f' = f
    · rw [hf]
      exact hsrc.holds.1
    · exact hsrc.holds.2 f' hf
  obtain ⟨hsource, hres⟩ := tryShared_spec hfree hothers.2.1 h
  have hlatch : g.latchState = .optimistic := hsrc.latchState
  refine ⟨?_, ?_⟩
  · rw [hsource]
    exact inert_of_unlatched (Or.inl rfl)
  · rcases hres with ⟨_, _, heq, hguard, hout, hholds, hsections⟩ | ⟨_, hguard, hnone⟩
    · left
      rw [hguard, hsections]
      exact ⟨rfl, hsrc.frame, rfl, hout.symm, hholds, by simp [Conversion.target]⟩
    · right
      rw [hguard]
      exact ⟨rfl, hnone, inert_of_unlatched (Or.inr hlatch)⟩

theorem exclusiveToOptimistic_clean_iff (hothers : it.Others me)
    (hsrc : Source .exclusive me s g f) (h : exclusiveToOptimistic me s g it = some out) :
    Clean .exclusiveToOptimistic me f out ↔
      Conversion.Undisturbed me it f .exclusiveToOptimistic := by
  simp only [exclusiveToOptimistic, Guard.moveAssign, Guard.release, Guard.fresh, Option.map_some,
    Option.bind_eq_bind, Option.bind_some, hsrc.frame] at h
  obtain ⟨s₁, hunlatch, h⟩ := Option.bind_eq_some_iff.mp h
  obtain ⟨s₂, hrun, h⟩ := Option.bind_eq_some_iff.mp h
  obtain ⟨hfree, hwriter, hversion⟩ := hsrc.holds.free_of_unlatchExclusive hunlatch
  obtain rfl := Option.some.inj h
  have hv := hsrc.version (by decide)
  rw [show g.vAcquired + 2 = (s₁ f).version by omega]
  exact checkVersion_clean_iff rfl (inert_of_unlatched (Or.inl rfl)) hsrc.frame
    (Or.inl hsrc.latchState) hfree hwriter hothers.1 (by simp) hrun

theorem sharedToOptimistic_clean_iff (hothers : it.Others me)
    (hsrc : Source .shared me s g f) (h : sharedToOptimistic me s g it = some out) :
    Clean .sharedToOptimistic me f out ↔
      Conversion.Undisturbed me it f .sharedToOptimistic := by
  simp only [sharedToOptimistic, Guard.moveAssign, Guard.release, Guard.fresh, Option.map_some,
    Option.bind_eq_bind, Option.bind_some, hsrc.frame] at h
  obtain ⟨s₁, hunlatch, h⟩ := Option.bind_eq_some_iff.mp h
  obtain ⟨s₂, hrun, h⟩ := Option.bind_eq_some_iff.mp h
  obtain ⟨hfree, hwriter, hversion⟩ := hsrc.holds.free_of_unlatchShared hunlatch
  obtain rfl := Option.some.inj h
  have hv := hsrc.version (by decide)
  rw [show g.vAcquired = (s₁ f).version by omega]
  exact checkVersion_clean_iff rfl (inert_of_unlatched (Or.inl rfl)) hsrc.frame
    (Or.inr hsrc.latchState) hfree hwriter hothers.1 (by simp) hrun

/-- A conversion of a valid guard, under any interleaving, is clean exactly when it starts from
an optimistic guard or nobody has the frame exclusively between the two latches. -/
theorem conversion_clean_iff (conv : Conversion) (hothers : it.Others me)
    (hsrc : Source conv.sourceKind me s g f) (h : conv.convert me s g it = some out) :
    Clean conv me f out ↔ conv.Undisturbed me it f := by
  cases conv with
  | sharedToExclusive => exact sharedToExclusive_clean_iff hothers hsrc h
  | optimisticToExclusive => exact iff_of_true (optimisticToExclusive_clean hothers hsrc h) trivial
  | exclusiveToShared => exact exclusiveToShared_clean_iff hothers hsrc h
  | optimisticToShared => exact iff_of_true (optimisticToShared_clean hothers hsrc h) trivial
  | exclusiveToOptimistic => exact exclusiveToOptimistic_clean_iff hothers hsrc h
  | sharedToOptimistic => exact sharedToOptimistic_clean_iff hothers hsrc h

end Clean

/-! ## Two conversions with another thread in between -/

section Disturbed

/-- The frame's latch in shared mode. -/
def sharedLatch : Unit → VersionLatch Bool := fun _ => ⟨4, none, [true]⟩

def sharedGuard : Guard Unit := ⟨4, some (), .initialized, .shared⟩

/-- Another thread has the frame exclusively before `fix` gets it. -/
def beforeFix : Interleaving Bool Unit where
  between := []
  spurious := false
  during := []
  failed := []
  before := [⟨false, (), .lockExclusive⟩, ⟨false, (), .unlockExclusive⟩]
  found := ()

/-- The frame's latch in exclusive mode. -/
def exclusiveLatch : Unit → VersionLatch Bool := fun _ => ⟨6, some true, []⟩

def exclusiveGuard : Guard Unit := ⟨6, some (), .initialized, .exclusive⟩

/-- Another thread takes the frame between the two latches of a downgrade. -/
def betweenLatches : Interleaving Bool Unit where
  between := [⟨false, (), .lockExclusive⟩]
  spurious := false
  during := []
  failed := []
  before := []
  found := ()

theorem sharedGuard_source : Source .shared true sharedLatch sharedGuard () :=
  ⟨rfl, rfl, rfl, ⟨⟨rfl, rfl⟩, fun _ hne => absurd rfl hne⟩, fun _ => rfl⟩

theorem exclusiveGuard_source : Source .exclusive true exclusiveLatch exclusiveGuard () :=
  ⟨rfl, rfl, rfl, ⟨⟨rfl, by decide⟩, fun _ hne => absurd rfl hne⟩, fun _ => rfl⟩

theorem beforeFix_others : beforeFix.Others true := by
  simp [Interleaving.Others, beforeFix]

theorem betweenLatches_others : betweenLatches.Others true := by
  simp [Interleaving.Others, betweenLatches]

/-- A failed upgrade from shared keeps the exclusive latch, and its destructor leaves it; a
failed downgrade to shared still counts as exclusive, and assigning to it takes the latch away
from the other thread. -/
theorem disturbed_conversions_not_clean :
    (∃ out, Conversion.sharedToExclusive.convert true sharedLatch sharedGuard beforeFix = some out ∧
      ¬ Clean .sharedToExclusive true () out ∧ out.guard.state = .retry ∧
      (Kind.exclusive.destroy true out.guard out.latches).map (fun s => (s ()).writer) =
        some (some true)) ∧
    ∃ out, Conversion.exclusiveToShared.convert true exclusiveLatch exclusiveGuard betweenLatches =
        some out ∧
      ¬ Clean .exclusiveToShared true () out ∧ out.guard.state = .retry ∧
      (out.latches ()).writer = some false ∧
      (out.guard.moveAssign true Guard.fresh out.latches).map (fun r => (r.1 ()).writer) =
        some none := by
  constructor
  · refine ⟨_, rfl, ?_, rfl, rfl⟩
    rw [sharedToExclusive_clean_iff beforeFix_others sharedGuard_source rfl]
    exact fun h => absurd h.2 (by decide)
  · refine ⟨_, rfl, ?_, rfl, rfl, rfl⟩
    rw [exclusiveToShared_clean_iff betweenLatches_others exclusiveGuard_source rfl]
    exact fun h => absurd h.1 (by decide)

/-- The same downgrade with nobody in between. -/
theorem conversion_clean_undisturbed :
    ∃ out, Conversion.exclusiveToShared.convert true exclusiveLatch exclusiveGuard
        ⟨[], false, [], [], [], ()⟩ = some out ∧ Clean .exclusiveToShared true () out := by
  have hothers : (⟨[], false, [], [], [], ()⟩ : Interleaving Bool Unit).Others true := by
    simp [Interleaving.Others]
  refine ⟨_, rfl, ?_⟩
  rw [conversion_clean_iff .exclusiveToShared hothers exclusiveGuard_source rfl]
  exact ⟨rfl, rfl⟩

end Disturbed

end ScaleStore.Guards
