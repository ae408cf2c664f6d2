/-
# Latches with a version

A latch that one owner holds exclusively or several hold in shared mode, and a
version that moves on by two whenever the exclusive mode is taken or given back.
Whoever read a version can later tell whether an exclusive section has started
since: as long as nobody holds the latch exclusively, an unchanged version and
the absence of exclusive sections are the same thing.

Runs of any number of owners on any family of latches are lists of actions.
-/

import Mathlib.Data.List.Basic
import Mathlib.Logic.Function.Basic

namespace ScaleStore

/-- A latch and who holds it. -/
structure VersionLatch (T : Type) where
  version : Nat
  writer : Option T
  readers : List T
deriving DecidableEq, Repr

namespace VersionLatch

inductive Op where
  | lockExclusive
  | unlockExclusive
  | lockShared
  | unlockShared
deriving DecidableEq, Repr

/-- An owner does something to one of the latches. -/
structure Action (T F : Type) where
  owner : T
  latch : F
  op : Op
deriving DecidableEq, Repr

variable {T F : Type} [DecidableEq T] [DecidableEq F]

/-- What an owner may do; `none` when the latch is not granted or not held. -/
def apply (l : VersionLatch T) (t : T) : Op → Option (VersionLatch T)
  | .lockExclusive =>
      if l.writer = none ∧ l.readers = [] then
        some { l with version := l.version + 2, writer := some t }
      else none
  | .unlockExclusive =>
      if l.writer = some t then some { l with version := l.version + 2, writer := none } else none
  | .lockShared =>
      if l.writer = none ∧ t ∉ l.readers then some { l with readers := t :: l.readers } else none
  | .unlockShared =>
      if t ∈ l.readers then some { l with readers := l.readers.erase t } else none

def act (s : F → VersionLatch T) (a : Action T F) : Option (F → VersionLatch T) :=
  ((s a.latch).apply a.owner a.op).map (Function.update s a.latch)

def run (s : F → VersionLatch T) : List (Action T F) → Option (F → VersionLatch T)
  | [] => some s
  | a :: as => (act s a).bind fun s' => run s' as

/-- The owners that took the latch `f` exclusively, in order. -/
def sections (f : F) (as : List (Action T F)) : List T :=
  (as.filter fun a => a.latch = f ∧ a.op = .lockExclusive).map Action.owner

/-- The owner holds the latch in one of the modes. -/
def Held (l : VersionLatch T) (t : T) : Prop := l.writer = some t ∨ t ∈ l.readers

omit [DecidableEq T] in
@[simp] theorem sections_nil (f : F) : sections f ([] : List (Action T F)) = [] := rfl

omit [DecidableEq T] in
@[simp] theorem sections_append (f : F) (as bs : List (Action T F)) :
    sections f (as ++ bs) = sections f as ++ sections f bs := by
  simp [sections]

omit [DecidableEq T] in
theorem sections_cons (f : F) (a : Action T F) (as : List (Action T F)) :
    sections f (a :: as) =
      if a.latch = f ∧ a.op = .lockExclusive then a.owner :: sections f as else sections f as := by
  by_cases h : a.latch = f ∧ a.op = .lockExclusive <;> simp [sections, h]

theorem act_eq_some {s s' : F → VersionLatch T} {a : Action T F} (h : act s a = some s') :
    ∃ l, (s a.latch).apply a.owner a.op = some l ∧ s' = Function.update s a.latch l := by
  obtain ⟨l, hl, hs⟩ := Option.map_eq_some_iff.mp h
  exact ⟨l, hl, hs.symm⟩

/-- One owner's action changes nothing about what another owner holds. -/
theorem apply_other {l l' : VersionLatch T} {t u : T} {op : Op} (hne : t ≠ u)
    (h : l.apply t op = some l') :
    (l'.writer = some u ↔ l.writer = some u) ∧ l'.readers.count u = l.readers.count u := by
  cases op <;> simp only [apply, Option.ite_none_right_eq_some, Option.some.injEq] at h <;>
    obtain ⟨hif, rfl⟩ := h
  · simp [hif, hne]
  · simp [hif, hne]
  · simp [List.count_cons_of_ne hne]
  · simp [List.count_erase_of_ne (Ne.symm hne)]

theorem act_other {s s' : F → VersionLatch T} {a : Action T F} {u : T} (hne : a.owner ≠ u)
    (h : act s a = some s') (f : F) :
    ((s' f).writer = some u ↔ (s f).writer = some u) ∧
      (s' f).readers.count u = (s f).readers.count u := by
  obtain ⟨l, hl, rfl⟩ := act_eq_some h
  by_cases hf : f = a.latch
  · subst hf
    simpa using apply_other hne hl
  · simp [Function.update_of_ne hf]

/-- What an owner holds is not changed by the actions of others. -/
theorem run_other {s s' : F → VersionLatch T} {as : List (Action T F)} {u : T}
    (hothers : ∀ a ∈ as, a.owner ≠ u) (h : run s as = some s') (f : F) :
    ((s' f).writer = some u ↔ (s f).writer = some u) ∧
      (s' f).readers.count u = (s f).readers.count u := by
  induction as generalizing s with
  | nil =>
      obtain rfl := Option.some.inj h
      exact ⟨Iff.rfl, rfl⟩
  | cons a as ih =>
      obtain ⟨s₁, h₁, hrest⟩ := Option.bind_eq_some_iff.mp h
      have hact := act_other (hothers a List.mem_cons_self) h₁ f
      have hrun := ih (fun a ha => hothers a (List.mem_cons_of_mem _ ha)) hrest
      exact ⟨hrun.1.trans hact.1, hrun.2.trans hact.2⟩

theorem run_held {s s' : F → VersionLatch T} {as : List (Action T F)} {u : T}
    (hothers : ∀ a ∈ as, a.owner ≠ u) (h : run s as = some s') (f : F) :
    (s' f).Held u ↔ (s f).Held u := by
  have hsame := run_other hothers h f
  unfold Held
  rw [hsame.1, ← List.count_pos_iff, ← List.count_pos_iff, hsame.2]

theorem run_append {s s' : F → VersionLatch T} {as bs : List (Action T F)}
    (h : run s (as ++ bs) = some s') : ∃ s₁, run s as = some s₁ ∧ run s₁ bs = some s' := by
  induction as generalizing s with
  | nil => exact ⟨s, rfl, h⟩
  | cons a as ih =>
      obtain ⟨s₁, h₁, hrest⟩ := Option.bind_eq_some_iff.mp h
      obtain ⟨s₂, h₂, hbs⟩ := ih hrest
      exact ⟨s₂, by simp [run, h₁, h₂], hbs⟩

theorem run_singleton {s s' : F → VersionLatch T} {a : Action T F} (h : run s [a] = some s') :
    act s a = some s' := by
  simpa [run] using h

/-- Versions never go back, and move on with every exclusive section. -/
theorem act_version {s s' : F → VersionLatch T} {a : Action T F} (h : act s a = some s') (f : F) :
    (s f).version + 2 * (sections f [a]).length ≤ (s' f).version := by
  obtain ⟨l, hl, rfl⟩ := act_eq_some h
  rw [sections_cons]
  by_cases hf : f = a.latch
  · subst hf
    cases hop : a.op <;> simp only [hop, apply, Option.ite_none_right_eq_some,
      Option.some.injEq] at hl <;> obtain ⟨_, rfl⟩ := hl <;> simp
  · simp [Function.update_of_ne hf, Ne.symm hf]

theorem run_version {s s' : F → VersionLatch T} {as : List (Action T F)}
    (h : run s as = some s') (f : F) :
    (s f).version + 2 * (sections f as).length ≤ (s' f).version := by
  induction as generalizing s with
  | nil =>
      obtain rfl := Option.some.inj h
      simp
  | cons a as ih =>
      obtain ⟨s₁, h₁, hrest⟩ := Option.bind_eq_some_iff.mp h
      have hact := act_version h₁ f
      have hrun := ih hrest
      have happend := sections_append f [a] as
      simp only [List.singleton_append] at happend
      rw [happend, List.length_append]
      omega

/-- Without an exclusive section a latch that nobody holds exclusively stays so, at the same
version. -/
theorem run_quiet {s s' : F → VersionLatch T} {as : List (Action T F)} {f : F}
    (hwriter : (s f).writer = none) (hquiet : sections f as = []) (h : run s as = some s') :
    (s' f).writer = none ∧ (s' f).version = (s f).version := by
  induction as generalizing s with
  | nil =>
      obtain rfl := Option.some.inj h
      exact ⟨hwriter, rfl⟩
  | cons a as ih =>
      obtain ⟨s₁, h₁, hrest⟩ := Option.bind_eq_some_iff.mp h
      rw [sections_cons] at hquiet
      split at hquiet
      · cases hquiet
      · rename_i hnot
        have hone : (s₁ f).writer = none ∧ (s₁ f).version = (s f).version := by
          obtain ⟨l, hl, rfl⟩ := act_eq_some h₁
          by_cases hf : f = a.latch
          · subst hf
            cases hop : a.op <;> simp_all [apply] <;> obtain ⟨_, rfl⟩ := hl <;> simp
          · simp [Function.update_of_ne hf, hwriter]
        obtain ⟨hw, hv⟩ := ih hone.1 hquiet hrest
        exact ⟨hw, hv.trans hone.2⟩

/-- With nobody in the exclusive mode, an unchanged version means no exclusive section. -/
theorem run_version_eq_iff {s s' : F → VersionLatch T} {as : List (Action T F)} {f : F}
    (hwriter : (s f).writer = none) (h : run s as = some s') :
    (s' f).version = (s f).version ↔ sections f as = [] := by
  constructor
  · intro heq
    have hle := run_version h f
    rw [← List.length_eq_zero_iff]
    omega
  · intro hquiet
    exact (run_quiet hwriter hquiet h).2

/-- While somebody holds the latch in shared mode nobody else enters an exclusive section. -/
theorem run_shared {s s' : F → VersionLatch T} {as : List (Action T F)} {f : F} {u : T}
    (hothers : ∀ a ∈ as, a.owner ≠ u) (hreader : u ∈ (s f).readers)
    (hwriter : (s f).writer = none) (h : run s as = some s') :
    sections f as = [] ∧ (s' f).writer = none ∧ (s' f).version = (s f).version := by
  have hquiet : sections f as = [] := by
    induction as generalizing s with
    | nil => rfl
    | cons a as ih =>
        obtain ⟨s₁, h₁, hrest⟩ := Option.bind_eq_some_iff.mp h
        have hfirst : ¬ (a.latch = f ∧ a.op = .lockExclusive) := by
          rintro ⟨rfl, hop⟩
          obtain ⟨l, hl, _⟩ := act_eq_some h₁
          simp only [hop, apply, Option.ite_none_right_eq_some] at hl
          rw [hl.1.2] at hreader
          cases hreader
        have hone : sections f [a] = [] := by simp [sections_cons, hfirst]
        rw [sections_cons, if_neg hfirst]
        refine ih (fun a ha => hothers a (List.mem_cons_of_mem _ ha)) ?_ ?_ hrest
        · have hcount := (act_other (hothers a List.mem_cons_self) h₁ f).2
          rw [← List.count_pos_iff] at hreader ⊢
          omega
        · have hrun : run s [a] = some s₁ := by simp [run, h₁]
          exact (run_quiet hwriter hone hrun).1
  exact ⟨hquiet, run_quiet hwriter hquiet h⟩

end VersionLatch

end ScaleStore
