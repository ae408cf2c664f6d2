/-
# Waiting at a condition variable

A thread that calls `wait` with a predicate holds the mutex while it evaluates the
predicate, and gives it up in the same step in which it blocks.  It may be woken
without a notification, and takes the mutex again before it looks at the predicate
once more.

A notification reaches only threads that are blocked.  One that is sent while a
thread has evaluated its predicate and not blocked yet is lost, unless the sender
holds the mutex.
-/

import Mathlib.Tactic.Common

namespace ScaleStore

/-- Where a thread is, from locking the mutex to the return from `wait`. -/
inductive WaitPhase where
  | locking
  /-- About to evaluate the predicate. -/
  | testing
  /-- The predicate was false: about to give up the mutex and block. -/
  | releasing
  | blocked
  | woken
  /-- The predicate was true. -/
  | holding
deriving DecidableEq, Repr

namespace WaitPhase

def hasMutex : WaitPhase → Bool
  | testing | releasing | holding => true
  | locking | blocked | woken => false

/-- `notify_one`, if the thread is the only one that can be blocked. -/
def notify : WaitPhase → WaitPhase
  | blocked => woken
  | phase => phase

end WaitPhase

/-- A step of the thread `t` whose predicate has the value `p`; the mutex is given by its owner. -/
inductive WaitStep {T : Type} (t : T) (p : Prop) :
    Option T → WaitPhase → Option T → WaitPhase → Prop where
  | lock : WaitStep t p none .locking (some t) .testing
  | relock : WaitStep t p none .woken (some t) .testing
  | pass {owner} : p → WaitStep t p owner .testing owner .holding
  | fail {owner} : ¬ p → WaitStep t p owner .testing owner .releasing
  | block {owner} : WaitStep t p owner .releasing none .blocked

namespace WaitStep

variable {T : Type} {t : T} {p : Prop} {owner owner' : Option T} {phase phase' : WaitPhase}

theorem ne_blocked (h : WaitStep t p owner phase owner' phase') : phase ≠ .blocked := by
  cases h <;> nofun

/-- A thread can go on unless it is blocked, has returned or wants a mutex that is taken. -/
theorem exists_step (hblocked : phase ≠ .blocked) (hholding : phase ≠ .holding)
    (hfree : phase = .locking ∨ phase = .woken → owner = none) :
    ∃ owner' phase', WaitStep t p owner phase owner' phase' := by
  cases phase with
  | locking =>
    rw [hfree (.inl rfl)]
    exact ⟨_, _, .lock⟩
  | testing =>
    by_cases hp : p
    · exact ⟨_, _, .pass hp⟩
    · exact ⟨_, _, .fail hp⟩
  | releasing => exact ⟨_, _, .block⟩
  | blocked => exact absurd rfl hblocked
  | woken =>
    rw [hfree (.inr rfl)]
    exact ⟨_, _, .relock⟩
  | holding => exact absurd rfl hholding

end WaitStep

end ScaleStore
