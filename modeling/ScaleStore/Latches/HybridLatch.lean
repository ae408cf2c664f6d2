/-
# `HybridLatch`

A `std::shared_mutex` and a version beside it.  The exclusive operations move the
version on while they have the mutex, so that bit 1 of it is set inside of an
exclusive section; readers that take no latch compare versions instead.

Mutex and version are two variables, and each access to one of them is an atomic
step.  The mutex is assumed to be correct; its `try_lock` may fail at any time.
Versions do not wrap.
-/

import ScaleStore.Lib.Programs
import ScaleStore.Lib.Sections
import Mathlib.Data.Finset.Basic
import Mathlib.Data.Nat.Bitwise

namespace ScaleStore.Latches

/-- `isLatched(version)`. -/
def isLatched (version : Nat) : Bool := version &&& 0b10 == 0b10

theorem isLatched_eq (v : Nat) : isLatched v = decide (v / 2 % 2 = 1) := by
  have hand : v &&& 0b10 = (v.testBit 1).toNat * 2 := Nat.and_two_pow v 1
  rw [isLatched, hand, Nat.testBit_eq_decide_div_mod_eq]
  by_cases h : v / 2 % 2 = 1 <;> simp [h]

@[simp] theorem isLatched_add_two (v : Nat) : isLatched (v + 0b10) = !isLatched v := by
  rw [isLatched_eq, isLatched_eq, Bool.eq_iff_iff]
  simp
  omega

/-- Whether a store of the version belongs to taking the latch or to giving it back. -/
inductive Mark
  | acquire
  | release
deriving DecidableEq, Repr

end ScaleStore.Latches

namespace ScaleStore.HybridLatch

open Latches

/-! ## The operations -/

/-- The atomic accesses to the mutex and to the version. -/
inductive Instr
  | lock
  | tryLock
  | unlock
  | lockShared
  | tryLockShared
  | unlockShared
  | load
  | store (version : Nat) (mark : Mark)
deriving DecidableEq, Repr

def Answer : Instr → Type
  | .tryLock | .tryLockShared => Bool
  | .load => Nat
  | .lock | .unlock | .lockShared | .unlockShared | .store _ _ => Unit

abbrev Code := Prog Instr Answer

/-! `smut` and `version` -/

def lock : Code Unit := .exec Instr.lock
def tryLock : Code Bool := .exec Instr.tryLock
def unlock : Code Unit := .exec Instr.unlock
def lockShared : Code Unit := .exec Instr.lockShared
def tryLockShared : Code Bool := .exec Instr.tryLockShared
def unlockShared : Code Unit := .exec Instr.unlockShared
def load : Code Nat := .exec Instr.load
def store (v : Nat) (mark : Mark) : Code Unit := .exec (Instr.store v mark)

def getVersion : Code Nat := load

def isLatchedNow : Code Bool := do
  return isLatched (← load)

def latchShared : Code Unit := do
  lockShared
  .ensure (!isLatched (← load))

def unlatchShared : Code Unit := unlockShared

def latchExclusive : Code Unit := do
  lock
  let v ← load
  store (v + 0b10) .acquire
  .ensure (isLatched (← load))

def unlatchExclusive : Code Unit := do
  .ensure (isLatched (← load))
  let v ← load
  store (v + 0b10) .release
  .ensure (!isLatched (← load))
  unlock

/-- `tryDowngradeExclusiveToShared` after it has stored `v`. -/
def released (v : Nat) : Code Bool := do
  .ensure (!isLatched (← load))
  unlock
  latchShared
  if v != (← load) then
    unlatchShared
    return false
  return true

def tryDowngradeExclusiveToShared : Code Bool := do
  .ensure (isLatched (← load))
  let v ← load
  store (v + 0b10) .release
  released (v + 0b10)

def tryLatchExclusive : Code Bool := do
  if !(← tryLock) then
    return false
  let v ← load
  store (v + 0b10) .acquire
  return true

def tryLatchShared : Code Bool := tryLockShared

def downgradeExclusiveToOptimistic : Code Nat := do
  let v := (← load) + 0b10
  unlatchExclusive
  return v

def downgradeSharedToOptimistic : Code Nat := do
  let v ← load
  unlatchShared
  return v

def optimisticUpgradeToShared (startRead : Nat) : Code Bool := do
  let v ← load
  if isLatched v then
    return false
  if v != startRead then
    return false
  if !(← tryLatchShared) then
    return false
  if (← load) == startRead then
    return true
  unlatchShared
  return false

def optimisticUpgradeToExclusive (startRead : Nat) : Code Bool := do
  let v ← load
  if v != startRead then
    return false
  let success ← tryLatchExclusive
  if !success then
    return false
  if startRead + 0b10 != (← load) then
    .ensure (isLatched (← load))
    unlatchExclusive
    return false
  .ensure (isLatched (← load))
  return true

def optimisticLatchOrRestart : Code (Option Nat) := do
  let v ← load
  if isLatched v then
    return none
  return some v

def optimisticReadUnlatchOrRestart (startRead : Nat) : Code Bool := do
  return startRead == (← load)

def optimisticCheckOrRestart (version : Nat) : Code Bool :=
  optimisticReadUnlatchOrRestart version

/-! ## The memory -/

/-- The latch, and who is inside an exclusive section: between the version store of the acquire
and that of the release. -/
structure Memory (T : Type) where
  version : Nat
  owner : Option T
  sharers : Finset T
  inside : T → Bool

variable {T : Type} [DecidableEq T]

/-- One atomic step of thread `t`. -/
inductive Exec (t : T) : (i : Instr) → Memory T → Answer i → Memory T → Prop where
  | lock {m} : m.owner = none → m.sharers = ∅ → Exec t .lock m () { m with owner := some t }
  | tryLock {m} : m.owner = none → m.sharers = ∅ →
    Exec t .tryLock m true { m with owner := some t }
  | tryLockFail {m} : Exec t .tryLock m false m
  | unlock {m} : m.owner = some t → Exec t .unlock m () { m with owner := none }
  | lockShared {m} : m.owner = none →
    Exec t .lockShared m () { m with sharers := insert t m.sharers }
  | tryLockShared {m} : m.owner = none →
    Exec t .tryLockShared m true { m with sharers := insert t m.sharers }
  | tryLockSharedFail {m} : Exec t .tryLockShared m false m
  | unlockShared {m} : t ∈ m.sharers →
    Exec t .unlockShared m () { m with sharers := m.sharers.erase t }
  | load {m} : Exec t .load m m.version m
  | store {m} (version : Nat) (mark : Mark) : Exec t (.store version mark) m ()
      { m with version := version, inside := Function.update m.inside t (mark == .acquire) }

/-! ## Calls -/

/-- What a thread has of the latch between its calls. -/
inductive Held
  | nothing
  | shared
  | exclusive
deriving DecidableEq, Repr

inductive Op
  | getVersion
  | isLatched
  | latchShared
  | unlatchShared
  | latchExclusive
  | unlatchExclusive
  | tryDowngradeExclusiveToShared
  | tryLatchExclusive
  | tryLatchShared
  | downgradeExclusiveToOptimistic
  | downgradeSharedToOptimistic
  | optimisticUpgradeToShared (startRead : Nat)
  | optimisticUpgradeToExclusive (startRead : Nat)
  | optimisticLatchOrRestart
  | optimisticReadUnlatchOrRestart (startRead : Nat)
  | optimisticCheckOrRestart (version : Nat)
deriving DecidableEq, Repr

inductive Result
  | unit
  | bool (b : Bool)
  | version (v : Nat)
  | optional (v : Option Nat)
deriving DecidableEq, Repr

def Op.code : Op → Code Result
  | .getVersion => do return .version (← HybridLatch.getVersion)
  | .isLatched => do return .bool (← isLatchedNow)
  | .latchShared => do HybridLatch.latchShared; return .unit
  | .unlatchShared => do HybridLatch.unlatchShared; return .unit
  | .latchExclusive => do HybridLatch.latchExclusive; return .unit
  | .unlatchExclusive => do HybridLatch.unlatchExclusive; return .unit
  | .tryDowngradeExclusiveToShared => do
      return .bool (← HybridLatch.tryDowngradeExclusiveToShared)
  | .tryLatchExclusive => do return .bool (← HybridLatch.tryLatchExclusive)
  | .tryLatchShared => do return .bool (← HybridLatch.tryLatchShared)
  | .downgradeExclusiveToOptimistic => do
      return .version (← HybridLatch.downgradeExclusiveToOptimistic)
  | .downgradeSharedToOptimistic => do
      return .version (← HybridLatch.downgradeSharedToOptimistic)
  | .optimisticUpgradeToShared v => do return .bool (← HybridLatch.optimisticUpgradeToShared v)
  | .optimisticUpgradeToExclusive v => do
      return .bool (← HybridLatch.optimisticUpgradeToExclusive v)
  | .optimisticLatchOrRestart => do return .optional (← HybridLatch.optimisticLatchOrRestart)
  | .optimisticReadUnlatchOrRestart v => do
      return .bool (← HybridLatch.optimisticReadUnlatchOrRestart v)
  | .optimisticCheckOrRestart v => do return .bool (← HybridLatch.optimisticCheckOrRestart v)

/-- What must be held for a call; loads of the version need nothing. -/
def Op.needs : Op → Option Held
  | .getVersion | .isLatched | .optimisticLatchOrRestart | .optimisticReadUnlatchOrRestart _
  | .optimisticCheckOrRestart _ => none
  | .latchShared | .latchExclusive | .tryLatchExclusive | .tryLatchShared
  | .optimisticUpgradeToShared _ | .optimisticUpgradeToExclusive _ => some .nothing
  | .unlatchShared | .downgradeSharedToOptimistic => some .shared
  | .unlatchExclusive | .tryDowngradeExclusiveToShared | .downgradeExclusiveToOptimistic =>
      some .exclusive

/-- What the caller takes itself to hold afterwards. -/
def Op.after (h : Held) : Op → Result → Held
  | .getVersion, _ | .isLatched, _ | .optimisticLatchOrRestart, _
  | .optimisticReadUnlatchOrRestart _, _ | .optimisticCheckOrRestart _, _ => h
  | .latchShared, _ => .shared
  | .latchExclusive, _ => .exclusive
  | .unlatchShared, _ | .unlatchExclusive, _ | .downgradeSharedToOptimistic, _
  | .downgradeExclusiveToOptimistic, _ => .nothing
  | .tryLatchShared, .bool true | .optimisticUpgradeToShared _, .bool true
  | .tryDowngradeExclusiveToShared, .bool true => .shared
  | .tryLatchExclusive, .bool true | .optimisticUpgradeToExclusive _, .bool true => .exclusive
  | .tryLatchShared, _ | .optimisticUpgradeToShared _, _ | .tryDowngradeExclusiveToShared, _
  | .tryLatchExclusive, _ | .optimisticUpgradeToExclusive _, _ => .nothing

/-- Calls in lock and unlock pairs. -/
def interface (T : Type) : Interface (Memory T) Held Op Instr Answer Result where
  code := Op.code
  may _ h op := ∀ h', op.needs = some h' → h = h'
  after h op r := op.after h r

abbrev State (T : Type) := Threads T (Memory T) Held Op Instr Answer Result

/-- All interleavings of any number of threads on a new latch. -/
def latch (T : Type) [DecidableEq T] : System (State T) :=
  threads Exec (interface T)
    (fun m => m.version = 0b100 ∧ m.owner = none ∧ m.sharers = ∅ ∧ ∀ t, m.inside t = false)
    .nothing

/-! ## What a thread knows -/

/-- What a thread holds, and at which version. -/
inductive Knows
  | nothing
  | shared (v : Nat)
  /-- It has the mutex and is outside of an exclusive section. -/
  | locked (v : Nat)
  /-- It is inside an exclusive section. -/
  | inside (v : Nat)

def Knows.holds (t : T) (m : Memory T) : Knows → Prop
  | .nothing => m.owner ≠ some t ∧ t ∉ m.sharers ∧ m.inside t = false
  | .shared v => m.owner ≠ some t ∧ t ∈ m.sharers ∧ m.inside t = false ∧ m.version = v
  | .locked v => m.owner = some t ∧ m.inside t = false ∧ m.version = v
  | .inside v => m.owner = some t ∧ m.inside t = true ∧ m.version = v

/-- The mutex is exclusive or shared, and bit 1 is set while its owner is inside. -/
structure Inv (m : Memory T) : Prop where
  sharers : ∀ t, m.owner = some t → m.sharers = ∅
  owner : ∀ t, m.inside t = true → m.owner = some t
  bit : Latches.isLatched m.version = true ↔ ∃ t, m.inside t = true

/-- The rule of each instruction. -/
def wp : Knows → (i : Instr) → (Answer i → Knows → Prop) → Prop
  | .nothing, .lock, Q => ∀ v, isLatched v = false → Q () (.locked v)
  | .nothing, .tryLock, Q => Q false .nothing ∧ ∀ v, isLatched v = false → Q true (.locked v)
  | .locked _, .unlock, Q => Q () .nothing
  | .nothing, .lockShared, Q => ∀ v, isLatched v = false → Q () (.shared v)
  | .nothing, .tryLockShared, Q =>
      Q false .nothing ∧ ∀ v, isLatched v = false → Q true (.shared v)
  | .shared _, .unlockShared, Q => Q () .nothing
  | .nothing, .load, Q => ∀ v : Nat, Q v .nothing
  | .shared v, .load, Q => Q v (.shared v)
  | .locked v, .load, Q => Q v (.locked v)
  | .inside v, .load, Q => Q v (.inside v)
  | .locked v, .store w .acquire, Q => isLatched v = false ∧ w = v + 0b10 ∧ Q () (.inside w)
  | .inside v, .store w .release, Q => isLatched v = true ∧ w = v + 0b10 ∧ Q () (.locked w)
  | _, _, _ => False

variable {t u : T} {i : Instr} {k : Knows} {Q : Answer i → Knows → Prop} {m m' : Memory T}
  {a : Answer i}

omit [DecidableEq T] in
theorem Inv.free (h : Inv m) (hnone : m.owner = none) :
    isLatched m.version = false ∧ ∀ t, m.inside t = false := by
  have hout : ∀ t, m.inside t = false := by
    intro t
    by_contra hin
    have := h.owner t (by simpa using hin)
    simp [hnone] at this
  refine ⟨?_, hout⟩
  by_contra hbit
  obtain ⟨t, ht⟩ := h.bit.mp (by simpa using hbit)
  simp [hout t] at ht

omit [DecidableEq T] in
/-- A step that moves mutex or version leaves the sections alone. -/
theorem Inv.move (h : Inv m) (hversion : m'.version = m.version) (hinside : m'.inside = m.inside)
    (hsharers : ∀ t, m'.owner = some t → m'.sharers = ∅)
    (howner : ∀ t, m.inside t = true → m'.owner = some t) : Inv m' where
  sharers := hsharers
  owner t ht := howner t (by rwa [hinside] at ht)
  bit := by rw [hversion, hinside]; exact h.bit

/-- The owner enters or leaves its section. -/
theorem Inv.store (h : Inv m) (ht : m.owner = some t) {w : Nat} {mark : Mark}
    (hw : isLatched w = (mark == .acquire)) :
    Inv { m with version := w, inside := Function.update m.inside t (mark == .acquire) } := by
  have hothers : ∀ u, u ≠ t → m.inside u = false := by
    intro u hu
    by_contra hin
    have := (h.owner u (by simpa using hin)).symm.trans ht
    simp [hu] at this
  have hinside : ∀ u, Function.update m.inside t (mark == .acquire) u = true ↔
      u = t ∧ isLatched w = true := by
    intro u
    by_cases hu : u = t
    · subst hu
      simp [hw]
    · simp [hothers u hu, hu]
  exact {
    sharers := h.sharers
    owner := fun u hu => by rw [((hinside u).mp hu).1]; exact ht
    bit := ⟨fun hbit => ⟨t, (hinside t).mpr ⟨rfl, hbit⟩⟩,
      fun ⟨u, hu⟩ => ((hinside u).mp hu).2⟩ }

/-- An instruction does to the memory and to what its thread knows what its rule says. -/
theorem wp_sound (hinv : Inv m) (hk : k.holds t m) (hwp : wp k i Q) (hexec : Exec t i m a m') :
    Inv m' ∧ ∃ k', Q a k' ∧ k'.holds t m' := by
  cases hexec with
  | lock hnone hempty =>
    cases k with
    | nothing =>
      obtain ⟨hbit, hout⟩ := hinv.free hnone
      exact ⟨hinv.move rfl rfl (fun _ _ => hempty) (fun u hu => by simp [hout u] at hu),
        .locked m.version, hwp _ hbit, rfl, hout t, rfl⟩
    | _ => exact hwp.elim
  | tryLock hnone hempty =>
    cases k with
    | nothing =>
      obtain ⟨hbit, hout⟩ := hinv.free hnone
      exact ⟨hinv.move rfl rfl (fun _ _ => hempty) (fun u hu => by simp [hout u] at hu),
        .locked m.version, hwp.2 _ hbit, rfl, hout t, rfl⟩
    | _ => exact hwp.elim
  | tryLockFail =>
    cases k with
    | nothing => exact ⟨hinv, .nothing, hwp.1, hk⟩
    | _ => exact hwp.elim
  | unlock howner =>
    cases k with
    | locked v =>
      refine ⟨hinv.move rfl rfl nofun fun u hu => ?_, .nothing, hwp, nofun, ?_, hk.2.1⟩
      · have := (hinv.owner u hu).symm.trans howner
        simp only [Option.some.injEq] at this
        simp [this, hk.2.1] at hu
      · simp [hinv.sharers t howner]
    | _ => exact hwp.elim
  | lockShared hnone =>
    cases k with
    | nothing =>
      exact ⟨hinv.move rfl rfl (fun u hu => by simp [hnone] at hu) hinv.owner,
        .shared m.version, hwp _ (hinv.free hnone).1, hk.1, Finset.mem_insert_self .., hk.2.2, rfl⟩
    | _ => exact hwp.elim
  | tryLockShared hnone =>
    cases k with
    | nothing =>
      exact ⟨hinv.move rfl rfl (fun u hu => by simp [hnone] at hu) hinv.owner,
        .shared m.version, hwp.2 _ (hinv.free hnone).1, hk.1, Finset.mem_insert_self .., hk.2.2,
        rfl⟩
    | _ => exact hwp.elim
  | tryLockSharedFail =>
    cases k with
    | nothing => exact ⟨hinv, .nothing, hwp.1, hk⟩
    | _ => exact hwp.elim
  | unlockShared hmem =>
    cases k with
    | shared v =>
      refine ⟨hinv.move rfl rfl (fun u hu => ?_) hinv.owner, .nothing, hwp, hk.1,
        fun hin => Finset.notMem_erase _ _ hin, hk.2.2.1⟩
      show m.sharers.erase t = ∅
      rw [hinv.sharers u hu, Finset.erase_empty]
    | _ => exact hwp.elim
  | load =>
    refine ⟨hinv, k, ?_, hk⟩
    cases k with
    | nothing => exact hwp _
    | shared v => rw [hk.2.2.2]; exact hwp
    | locked v => rw [hk.2.2]; exact hwp
    | inside v => rw [hk.2.2]; exact hwp
  | store w mark =>
    cases mark with
    | acquire =>
      cases k with
      | locked v =>
        obtain ⟨hbit, rfl, hQ⟩ := hwp
        exact ⟨hinv.store hk.1 (by simp [hbit]), .inside _, hQ, hk.1, Function.update_self .., rfl⟩
      | _ => exact hwp.elim
    | release =>
      cases k with
      | inside v =>
        obtain ⟨hbit, rfl, hQ⟩ := hwp
        exact ⟨hinv.store hk.1 (by simp [hbit]), .locked _, hQ, hk.1, Function.update_self .., rfl⟩
      | _ => exact hwp.elim

omit [DecidableEq T] in
theorem Knows.holds.of_same (h : k.holds u m) (howner : m'.owner = some u ↔ m.owner = some u)
    (hsharers : u ∈ m'.sharers ↔ u ∈ m.sharers) (hinside : m'.inside u = m.inside u)
    (hversion : k = .nothing ∨ m'.version = m.version) : k.holds u m' := by
  cases k <;> simp_all [Knows.holds]

/-- No instruction takes away what another thread knows. -/
theorem wp_frame {k' : Knows} (hinv : Inv m) (hk : k.holds t m) (hwp : wp k i Q)
    (hexec : Exec t i m a m') (hu : u ≠ t) (hk' : k'.holds u m) : k'.holds u m' := by
  cases hexec with
  | lock hnone hempty | tryLock hnone hempty =>
    exact hk'.of_same (by simp [hnone, hu.symm]) Iff.rfl rfl (.inr rfl)
  | unlock howner =>
    exact hk'.of_same (by simp [howner, hu.symm]) Iff.rfl rfl (.inr rfl)
  | lockShared hnone | tryLockShared hnone =>
    exact hk'.of_same Iff.rfl (by simp [hu]) rfl (.inr rfl)
  | unlockShared hmem =>
    exact hk'.of_same Iff.rfl (by simp [hu]) rfl (.inr rfl)
  | tryLockFail | tryLockSharedFail | load => exact hk'
  | store w mark =>
    -- only the owner of the mutex stores, and then nobody else has it
    have howner : m.owner = some t := by
      cases mark <;> cases k <;> first | exact hwp.elim | exact hk.1
    have hnothing : k' = .nothing := by
      cases k' with
      | nothing => rfl
      | shared v => simp [hinv.sharers t howner, Knows.holds] at hk'
      | locked v | inside v =>
        have := hk'.1.symm.trans howner
        simp [hu] at this
    exact hk'.of_same Iff.rfl Iff.rfl (Function.update_of_ne hu ..) (.inl hnothing)

def rules (T : Type) [DecidableEq T] : Rules (Exec (T := T)) Knows where
  inv := Inv
  knows k t m := k.holds t m
  wp := wp
  sound := wp_sound
  frame := wp_frame

/-! ## Specifications of the operations -/

section Specifications

variable {R : Type} {v w : Nat}

@[simp] theorem ok_lock {Q : Unit → Knows → Prop} :
    (rules T).Ok Q lock .nothing ↔ ∀ v, isLatched v = false → Q () (.locked v) := Iff.rfl

@[simp] theorem ok_tryLock {Q : Bool → Knows → Prop} :
    (rules T).Ok Q tryLock .nothing ↔
      Q false .nothing ∧ ∀ v, isLatched v = false → Q true (.locked v) := Iff.rfl

@[simp] theorem ok_unlock {Q : Unit → Knows → Prop} :
    (rules T).Ok Q unlock (.locked v) ↔ Q () .nothing := Iff.rfl

@[simp] theorem ok_lockShared {Q : Unit → Knows → Prop} :
    (rules T).Ok Q lockShared .nothing ↔ ∀ v, isLatched v = false → Q () (.shared v) := Iff.rfl

@[simp] theorem ok_tryLockShared {Q : Bool → Knows → Prop} :
    (rules T).Ok Q tryLockShared .nothing ↔
      Q false .nothing ∧ ∀ v, isLatched v = false → Q true (.shared v) := Iff.rfl

@[simp] theorem ok_unlockShared {Q : Unit → Knows → Prop} :
    (rules T).Ok Q unlockShared (.shared v) ↔ Q () .nothing := Iff.rfl

@[simp] theorem ok_acquire {Q : Unit → Knows → Prop} :
    (rules T).Ok Q (store w .acquire) (.locked v) ↔
      isLatched v = false ∧ w = v + 0b10 ∧ Q () (.inside w) := Iff.rfl

@[simp] theorem ok_release {Q : Unit → Knows → Prop} :
    (rules T).Ok Q (store w .release) (.inside v) ↔
      isLatched v = true ∧ w = v + 0b10 ∧ Q () (.locked w) := Iff.rfl

@[simp] theorem ok_load {Q : Nat → Knows → Prop} :
    (rules T).Ok Q load k ↔ match k with
      | .nothing => ∀ v, Q v .nothing
      | .shared v => Q v (.shared v)
      | .locked v => Q v (.locked v)
      | .inside v => Q v (.inside v) := by
  cases k <;> exact Iff.rfl

@[simp] theorem ok_latchShared {Q : Unit → Knows → Prop} :
    (rules T).Ok Q latchShared .nothing ↔ ∀ v, isLatched v = false → Q () (.shared v) := by
  simp +contextual [latchShared]

@[simp] theorem ok_unlatchShared {Q : Unit → Knows → Prop} :
    (rules T).Ok Q unlatchShared (.shared v) ↔ Q () .nothing := Iff.rfl

@[simp] theorem ok_latchExclusive {Q : Unit → Knows → Prop} :
    (rules T).Ok Q latchExclusive .nothing ↔
      ∀ v, isLatched v = false → Q () (.inside (v + 0b10)) := by
  simp +contextual [latchExclusive]

@[simp] theorem ok_unlatchExclusive {Q : Unit → Knows → Prop} (hv : isLatched v = true) :
    (rules T).Ok Q unlatchExclusive (.inside v) ↔ Q () .nothing := by
  simp [unlatchExclusive, hv]

/-- Once the release is stored, the operation succeeds when the version is still the stored one
under the shared latch. -/
@[simp] theorem ok_released {Q : Bool → Knows → Prop} (hv : isLatched v = false) :
    (rules T).Ok Q (released v) (.locked v) ↔
      ∀ w, isLatched w = false → if v = w then Q true (.shared w) else Q false .nothing := by
  simp [released, hv]

@[simp] theorem ok_tryDowngradeExclusiveToShared {Q : Bool → Knows → Prop}
    (hv : isLatched v = true) :
    (rules T).Ok Q tryDowngradeExclusiveToShared (.inside v) ↔
      ∀ w, isLatched w = false →
        if v + 0b10 = w then Q true (.shared w) else Q false .nothing := by
  simp [tryDowngradeExclusiveToShared, hv]

@[simp] theorem ok_tryLatchExclusive {Q : Bool → Knows → Prop} :
    (rules T).Ok Q tryLatchExclusive .nothing ↔
      Q false .nothing ∧ ∀ v, isLatched v = false → Q true (.inside (v + 0b10)) := by
  simp +contextual [tryLatchExclusive]

@[simp] theorem ok_tryLatchShared {Q : Bool → Knows → Prop} :
    (rules T).Ok Q tryLatchShared .nothing ↔
      Q false .nothing ∧ ∀ v, isLatched v = false → Q true (.shared v) := Iff.rfl

@[simp] theorem ok_downgradeExclusiveToOptimistic {Q : Nat → Knows → Prop}
    (hv : isLatched v = true) :
    (rules T).Ok Q downgradeExclusiveToOptimistic (.inside v) ↔ Q (v + 0b10) .nothing := by
  simp [downgradeExclusiveToOptimistic, hv]

@[simp] theorem ok_downgradeSharedToOptimistic {Q : Nat → Knows → Prop} :
    (rules T).Ok Q downgradeSharedToOptimistic (.shared v) ↔ Q v .nothing := by
  simp [downgradeSharedToOptimistic]

/-- The upgrades succeed only at the version they are called with. -/
theorem ok_optimisticUpgradeToShared {Q : Bool → Knows → Prop} (hfail : Q false .nothing)
    (hsuccess : isLatched v = false → Q true (.shared v)) :
    (rules T).Ok Q (optimisticUpgradeToShared v) .nothing := by
  have hshared : ∀ u, isLatched u = false → if u = v then Q true (.shared u)
      else Q false .nothing := by
    intro u hu
    split
    case isTrue h => subst h; exact hsuccess hu
    case isFalse => exact hfail
  simp only [optimisticUpgradeToShared, Rules.ok_bind, Rules.ok_ite, ok_load, Rules.ok_pure]
  intro w
  split
  · exact hfail
  · split
    · exact hfail
    · simpa [hfail] using hshared

theorem ok_optimisticUpgradeToExclusive {Q : Bool → Knows → Prop} (hfail : Q false .nothing)
    (hsuccess : isLatched v = false → Q true (.inside (v + 0b10))) :
    (rules T).Ok Q (optimisticUpgradeToExclusive v) .nothing := by
  have hlocked : ∀ u, isLatched u = false → if v = u then Q true (.inside (u + 0b10))
      else Q false .nothing := by
    intro u hu
    split
    case isTrue h => subst h; exact hsuccess hu
    case isFalse => exact hfail
  simp only [optimisticUpgradeToExclusive, Rules.ok_bind, Rules.ok_ite, ok_load, Rules.ok_pure]
  intro w
  split
  · exact hfail
  · simpa +contextual [hfail] using hlocked

/-- Loads of the version need nothing and change nothing. -/
theorem ok_load_of_forall {Q : Nat → Knows → Prop} (h : ∀ v, Q v k) : (rules T).Ok Q load k := by
  cases k with
  | nothing => exact h
  | shared v | locked v | inside v => exact h v

end Specifications

/-- What a caller goes by, as knowledge. -/
def Fits : Held → Knows → Prop
  | .nothing, k => k = .nothing
  | .shared, k => ∃ v, k = .shared v ∧ isLatched v = false
  | .exclusive, k => ∃ v, k = .inside v ∧ isLatched v = true

/-- With which version the upgrades succeed. -/
def Upgraded : Op → Result → Knows → Prop
  | .optimisticUpgradeToShared v, .bool true, k => k = .shared v ∧ isLatched v = false
  | .optimisticUpgradeToExclusive v, .bool true, k => k = .inside (v + 0b10) ∧ isLatched v = false
  | _, _, _ => True

def Post (h : Held) (op : Op) (r : Result) (k : Knows) : Prop :=
  Fits (op.after h r) k ∧ Upgraded op r k

theorem specified (T : Type) [DecidableEq T] : Specified (rules T) (interface T) Fits Post where
  after h := h.1
  code := by
    intro m t h op k hinv hk hfits hmay
    show (rules T).Ok (Post h op) op.code k
    have hheld : ∀ h', op.needs = some h' → Fits h' k := fun h' hneeds => hmay h' hneeds ▸ hfits
    cases op with
    | getVersion | isLatched | optimisticReadUnlatchOrRestart v | optimisticCheckOrRestart v =>
      exact ok_load_of_forall fun v => ⟨hfits, trivial⟩
    | optimisticLatchOrRestart =>
      simp only [Op.code, optimisticLatchOrRestart, Rules.ok_bind]
      refine ok_load_of_forall fun v => ?_
      split <;> exact ⟨hfits, trivial⟩
    | latchShared =>
      obtain rfl : k = .nothing := hheld _ rfl
      simp only [Op.code, Rules.ok_bind, ok_latchShared, Rules.ok_pure]
      exact fun v hv => ⟨⟨v, rfl, hv⟩, trivial⟩
    | latchExclusive =>
      obtain rfl : k = .nothing := hheld _ rfl
      simp only [Op.code, Rules.ok_bind, ok_latchExclusive, Rules.ok_pure]
      exact fun v hv => ⟨⟨v + 0b10, rfl, by simp [hv]⟩, trivial⟩
    | tryLatchShared =>
      obtain rfl : k = .nothing := hheld _ rfl
      simp only [Op.code, Rules.ok_bind, ok_tryLatchShared, Rules.ok_pure]
      exact ⟨⟨rfl, trivial⟩, fun v hv => ⟨⟨v, rfl, hv⟩, trivial⟩⟩
    | tryLatchExclusive =>
      obtain rfl : k = .nothing := hheld _ rfl
      simp only [Op.code, Rules.ok_bind, ok_tryLatchExclusive, Rules.ok_pure]
      exact ⟨⟨rfl, trivial⟩, fun v hv => ⟨⟨v + 0b10, rfl, by simp [hv]⟩, trivial⟩⟩
    | unlatchShared =>
      obtain ⟨v, rfl, hv⟩ := hheld _ rfl
      exact ⟨rfl, trivial⟩
    | downgradeSharedToOptimistic =>
      obtain ⟨v, rfl, hv⟩ := hheld _ rfl
      simp only [Op.code, Rules.ok_bind, ok_downgradeSharedToOptimistic, Rules.ok_pure]
      exact ⟨rfl, trivial⟩
    | unlatchExclusive =>
      obtain ⟨v, rfl, hv⟩ := hheld _ rfl
      simp only [Op.code, Rules.ok_bind, ok_unlatchExclusive hv, Rules.ok_pure]
      exact ⟨rfl, trivial⟩
    | downgradeExclusiveToOptimistic =>
      obtain ⟨v, rfl, hv⟩ := hheld _ rfl
      simp only [Op.code, Rules.ok_bind, ok_downgradeExclusiveToOptimistic hv, Rules.ok_pure]
      exact ⟨rfl, trivial⟩
    | tryDowngradeExclusiveToShared =>
      obtain ⟨v, rfl, hv⟩ := hheld _ rfl
      simp only [Op.code, Rules.ok_bind, ok_tryDowngradeExclusiveToShared hv, Rules.ok_pure]
      intro w hw
      split
      · exact ⟨⟨w, rfl, hw⟩, trivial⟩
      · exact ⟨rfl, trivial⟩
    | optimisticUpgradeToShared v =>
      obtain rfl : k = .nothing := hheld _ rfl
      simp only [Op.code, Rules.ok_bind, Rules.ok_pure]
      exact ok_optimisticUpgradeToShared ⟨rfl, trivial⟩ fun hv => ⟨⟨v, rfl, hv⟩, rfl, hv⟩
    | optimisticUpgradeToExclusive v =>
      obtain rfl : k = .nothing := hheld _ rfl
      simp only [Op.code, Rules.ok_bind, Rules.ok_pure]
      exact ok_optimisticUpgradeToExclusive ⟨rfl, trivial⟩ fun hv =>
        ⟨⟨v + 0b10, rfl, by simp [hv]⟩, rfl, hv⟩

/-! ## All interleavings -/

section Runs

variable {s s' s₁ s₂ x : State T} {h : Held} {v : Nat}

theorem sane (hs : (latch T).Reachable s) : (rules T).Sane Fits Post s := by
  refine Rules.sane (specified T) ?_ hs
  rintro m ⟨hversion, howner, hsharers, hinside⟩
  have hinv : Inv m := {
    sharers := fun _ _ => hsharers
    owner := fun t ht => by simp [hinside t] at ht
    bit := by simp [hversion, hinside, isLatched] }
  exact ⟨hinv, fun t => ⟨.nothing, rfl, by simp [howner], by simp [hsharers], hinside t⟩⟩

/-- Only stores touch version and sections, and they move the version on by two. -/
theorem exec_version (hk : k.holds t m) (hwp : wp k i Q) (hexec : Exec t i m a m') :
    (m'.version = m.version ∧ m'.inside = m.inside) ∨ m'.version = m.version + 0b10 := by
  cases hexec with
  | store w mark =>
    right
    cases mark with
    | acquire =>
      cases k with
      | locked v => rw [hk.2.2]; exact hwp.2.1
      | _ => exact hwp.elim
    | release =>
      cases k with
      | inside v => rw [hk.2.2]; exact hwp.2.1
      | _ => exact hwp.elim
  | _ => exact .inl ⟨rfl, rfl⟩

theorem versioned (T : Type) [DecidableEq T] :
    Versioned (latch T) (fun s => s.memory.version) (fun s t => s.memory.inside t = true) := by
  have hstep : ∀ {s s' : State T}, (latch T).Reachable s → (latch T).Step s s' →
      (s'.memory.version = s.memory.version ∧ s'.memory.inside = s.memory.inside) ∨
        s'.memory.version = s.memory.version + 0b10 := by
    rintro s s' hs ⟨t, hstep⟩
    cases hstep with
    | start | finish => exact .inl ⟨rfl, rfl⟩
    | instr hcall hexec =>
      obtain ⟨k, hk, hwp⟩ := (sane hs).instr hcall
      exact exec_version hk hwp hexec
  constructor
  · intro s s' hs h
    rcases hstep hs h with ⟨hv, -⟩ | hv
    · exact .inl hv
    · exact .inr (by omega)
  · intro s s' hs h heq t
    rcases hstep hs h with ⟨-, hin⟩ | hv
    · rw [hin]
    · omega

/-- A state that one run from `s₁` to `s₂` goes through. -/
def Between (s₁ x s₂ : State T) : Prop :=
  Relation.ReflTransGen (latch T).Step s₁ x ∧ Relation.ReflTransGen (latch T).Step x s₂

/-- At an unlatched version nobody is inside, and as long as it stays nobody has been. -/
theorem quiet (hs : (latch T).Reachable s₁) (hx : Between s₁ x s₂)
    (hversion : s₂.memory.version = s₁.memory.version)
    (hv : isLatched s₁.memory.version = false) (t : T) : x.memory.inside t = false := by
  by_contra hin
  have hin₁ := ((versioned T).between hs hx.1 hx.2 hversion t).mp (by simpa using hin)
  have hbit := (sane hs).1.bit.mpr ⟨t, hin₁⟩
  simp [hv] at hbit

/-- Once the release is stored, the thread still has the mutex. -/
theorem released_locked (hs : (rules T).Sane Fits Post s)
    (hcall : s.call t = .running h .tryDowngradeExclusiveToShared
      (do return .bool (← released v))) :
    ∃ w, (Knows.locked w).holds t s.memory ∧ isLatched w = false := by
  obtain ⟨h', k, hidle, -⟩ | ⟨h', op, rest, k, hrun, hk, hok⟩ := hs.2 t
  · rw [hcall] at hidle
    cases hidle
  · rw [hcall] at hrun
    cases hrun
    simp only [released, Rules.ok_bind, ok_load, Rules.ok_ensure] at hok
    cases k with
    | locked w => exact ⟨w, hk, by simpa using hok.1⟩
    | nothing => exact (show False from (hok 0).2).elim
    | shared w | inside w => exact (show False from hok.2).elim

end Runs

/-- The step of thread `t` in which `op`, which loads the version once, finds its result. -/
abbrev Loads (t : T) (op : Op) (r : Result) (s s' : State T) : Prop :=
  Decides Exec (interface T) t op r s s'

theorem loads_version {s s' : State T} {op : Op} {r : Result} {next : Nat → Code Result}
    (h : Loads t op r s s') (hcode : op.code = .instr .load next) :
    s'.memory = s.memory ∧ next s.memory.version = .ret r := by
  obtain ⟨a, hexec, hret⟩ := h.first hcode
  generalize s'.memory = m' at hexec ⊢
  cases hexec
  exact ⟨rfl, hret⟩

theorem code_optimisticLatchOrRestart : Op.optimisticLatchOrRestart.code =
    .instr .load fun v => .ret (.optional (if isLatched v then none else some v)) := by
  show Prog.instr _ _ = Prog.instr _ _
  congr 1
  funext v
  show Prog.bind (if isLatched v then Prog.ret none else Prog.ret (some v)) _ = _
  split <;> rfl

theorem code_optimisticReadUnlatchOrRestart {v : Nat} :
    (Op.optimisticReadUnlatchOrRestart v).code =
      .instr .load fun w => .ret (.bool (v == w)) := rfl

/-- The conversions that may fail. -/
def Op.converts : Op → Bool
  | .optimisticUpgradeToShared _ | .optimisticUpgradeToExclusive _
  | .tryDowngradeExclusiveToShared => true
  | _ => false

/-- What the version is good for. -/
structure Law (T : Type) [DecidableEq T] : Prop where
  bit : ∀ s, (latch T).Reachable s →
    (isLatched s.memory.version = true ↔ ∃ t, s.memory.inside t = true)
  /-- A version that was read and is found again: nobody was inside in between. -/
  validated : ∀ s₁ s₁' s₂ s₂' t u v op, (latch T).Reachable s₁ →
    Loads t .optimisticLatchOrRestart (.optional (some v)) s₁ s₁' →
    op = .optimisticReadUnlatchOrRestart v ∨ op = .optimisticCheckOrRestart v →
    Loads u op (.bool true) s₂ s₂' →
    ∀ x, Between s₁' x s₂ → ∀ w, x.memory.inside w = false
  upgradedToShared : ∀ s₁ s₂ t h v, (latch T).Reachable s₁ → s₁.memory.version = v →
    s₂.call t = .running h (.optimisticUpgradeToShared v) (.ret (.bool true)) →
    ∀ x, Between s₁ x s₂ → ∀ u, x.memory.inside u = false
  upgradedToExclusive : ∀ s₁ s₂ t h v, (latch T).Reachable s₁ → s₁.memory.version = v →
    s₂.call t = .running h (.optimisticUpgradeToExclusive v) (.ret (.bool true)) →
    ∀ x, Between s₁ x s₂ → ∀ u, x.memory.inside u = true → u = t
  /-- From the release of a downgrade to its success. -/
  downgraded : ∀ s₁ s₂ t h v, (latch T).Reachable s₁ →
    s₁.call t = .running h .tryDowngradeExclusiveToShared (do return .bool (← released v)) →
    s₁.memory.version = v → Within (latch T) t s₁ s₂ →
    s₂.call t = .running h .tryDowngradeExclusiveToShared (.ret (.bool true)) →
    ∀ x, Between s₁ x s₂ → ∀ u, x.memory.inside u = false
  failed : ∀ s t h op, (latch T).Reachable s → op.converts = true →
    s.call t = .running h op (.ret (.bool false)) →
    s.memory.owner ≠ some t ∧ t ∉ s.memory.sharers
  ensures : ∀ s t h op, (latch T).Reachable s → s.call t ≠ .running h op .throw

theorem law (T : Type) [DecidableEq T] : Law T where
  bit s hs := (sane hs).1.bit
  validated := by
    intro s₁ s₁' s₂ s₂' t u v op hs hread hop hcheck x hx
    obtain ⟨hmem, hread'⟩ := loads_version hread code_optimisticLatchOrRestart
    have hv : isLatched s₁.memory.version = false ∧ s₁.memory.version = v := by
      simpa using hread'
    have hsame : v = s₂.memory.version := by
      rcases hop with rfl | rfl
      · simpa using (loads_version hcheck code_optimisticReadUnlatchOrRestart).2
      · simpa using (loads_version hcheck code_optimisticReadUnlatchOrRestart).2
    have hs' : (latch T).Reachable s₁' := hs.step ⟨t, hread.1⟩
    refine quiet hs' hx ?_ ?_
    · rw [← hsame, hmem, hv.2]
    · rw [hmem]
      exact hv.1
  upgradedToShared := by
    intro s₁ s₂ t h v hs hversion hcall x hx
    have hs₂ := (hs.run hx.1).run hx.2
    obtain ⟨k, hk, -, rfl, hv⟩ := (sane hs₂).returns hcall
    exact quiet hs hx (hk.2.2.2.trans hversion.symm) (by rw [hversion]; exact hv)
  upgradedToExclusive := by
    intro s₁ s₂ t h v hs hversion hcall x hx u hin
    have hs₂ := (hs.run hx.1).run hx.2
    obtain ⟨k, hk, -, rfl, hv⟩ := (sane hs₂).returns hcall
    have hout : ¬ s₁.memory.inside u = true := by
      intro hin₁
      have hbit := (sane hs).1.bit.mpr ⟨u, hin₁⟩
      simp [hversion, hv] at hbit
    have hin₂ := (versioned T).between_entered hs hx.1 hx.2 (by rw [hversion]; exact hk.2.2)
      hout hin
    have howner := ((sane hs₂).1.owner u hin₂).symm.trans hk.1
    exact Option.some.inj howner
  downgraded := by
    intro s₁ s₂ t h v hs hcall hversion hwithin hsuccess x hx
    obtain ⟨w, hk, hw⟩ := released_locked (sane hs) hcall
    obtain rfl : w = v := hk.2.2.symm.trans hversion
    -- whatever comes next, it succeeds only at the version that was stored
    have hrun : (rules T).Running t h .tryDowngradeExclusiveToShared
        (fun r k => r = .bool true → k = .shared w) s₁ := by
      refine ⟨_, .locked w, hcall, hk, ?_⟩
      simp only [Rules.ok_bind, ok_released hw, Rules.ok_pure]
      intro u hu
      split
      case isTrue heq => subst heq; exact fun _ => rfl
      case isFalse =>
        intro heq
        cases heq
    obtain ⟨rest, k, hcall₂, hk₂, hok⟩ := hrun.within (specified T) (sane hs) hwithin
    rw [hsuccess] at hcall₂
    cases hcall₂
    obtain rfl : k = .shared w := hok rfl
    exact quiet hs hx (hk₂.2.2.2.trans hversion.symm) (by rw [hversion]; exact hw)
  failed := by
    intro s t h op hs hop hcall
    obtain ⟨k, hk, hfits, -⟩ := (sane hs).returns hcall
    obtain rfl : k = Knows.nothing := by
      cases op <;> first | exact hfits | cases hop
    exact ⟨hk.1, hk.2.1⟩
  ensures s t h op hs := (sane hs).not_throw h op

end ScaleStore.HybridLatch
