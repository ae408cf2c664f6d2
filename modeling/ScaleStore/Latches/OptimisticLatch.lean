/-
# `OptimisticLatch`

The latch of a hash table bucket is a single word: bit 1 is the latch, and the
word moves on by two when the latch is taken and when it is given back.
`writeUnlockObsolete` gives it back and sets bit 0 as well; done to one latch
twice, it leaves bit 1 set with nobody inside.
-/

import ScaleStore.Latches.HybridLatch

namespace ScaleStore.OptimisticLatch

open Latches

/-! ## The operations -/

/-- The atomic accesses to `typeVersionLockObsolete`. -/
inductive Instr
  | load
  | store (version : Nat) (mark : Mark)
  | compareExchange (expected desired : Nat)
  | fetchAdd (d : Nat) (mark : Mark)
deriving DecidableEq, Repr

/-- A `compare_exchange_strong` answers whether it has stored, and what it has found. -/
def Answer : Instr → Type
  | .load | .fetchAdd _ _ => Nat
  | .store _ _ => Unit
  | .compareExchange _ _ => Bool × Nat

abbrev Code := Prog Instr Answer

def load : Code Nat := .exec Instr.load
def store (v : Nat) (mark : Mark) : Code Unit := .exec (Instr.store v mark)
def compareExchange (expected desired : Nat) : Code (Bool × Nat) :=
  .exec (Instr.compareExchange expected desired)
def fetchAdd (d : Nat) (mark : Mark) : Code Nat := .exec (Instr.fetchAdd d mark)

def isLatchedNow : Code Bool := do
  return isLatched (← load)

def optimisticLatchOrRestart : Code (Option Nat) := do
  let version ← load
  if isLatched version then
    return none
  return some version

/-- The result, and the value that the reference `version` is left with. -/
def upgradeToExclusiveLatch (version : Nat) : Code (Bool × Nat) := do
  if isLatched version then
    return (false, version)
  let (stored, found) ← compareExchange version (version + 0b10)
  if stored then
    return (true, version + 0b10)
  return (false, found)

def tryLatchExclusive : Code Bool := do
  match ← optimisticLatchOrRestart with
  | none => return false
  | some version =>
      let (success, _) ← upgradeToExclusiveLatch version
      if !success then
        return false
      return true

def unlatchExclusive : Code Unit := do
  .ensure (isLatched (← load))
  let v ← load
  store (v + 0b10) .release

def downgradeToOptimisticLatch : Code Nat := do
  let version := (← load) + 0b10
  unlatchExclusive
  return version

def optimisticUnlatch (startRead : Nat) : Code Bool := do
  return startRead == (← load)

def checkOrRestart (startRead : Nat) : Code Bool := optimisticUnlatch startRead

def writeUnlockObsolete : Code Unit := do
  let _ ← fetchAdd 0b11 .release

/-! ## The memory -/

/-- The word, and who is between the store of an acquire and that of its release. -/
structure Memory (T : Type) where
  version : Nat
  inside : T → Bool

variable {T : Type} [DecidableEq T]

/-- One atomic step of thread `t`. -/
inductive Exec (t : T) : (i : Instr) → Memory T → Answer i → Memory T → Prop where
  | load {m} : Exec t .load m m.version m
  | store {m} (version : Nat) (mark : Mark) : Exec t (.store version mark) m ()
      { version := version, inside := Function.update m.inside t (mark == .acquire) }
  | compareExchange {m} {expected desired : Nat} : m.version = expected →
    Exec t (.compareExchange expected desired) m (true, expected)
      { version := desired, inside := Function.update m.inside t true }
  | compareExchangeFail {m} {expected desired : Nat} : m.version ≠ expected →
    Exec t (.compareExchange expected desired) m (false, m.version) m
  | fetchAdd {m} (d : Nat) (mark : Mark) : Exec t (.fetchAdd d mark) m m.version
      { version := m.version + d, inside := Function.update m.inside t (mark == .acquire) }

/-! ## Calls -/

/-- What a thread has of the latch between its calls. -/
inductive Held
  | nothing
  | exclusive
deriving DecidableEq, Repr

inductive Op
  | isLatched
  | optimisticLatchOrRestart
  | tryLatchExclusive
  | upgradeToExclusiveLatch (version : Nat)
  | downgradeToOptimisticLatch
  | unlatchExclusive
  | checkOrRestart (startRead : Nat)
  | optimisticUnlatch (startRead : Nat)
  | writeUnlockObsolete
deriving DecidableEq, Repr

inductive Result
  | unit
  | bool (b : Bool)
  | version (v : Nat)
  | optional (v : Option Nat)
  | upgraded (success : Bool) (version : Nat)
deriving DecidableEq, Repr

def Op.code : Op → Code Result
  | .isLatched => do return .bool (← isLatchedNow)
  | .optimisticLatchOrRestart => do
      return .optional (← OptimisticLatch.optimisticLatchOrRestart)
  | .tryLatchExclusive => do return .bool (← OptimisticLatch.tryLatchExclusive)
  | .upgradeToExclusiveLatch v => do
      let (success, version) ← OptimisticLatch.upgradeToExclusiveLatch v
      return .upgraded success version
  | .downgradeToOptimisticLatch => do
      return .version (← OptimisticLatch.downgradeToOptimisticLatch)
  | .unlatchExclusive => do OptimisticLatch.unlatchExclusive; return .unit
  | .checkOrRestart v => do return .bool (← OptimisticLatch.checkOrRestart v)
  | .optimisticUnlatch v => do return .bool (← OptimisticLatch.optimisticUnlatch v)
  | .writeUnlockObsolete => do OptimisticLatch.writeUnlockObsolete; return .unit

/-- What must be held for a call; loads of the version need nothing. -/
def Op.needs : Op → Option Held
  | .isLatched | .optimisticLatchOrRestart | .checkOrRestart _ | .optimisticUnlatch _ => none
  | .tryLatchExclusive | .upgradeToExclusiveLatch _ => some .nothing
  | .downgradeToOptimisticLatch | .unlatchExclusive | .writeUnlockObsolete => some .exclusive

/-- What the caller takes itself to hold afterwards. -/
def Op.after (h : Held) : Op → Result → Held
  | .isLatched, _ | .optimisticLatchOrRestart, _ | .checkOrRestart _, _
  | .optimisticUnlatch _, _ => h
  | .tryLatchExclusive, .bool true | .upgradeToExclusiveLatch _, .upgraded true _ => .exclusive
  | .tryLatchExclusive, _ | .upgradeToExclusiveLatch _, _ | .downgradeToOptimisticLatch, _
  | .unlatchExclusive, _ | .writeUnlockObsolete, _ => .nothing

/-- Calls in lock and unlock pairs.  With `once`, a latch is not marked obsolete again. -/
def interface (T : Type) (once : Bool) :
    Interface (Memory T) Held Op Instr Answer Result where
  code := Op.code
  may m h op := (∀ h', op.needs = some h' → h = h') ∧
    (once = true → op = .writeUnlockObsolete → m.version % 2 = 0)
  after h op r := op.after h r

abbrev State (T : Type) := Threads T (Memory T) Held Op Instr Answer Result

/-- All interleavings of any number of threads on a new latch. -/
def latch (T : Type) [DecidableEq T] (once : Bool) : System (State T) :=
  threads Exec (interface T once) (fun m => m.version = 0b100 ∧ ∀ t, m.inside t = false) .nothing

/-! ## What a thread knows -/

inductive Knows
  | nothing
  /-- It is inside an exclusive section. -/
  | inside (v : Nat)

def Knows.holds (t : T) (m : Memory T) : Knows → Prop
  | .nothing => m.inside t = false
  | .inside v => m.inside t = true ∧ m.version = v

/-- Bit 1 is set while somebody is inside, and that is one thread at a time. -/
structure Inv (m : Memory T) : Prop where
  one : ∀ t u, m.inside t = true → m.inside u = true → t = u
  bit : Latches.isLatched m.version = true ↔ ∃ t, m.inside t = true

/-- The rule of each instruction. -/
def wp : Knows → (i : Instr) → (Answer i → Knows → Prop) → Prop
  | .nothing, .load, Q => ∀ v : Nat, Q v .nothing
  | .inside v, .load, Q => Q v (.inside v)
  | .nothing, .compareExchange e d, Q => isLatched e = false ∧ d = e + 0b10 ∧
      Q (true, e) (.inside d) ∧ ∀ v, Q (false, v) .nothing
  | .inside v, .store w .release, Q => isLatched v = true ∧ w = v + 0b10 ∧ Q () .nothing
  | .inside v, .fetchAdd d .release, Q =>
      isLatched v = true ∧ v % 2 = 0 ∧ d = 0b11 ∧ Q v .nothing
  | _, _, _ => False

variable {t u : T} {i : Instr} {k : Knows} {Q : Answer i → Knows → Prop} {m m' : Memory T}
  {a : Answer i}

/-- Giving an unmarked latch back with the mark clears bit 1. -/
theorem isLatched_add_three {v : Nat} (hv : isLatched v = true) (heven : v % 2 = 0) :
    isLatched (v + 0b11) = false := by
  rw [isLatched_eq, decide_eq_true_eq] at hv
  rw [isLatched_eq, decide_eq_false_iff_not]
  omega

/-- With nobody else inside, thread `t` enters or leaves. -/
theorem inv_write (hothers : ∀ u, u ≠ t → m.inside u = false) {w : Nat} {b : Bool}
    (hw : isLatched w = b) : Inv ⟨w, Function.update m.inside t b⟩ := by
  have hinside : ∀ u, Function.update m.inside t b u = true ↔ u = t ∧ isLatched w = true := by
    intro u
    by_cases hu : u = t
    · subst hu
      simp [hw]
    · simp [hothers u hu, hu]
  exact {
    one := fun u u' hu hu' => ((hinside u).mp hu).1.trans ((hinside u').mp hu').1.symm
    bit := ⟨fun hbit => ⟨t, (hinside t).mpr ⟨rfl, hbit⟩⟩, fun ⟨u, hu⟩ => ((hinside u).mp hu).2⟩ }

omit [DecidableEq T] in
theorem Inv.others (h : Inv m) (ht : m.inside t = true) (hu : u ≠ t) : m.inside u = false := by
  by_contra hin
  exact hu (h.one u t (by simpa using hin) ht)

omit [DecidableEq T] in
theorem Inv.out (h : Inv m) (hbit : isLatched m.version = false) (t : T) :
    m.inside t = false := by
  by_contra hin
  have := h.bit.mpr ⟨t, by simpa using hin⟩
  simp [hbit] at this

/-- An instruction does to the memory and to what its thread knows what its rule says. -/
theorem wp_sound (hinv : Inv m) (hk : k.holds t m) (hwp : wp k i Q) (hexec : Exec t i m a m') :
    Inv m' ∧ ∃ k', Q a k' ∧ k'.holds t m' := by
  cases hexec with
  | load =>
    refine ⟨hinv, k, ?_, hk⟩
    cases k with
    | nothing => exact hwp _
    | inside v => rw [hk.2]; exact hwp
  | store w mark =>
    cases k with
    | nothing => cases mark <;> exact hwp.elim
    | inside v =>
      cases mark with
      | acquire => exact hwp.elim
      | release =>
        obtain ⟨hbit, rfl, hQ⟩ := hwp
        exact ⟨inv_write (fun u hu => hinv.others hk.1 hu) (by simp [hbit]), .nothing, hQ,
          Function.update_self ..⟩
  | compareExchange heq =>
    cases k with
    | nothing =>
      obtain ⟨hbit, rfl, hQ, -⟩ := hwp
      subst heq
      exact ⟨inv_write (fun u _ => hinv.out hbit u) (by simp [hbit]), .inside _, hQ,
        Function.update_self .., rfl⟩
    | inside v => exact hwp.elim
  | compareExchangeFail hne =>
    cases k with
    | nothing => exact ⟨hinv, .nothing, hwp.2.2.2 _, hk⟩
    | inside v => exact hwp.elim
  | fetchAdd d mark =>
    cases k with
    | nothing => cases mark <;> exact hwp.elim
    | inside v =>
      cases mark with
      | acquire => exact hwp.elim
      | release =>
        obtain ⟨hbit, heven, rfl, hQ⟩ := hwp
        obtain ⟨hin, rfl⟩ := hk
        exact ⟨inv_write (fun u hu => hinv.others hin hu) (isLatched_add_three hbit heven),
          .nothing, hQ, Function.update_self ..⟩

/-- Only a thread that gets inside or is inside writes the word. -/
theorem exec_version (hk : k.holds t m) (hwp : wp k i Q) (hexec : Exec t i m a m') :
    m' = m ∨ (m.version + 2 ≤ m'.version ∧ (m.inside t = true ∨ isLatched m.version = false) ∧
      ∀ u, u ≠ t → m'.inside u = m.inside u) := by
  cases hexec with
  | load | compareExchangeFail => exact .inl rfl
  | store w mark =>
    cases k with
    | nothing => cases mark <;> exact hwp.elim
    | inside v =>
      cases mark with
      | acquire => exact hwp.elim
      | release =>
        obtain ⟨hin, rfl⟩ := hk
        exact .inr ⟨hwp.2.1.ge, .inl hin, fun u hu => Function.update_of_ne hu ..⟩
  | compareExchange heq =>
    cases k with
    | nothing =>
      subst heq
      exact .inr ⟨hwp.2.1.ge, .inr hwp.1, fun u hu => Function.update_of_ne hu ..⟩
    | inside v => exact hwp.elim
  | fetchAdd d mark =>
    cases k with
    | nothing => cases mark <;> exact hwp.elim
    | inside v =>
      cases mark with
      | acquire => exact hwp.elim
      | release =>
        obtain ⟨-, -, rfl, -⟩ := hwp
        exact .inr ⟨Nat.add_le_add_left (by decide) _, .inl hk.1,
          fun u hu => Function.update_of_ne hu ..⟩

/-- No instruction takes away what another thread knows. -/
theorem wp_frame {k' : Knows} (hinv : Inv m) (hk : k.holds t m) (hwp : wp k i Q)
    (hexec : Exec t i m a m') (hu : u ≠ t) (hk' : k'.holds u m) : k'.holds u m' := by
  rcases exec_version hk hwp hexec with rfl | ⟨-, hin, hothers⟩
  · exact hk'
  · cases k' with
    | nothing => exact (hothers u hu).trans hk'
    | inside v =>
      -- `u` is inside, so `t` neither is nor gets inside
      have hout : m.inside u = false := hin.elim (hinv.others · hu) (hinv.out · u)
      rw [hk'.1] at hout
      cases hout

def rules (T : Type) [DecidableEq T] : Rules (Exec (T := T)) Knows where
  inv := Inv
  knows k t m := k.holds t m
  wp := wp
  sound := wp_sound
  frame := wp_frame

/-! ## Specifications of the operations -/

section Specifications

variable {v w : Nat}

@[simp] theorem ok_load {Q : Nat → Knows → Prop} :
    (rules T).Ok Q load k ↔ match k with
      | .nothing => ∀ v, Q v .nothing
      | .inside v => Q v (.inside v) := by
  cases k <;> exact Iff.rfl

/-- Loads of the version need nothing and change nothing. -/
theorem ok_load_of_forall {Q : Nat → Knows → Prop} (h : ∀ v, Q v k) : (rules T).Ok Q load k := by
  cases k with
  | nothing => exact h
  | inside v => exact h v

@[simp] theorem ok_release {Q : Unit → Knows → Prop} :
    (rules T).Ok Q (store w .release) (.inside v) ↔
      isLatched v = true ∧ w = v + 0b10 ∧ Q () .nothing := Iff.rfl

@[simp] theorem ok_compareExchange {Q : Bool × Nat → Knows → Prop} :
    (rules T).Ok Q (compareExchange v w) .nothing ↔ isLatched v = false ∧ w = v + 0b10 ∧
      Q (true, v) (.inside w) ∧ ∀ v, Q (false, v) .nothing := Iff.rfl

@[simp] theorem ok_fetchAdd {Q : Nat → Knows → Prop} :
    (rules T).Ok Q (fetchAdd w .release) (.inside v) ↔
      isLatched v = true ∧ v % 2 = 0 ∧ w = 0b11 ∧ Q v .nothing := Iff.rfl

/-- The upgrade succeeds only at the version it is called with. -/
theorem ok_upgradeToExclusiveLatch {Q : Bool × Nat → Knows → Prop}
    (hfail : ∀ w, Q (false, w) .nothing)
    (hsuccess : isLatched v = false → Q (true, v + 0b10) (.inside (v + 0b10))) :
    (rules T).Ok Q (upgradeToExclusiveLatch v) .nothing := by
  simp only [upgradeToExclusiveLatch, Rules.ok_bind, Rules.ok_ite, Rules.ok_pure]
  split
  case isTrue => exact hfail v
  case isFalse hv =>
    have hv : isLatched v = false := by simpa using hv
    simp only [ok_compareExchange]
    exact ⟨hv, trivial, hsuccess hv, hfail⟩

@[simp] theorem ok_unlatchExclusive {Q : Unit → Knows → Prop} (hv : isLatched v = true) :
    (rules T).Ok Q unlatchExclusive (.inside v) ↔ Q () .nothing := by
  simp [unlatchExclusive, hv]

@[simp] theorem ok_downgradeToOptimisticLatch {Q : Nat → Knows → Prop}
    (hv : isLatched v = true) :
    (rules T).Ok Q downgradeToOptimisticLatch (.inside v) ↔ Q (v + 0b10) .nothing := by
  simp [downgradeToOptimisticLatch, hv]

theorem ok_optimisticLatchOrRestart {Q : Option Nat → Knows → Prop} (h : ∀ v, Q v k) :
    (rules T).Ok Q optimisticLatchOrRestart k := by
  simp only [optimisticLatchOrRestart, Rules.ok_bind]
  refine ok_load_of_forall fun v => ?_
  split <;> exact h _

theorem ok_tryLatchExclusive {Q : Bool → Knows → Prop} (hfail : Q false .nothing)
    (hsuccess : ∀ v, isLatched v = false → Q true (.inside (v + 0b10))) :
    (rules T).Ok Q tryLatchExclusive .nothing := by
  simp only [tryLatchExclusive, Rules.ok_bind]
  refine ok_optimisticLatchOrRestart fun version => ?_
  cases version with
  | none => exact hfail
  | some version =>
    simp only [Rules.ok_bind]
    exact ok_upgradeToExclusiveLatch (fun _ => hfail) fun hv => hsuccess version hv

end Specifications

/-- What a caller goes by, as knowledge. -/
def Fits : Held → Knows → Prop
  | .nothing, k => k = .nothing
  | .exclusive, k => ∃ v, k = .inside v ∧ isLatched v = true

/-- With which version the upgrade succeeds. -/
def Upgraded : Op → Result → Knows → Prop
  | .upgradeToExclusiveLatch v, .upgraded true _, k =>
      k = .inside (v + 0b10) ∧ isLatched v = false
  | _, _, _ => True

def Post (h : Held) (op : Op) (r : Result) (k : Knows) : Prop :=
  Fits (op.after h r) k ∧ Upgraded op r k

theorem specified (T : Type) [DecidableEq T] :
    Specified (rules T) (interface T true) Fits Post where
  after h := h.1
  code := by
    intro m t h op k hinv hk hfits hmay
    show (rules T).Ok (Post h op) op.code k
    have hheld : ∀ h', op.needs = some h' → Fits h' k :=
      fun h' hneeds => hmay.1 h' hneeds ▸ hfits
    cases op with
    | isLatched | checkOrRestart v | optimisticUnlatch v =>
      exact ok_load_of_forall fun v => ⟨hfits, trivial⟩
    | optimisticLatchOrRestart =>
      simp only [Op.code, Rules.ok_bind, Rules.ok_pure]
      exact ok_optimisticLatchOrRestart fun v => ⟨hfits, trivial⟩
    | tryLatchExclusive =>
      obtain rfl : k = .nothing := hheld _ rfl
      simp only [Op.code, Rules.ok_bind, Rules.ok_pure]
      exact ok_tryLatchExclusive ⟨rfl, trivial⟩ fun v hv =>
        ⟨⟨v + 0b10, rfl, by simp [hv]⟩, trivial⟩
    | upgradeToExclusiveLatch v =>
      obtain rfl : k = .nothing := hheld _ rfl
      simp only [Op.code, Rules.ok_bind, Rules.ok_pure]
      exact ok_upgradeToExclusiveLatch (fun _ => ⟨rfl, trivial⟩) fun hv =>
        ⟨⟨v + 0b10, rfl, by simp [hv]⟩, rfl, hv⟩
    | downgradeToOptimisticLatch =>
      obtain ⟨v, rfl, hv⟩ := hheld _ rfl
      simp only [Op.code, Rules.ok_bind, ok_downgradeToOptimisticLatch hv, Rules.ok_pure]
      exact ⟨rfl, trivial⟩
    | unlatchExclusive =>
      obtain ⟨v, rfl, hv⟩ := hheld _ rfl
      simp only [Op.code, Rules.ok_bind, ok_unlatchExclusive hv, Rules.ok_pure]
      exact ⟨rfl, trivial⟩
    | writeUnlockObsolete =>
      obtain ⟨v, rfl, hv⟩ := hheld _ rfl
      have heven := hmay.2 rfl rfl
      rw [hk.2] at heven
      simp only [Op.code, writeUnlockObsolete, Rules.ok_bind, ok_fetchAdd, Rules.ok_pure]
      exact ⟨hv, heven, trivial, rfl, trivial⟩

/-! ## All interleavings -/

section Runs

variable {s s' s₁ s₂ x : State T} {h : Held} {v : Nat}

theorem sane (hs : (latch T true).Reachable s) : (rules T).Sane Fits Post s := by
  refine Rules.sane (specified T) ?_ hs
  rintro m ⟨hversion, hinside⟩
  have hinv : Inv m := {
    one := fun t u ht => by simp [hinside t] at ht
    bit := by simp [hversion, hinside, isLatched] }
  exact ⟨hinv, fun t => ⟨.nothing, rfl, hinside t⟩⟩

theorem versioned (T : Type) [DecidableEq T] :
    Versioned (latch T true) (fun s => s.memory.version)
      (fun s t => s.memory.inside t = true) := by
  have hstep : ∀ {s s' : State T}, (latch T true).Reachable s → (latch T true).Step s s' →
      s'.memory = s.memory ∨ s.memory.version + 2 ≤ s'.memory.version := by
    rintro s s' hs ⟨t, hstep⟩
    cases hstep with
    | start | finish => exact .inl rfl
    | instr hcall hexec =>
      obtain ⟨k, hk, hwp⟩ := (sane hs).instr hcall
      exact (exec_version hk hwp hexec).imp_right And.left
  constructor
  · intro s s' hs h
    exact (hstep hs h).imp_left fun hm => by rw [hm]
  · intro s s' hs h heq t
    rcases hstep hs h with hm | hv
    · rw [hm]
    · omega

end Runs

/-- A state that one run from `s₁` to `s₂` goes through. -/
def Between (once : Bool) (s₁ x s₂ : State T) : Prop :=
  Relation.ReflTransGen (latch T once).Step s₁ x ∧
    Relation.ReflTransGen (latch T once).Step x s₂

/-- The step of thread `t` in which `op`, which loads the version once, finds its result. -/
abbrev Loads (once : Bool) (t : T) (op : Op) (r : Result) (s s' : State T) : Prop :=
  Decides Exec (interface T once) t op r s s'

theorem loads_version {once : Bool} {s s' : State T} {op : Op} {r : Result}
    {next : Nat → Code Result} (h : Loads once t op r s s') (hcode : op.code = .instr .load next) :
    s'.memory = s.memory ∧ next s.memory.version = .ret r := by
  obtain ⟨a, hexec, hret⟩ := h.first hcode
  generalize s'.memory = m' at hexec ⊢
  cases hexec
  exact ⟨rfl, hret⟩

theorem code_optimisticLatchOrRestart : Op.optimisticLatchOrRestart.code =
    .instr .load fun v => .ret (.optional (if isLatched v then none else some v)) := by
  show Prog.instr _ _ = Prog.instr _ _
  congr 1
  funext v
  show Prog.bind (if isLatched v then Prog.ret none else Prog.ret (some v)) _ = _
  split <;> rfl

theorem code_optimisticUnlatch {v : Nat} :
    (Op.optimisticUnlatch v).code = .instr .load fun w => .ret (.bool (v == w)) := rfl

/-- What the version is good for. -/
structure Law (T : Type) [DecidableEq T] (once : Bool) : Prop where
  bit : ∀ s, (latch T once).Reachable s →
    (isLatched s.memory.version = true ↔ ∃ t, s.memory.inside t = true)
  /-- A version that was read and is found again: nobody was inside in between. -/
  validated : ∀ s₁ s₁' s₂ s₂' t u v op, (latch T once).Reachable s₁ →
    Loads once t .optimisticLatchOrRestart (.optional (some v)) s₁ s₁' →
    op = .checkOrRestart v ∨ op = .optimisticUnlatch v → Loads once u op (.bool true) s₂ s₂' →
    ∀ x, Between once s₁' x s₂ → ∀ w, x.memory.inside w = false
  upgraded : ∀ s₁ s₂ t h v w, (latch T once).Reachable s₁ → s₁.memory.version = v →
    s₂.call t = .running h (.upgradeToExclusiveLatch v) (.ret (.upgraded true w)) →
    ∀ x, Between once s₁ x s₂ → ∀ u, x.memory.inside u = true → u = t
  failed : ∀ s t h v w, (latch T once).Reachable s →
    s.call t = .running h (.upgradeToExclusiveLatch v) (.ret (.upgraded false w)) ∨
      s.call t = .running h .tryLatchExclusive (.ret (.bool false)) →
    s.memory.inside t = false
  ensures : ∀ s t h op, (latch T once).Reachable s → s.call t ≠ .running h op .throw

theorem law (T : Type) [DecidableEq T] : Law T true where
  bit s hs := (sane hs).1.bit
  validated := by
    intro s₁ s₁' s₂ s₂' t u v op hs hread hop hcheck x hx w
    obtain ⟨hmem, hread'⟩ := loads_version hread code_optimisticLatchOrRestart
    have hv : isLatched s₁.memory.version = false ∧ s₁.memory.version = v := by
      simpa using hread'
    have hsame : v = s₂.memory.version := by
      rcases hop with rfl | rfl
      · simpa using (loads_version hcheck code_optimisticUnlatch).2
      · simpa using (loads_version hcheck code_optimisticUnlatch).2
    have hs' : (latch T true).Reachable s₁' := hs.step ⟨t, hread.1⟩
    by_contra hin
    have hin' := ((versioned T).between hs' hx.1 hx.2 (by rw [← hsame, hmem, hv.2]) w).mp
      (by simpa using hin)
    simp [(sane hs').1.out (by rw [hmem]; exact hv.1) w] at hin'
  upgraded := by
    intro s₁ s₂ t h v w hs hversion hcall x hx u hin
    have hs₂ := (hs.run hx.1).run hx.2
    obtain ⟨k, hk, -, rfl, hv⟩ := (sane hs₂).returns hcall
    have hout := (sane hs).1.out (by rw [hversion]; exact hv) u
    have hin₂ := (versioned T).between_entered hs hx.1 hx.2 (by rw [hversion]; exact hk.2)
      (by simp [hout]) hin
    exact (sane hs₂).1.one u t hin₂ hk.1
  failed := by
    rintro s t h v w hs (hcall | hcall) <;>
    · obtain ⟨k, hk, hfits, -⟩ := (sane hs).returns hcall
      obtain rfl : k = Knows.nothing := hfits
      exact hk
  ensures s t h op hs := (sane hs).not_throw h op

/-! ## Marking a latch obsolete -/

section Obsolete

variable {s : State T}

/-- The code of `tryLatchExclusive`, when the latch it loads is free. -/
theorem code_tryLatchExclusive : ∃ next, Op.tryLatchExclusive.code = .instr .load next ∧
    ∀ v, isLatched v = false → ∃ next', next v = .instr (.compareExchange v (v + 0b10)) next' ∧
      next' (true, v) = .ret (.bool true) := by
  refine ⟨_, rfl, fun v hv => ?_⟩
  have hread : (if isLatched v then pure none else pure (some v) : Code (Option Nat)) =
      pure (some v) := if_neg (by simp [hv])
  have hupgrade : upgradeToExclusiveLatch v = (do
      let (stored, found) ← compareExchange v (v + 0b10)
      if stored then
        return (true, v + 0b10)
      return (false, found)) := if_neg (by simp [hv])
  simp only [Prog.bind, hread]
  show ∃ next', ((upgradeToExclusiveLatch v >>= fun x =>
    if !x.1 then pure false else pure true) >>= fun b => pure (Result.bool b)) = _ ∧ _
  rw [hupgrade]
  exact ⟨_, rfl, rfl⟩

/-- A thread that is the only one to run takes a free latch and marks it obsolete. -/
theorem reachable_marked (hs : (latch T false).Reachable s) (hidle : s.call t = .idle .nothing)
    (hfree : isLatched s.memory.version = false) :
    ∃ s', (latch T false).Reachable s' ∧ s'.call t = .idle .nothing ∧
      s'.memory = ⟨s.memory.version + 0b101, Function.update s.memory.inside t false⟩ := by
  obtain ⟨next, hcode, hnext⟩ := code_tryLatchExclusive
  obtain ⟨next', hcas, hret⟩ := hnext _ hfree
  have htake : (interface T false).may s.memory .nothing .tryLatchExclusive :=
    ⟨by rintro h' ⟨⟩; rfl, nofun⟩
  obtain ⟨s₁, hs₁, hm₁, hcall₁⟩ := reachable_start hs hidle htake
  obtain ⟨s₂, hs₂, hm₂, hcall₂⟩ := reachable_instr hs₁ (hcall₁.trans (congrArg _ hcode)) .load
  rw [hm₁, hcas] at hcall₂
  obtain ⟨s₃, hs₃, hm₃, hcall₃⟩ := reachable_instr hs₂ hcall₂ (.compareExchange (by rw [hm₂, hm₁]))
  rw [hret] at hcall₃
  obtain ⟨s₄, hs₄, hm₄, hcall₄⟩ := reachable_finish hs₃ hcall₃
  have hmark : (interface T false).may s₄.memory .exclusive .writeUnlockObsolete :=
    ⟨by rintro h' ⟨⟩; rfl, nofun⟩
  obtain ⟨s₅, hs₅, hm₅, hcall₅⟩ := reachable_start hs₄ hcall₄ hmark
  obtain ⟨s₆, hs₆, hm₆, hcall₆⟩ := reachable_instr hs₅ hcall₅ (.fetchAdd _ _)
  obtain ⟨s₇, hs₇, hm₇, hcall₇⟩ := reachable_finish hs₆ hcall₆
  refine ⟨s₇, hs₇, hcall₇, ?_⟩
  rw [hm₇, hm₆, hm₅, hm₄, hm₃, hm₂, hm₁]
  show Memory.mk _ (Function.update (Function.update _ t true) t false) = _
  rw [Function.update_idem]

end Obsolete

/-- A latch that is marked obsolete twice looks latched with nobody inside. -/
theorem obsolete_twice : ¬ (HybridLatch.Law Unit ∧ Law Unit false) := by
  rintro ⟨-, hlaw⟩
  have hinit : (latch Unit false).Reachable ⟨⟨0b100, fun _ => false⟩, fun _ => .idle .nothing⟩ :=
    .init ⟨⟨rfl, fun _ => rfl⟩, fun _ => rfl⟩
  obtain ⟨s₁, hs₁, hidle₁, hm₁⟩ := reachable_marked (t := ()) hinit rfl (by decide)
  obtain ⟨s₂, hs₂, hidle₂, hm₂⟩ := reachable_marked hs₁ hidle₁ (by rw [hm₁]; decide)
  have hbit : isLatched s₂.memory.version = true := by rw [hm₂, hm₁]; decide
  obtain ⟨u, hu⟩ := (hlaw.bit s₂ hs₂).mp hbit
  rw [hm₂] at hu
  simp at hu

/-- Versions and sections of both latches, in every interleaving. -/
theorem version_latches (T : Type) [DecidableEq T] : HybridLatch.Law T ∧ Law T true :=
  ⟨HybridLatch.law T, law T⟩

end ScaleStore.OptimisticLatch
