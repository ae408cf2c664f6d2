/-
# Calls on the page table that fail

`insertFrame` and `removeFrame` raise when they meet a PID twice or do not find
the frame.  Here both are functions of the content of the table: a bucket is its
inline frame, the frames chained behind it and its latch.  What a call leaves
behind when it raises is part of its outcome.
-/

import ScaleStore.PageTable.Machine
import Mathlib.Data.List.Basic

namespace ScaleStore.PageTable.Failures

/-- `PageTable::operator[]`, which also hashes `EMPTY_PID`. -/
structure Hash (K F : Type) extends Layout K F where
  emptyBucket : F

/-- The bucket of a PID; `none` is `EMPTY_PID`. -/
def Hash.home {K F : Type} (H : Hash K F) : Option K → F
  | none => H.emptyBucket
  | some k => H.bucket k

/-- The fields of a `BufferFrame` that the table looks at: its PID, whether its state is `FREE` and
whether its latch is taken. -/
structure BufferFrame (K : Type) where
  pid : Option K
  free : Bool
  latched : Bool
deriving DecidableEq, Repr

/-- `reset`. -/
def BufferFrame.reset {K : Type} (b : BufferFrame K) : BufferFrame K :=
  { b with pid := none, free := true }

/-- An `init_bf_func`: it latches the frame, as the callers of `insertFrame` rely on. -/
structure InitFunc (K : Type) where
  apply : BufferFrame K → BufferFrame K
  latches : ∀ b, (apply b).latched = true

/-- `chain` and `bucketLatched` are indexed by the inline frames of the buckets. -/
structure Table (K F : Type) where
  frame : F → BufferFrame K
  chain : F → List F
  bucketLatched : F → Bool
  frameFreeList : List F

/-- How a call ends, or that it is still trying. -/
inductive Outcome (K F : Type) where
  | returned (f : F) (s : Table K F)
  | raised (s : Table K F)
  | waiting (s : Table K F)

variable {K F : Type} [DecidableEq K] [DecidableEq F]

namespace Table

variable (s : Table K F)

def setFrame (f : F) (b : BufferFrame K) : Table K F :=
  { s with frame := Function.update s.frame f b }

def setChain (b : F) (fs : List F) : Table K F :=
  { s with chain := Function.update s.chain b fs }

def latchBucket (b : F) : Table K F :=
  { s with bucketLatched := Function.update s.bucketLatched b true }

def unlatchBucket (b : F) : Table K F :=
  { s with bucketLatched := Function.update s.bucketLatched b false }

/-- A frame whose PID is compared equal in the chain of `b`. -/
def findInChain (b : F) (pid : Option K) : Option F :=
  (s.chain b).find? fun f => (s.frame f).pid == pid

/-- `ensure(latch.isLatched())` on the frame that is returned. -/
def ensureLatched (f : F) : Outcome K F :=
  if (s.frame f).latched then .returned f s else .raised s

end Table

/-- `insertFrame`.  The list says of every attempt whether `frameFreeList.try_pop` gives a frame
if there is one; at its end the call is still trying. -/
def insertFrame (H : Hash K F) (init : InitFunc K) (pid : K) :
    List Bool → Table K F → Outcome K F
  | [], s => .waiting s
  | pop :: pops, s =>
    let b := H.bucket pid
    if s.bucketLatched b then insertFrame H init pid pops s
    else
      let s₁ := s.latchBucket b
      if (s.frame b).free then
        ((s₁.setFrame b (init.apply (s.frame b))).unlatchBucket b).ensureLatched b
      else if (s.findInChain b (some pid)).isSome then .raised s₁
      else
        match pop, s.frameFreeList with
        | true, f :: rest =>
          (((({ s₁ with frameFreeList := rest }).setChain b (s.chain b ++ [f])).setFrame f
            (init.apply (s.frame f))).unlatchBucket b).ensureLatched f
        | _, _ => insertFrame H init pid pops (s₁.unlatchBucket b)

/-- `removeFrame`; `pushed` is the result of `frameFreeList.try_push`, which is not looked at. -/
def removeFrame (H : Hash K F) (f : F) (pushed : Bool) (s : Table K F) : Outcome K F :=
  if (s.frame f).latched then
    if H.isHtBucket f then
      if s.bucketLatched f then .waiting s
      else if (s.frame f).free then .raised (s.latchBucket f)
      else .returned f (s.setFrame f { (s.frame f).reset with latched := false })
    else
      let b := H.home (s.frame f).pid
      if s.bucketLatched b then .waiting s
      else
        match s.findInChain b (s.frame f).pid with
        | none => .raised (s.latchBucket b)
        | some g =>
          -- the frame that compared equal is unlinked before the state is looked at
          let s₁ := s.setChain b ((s.chain b).erase g)
          if (s.frame f).free then .raised (s₁.latchBucket b)
          else .returned f { s₁.setFrame f { (s.frame f).reset with latched := false } with
            frameFreeList := if pushed then f :: s.frameFreeList else s.frameFreeList }
  else .raised s

/-- The PID is in the inline frame or in the chain of its bucket. -/
def Mapped (H : Hash K F) (s : Table K F) (pid : K) : Prop :=
  ∃ f ∈ H.bucket pid :: s.chain (H.bucket pid), (s.frame f).pid = some pid

/-- The bucket that `removeFrame` latches. -/
def bucketOf (H : Hash K F) (s : Table K F) (f : F) : F :=
  if H.isHtBucket f then f else H.home (s.frame f).pid

/-- An inline frame is linked as long as it is not `FREE`, another one when it is in its chain. -/
def Linked (H : Hash K F) (s : Table K F) (f : F) : Prop :=
  if H.isHtBucket f then (s.frame f).free = false else f ∈ s.chain (bucketOf H s f)

/-- The call raises and leaves the table, the free list and the latches as they were. -/
def FailsCleanly (s : Table K F) (o : Outcome K F) : Prop := o = .raised s

/-! ## What the calls do -/

section Calls

variable {H : Hash K F} {init : InitFunc K} {pid : K} {s : Table K F} {f : F} {pops : List Bool}

omit [DecidableEq K] [DecidableEq F] in
/-- A bucket that stays latched is not the one before the call. -/
theorem latched_ne {b : F} (hb : s.bucketLatched b = false) {s' : Table K F}
    (h : s'.bucketLatched b = true) : Outcome.raised s' ≠ .raised s := by
  intro heq
  obtain rfl := Outcome.raised.inj heq
  rw [hb] at h
  cases h

omit [DecidableEq K] [DecidableEq F] in
theorem ensureLatched_of_latched (h : (s.frame f).latched = true) :
    s.ensureLatched f = .returned f s := by
  rw [Table.ensureLatched, if_pos h]

/-- While the inline frame is `FREE` the PID is not looked for: it is inserted again. -/
theorem insertFrame_of_free (hb : s.bucketLatched (H.bucket pid) = false)
    (hfree : (s.frame (H.bucket pid)).free = true) (pop : Bool) :
    ∃ s', insertFrame H init pid (pop :: pops) s = .returned (H.bucket pid) s' ∧
      s'.frame (H.bucket pid) = init.apply (s.frame (H.bucket pid)) := by
  rw [insertFrame]
  simp only [hb, hfree, if_true, Bool.false_eq_true, if_false]
  rw [ensureLatched_of_latched]
  · exact ⟨_, rfl, by simp [Table.unlatchBucket, Table.setFrame]⟩
  · simp [Table.unlatchBucket, Table.setFrame, init.latches]

/-- A PID that is found in the chain is reported with the bucket still latched. -/
theorem insertFrame_of_chained (hb : s.bucketLatched (H.bucket pid) = false)
    (hused : (s.frame (H.bucket pid)).free = false) {g : F} (hg : g ∈ s.chain (H.bucket pid))
    (hpid : (s.frame g).pid = some pid) (pop : Bool) :
    insertFrame H init pid (pop :: pops) s = .raised (s.latchBucket (H.bucket pid)) := by
  have hfound : (s.findInChain (H.bucket pid) (some pid)).isSome = true := by
    rw [Table.findInChain, List.find?_isSome]
    exact ⟨g, hg, by simp [hpid]⟩
  rw [insertFrame]
  simp [hb, hused, hfound]

/-- Whenever `insertFrame` raises, it leaves the bucket latched. -/
theorem insertFrame_not_clean (hb : s.bucketLatched (H.bucket pid) = false) :
    ¬ FailsCleanly s (insertFrame H init pid pops s) := by
  rw [FailsCleanly]
  suffices h : ∀ s', insertFrame H init pid pops s = .raised s' →
      s'.bucketLatched (H.bucket pid) = true by
    intro heq
    cases hb.symm.trans (h s heq)
  induction pops generalizing s with
  | nil => intro s' heq; cases heq
  | cons pop pops ih =>
    intro s' heq
    rw [insertFrame] at heq
    simp only [hb, Bool.false_eq_true, if_false] at heq
    split at heq
    · rw [ensureLatched_of_latched (by simp [Table.unlatchBucket, Table.setFrame, init.latches])]
        at heq
      cases heq
    · split at heq
      · obtain rfl := Outcome.raised.inj heq
        simp [Table.latchBucket]
      · split at heq
        · rw [ensureLatched_of_latched
            (by simp [Table.unlatchBucket, Table.setFrame, init.latches])] at heq
          cases heq
        · exact ih (by simp [Table.unlatchBucket]) s' heq

/-- Whenever `removeFrame` of a latched frame raises, it leaves the bucket latched. -/
theorem removeFrame_not_clean (hf : (s.frame f).latched = true)
    (hb : s.bucketLatched (bucketOf H s f) = false) (pushed : Bool) :
    ¬ FailsCleanly s (removeFrame H f pushed s) := by
  rw [FailsCleanly, removeFrame, if_pos hf]
  by_cases hht : H.isHtBucket f = true
  · rw [bucketOf, if_pos hht] at hb
    rw [if_pos hht, hb]
    simp only [Bool.false_eq_true, if_false]
    split
    · exact latched_ne hb (by simp [Table.latchBucket])
    · simp
  · rw [bucketOf, if_neg hht] at hb
    simp only [if_neg hht, hb, Bool.false_eq_true, if_false]
    split
    · exact latched_ne hb (by simp [Table.latchBucket])
    · split
      · exact latched_ne hb (by simp [Table.latchBucket])
      · simp

end Calls

/-- On no table does a call behave as it should: the duplicate insert and the removal of an absent
frame go through, or raise with the bucket latched. -/
theorem never_fail_cleanly (H : Hash K F) (s : Table K F) :
    (∀ (init : InitFunc K) (pid : K) (pops : List Bool), Mapped H s pid →
      s.bucketLatched (H.bucket pid) = false →
      ¬ FailsCleanly s (insertFrame H init pid pops s)) ∧
    (∀ (f : F) (pushed : Bool), (s.frame f).latched = true → ¬ Linked H s f →
      s.bucketLatched (bucketOf H s f) = false →
      ¬ FailsCleanly s (removeFrame H f pushed s)) :=
  ⟨fun _ _ _ _ hb => insertFrame_not_clean hb, fun _ pushed hf _ hb =>
    removeFrame_not_clean hf hb pushed⟩

/-- One bucket with the inline frame `0`. -/
def oneBucket : Hash Nat Nat := ⟨⟨fun _ => 0, fun f => f == 0, fun _ => rfl⟩, 0⟩

/-- The inline frame has been removed while the PID 5 was in the frame `1` behind it. -/
def inlineRemoved : Table Nat Nat where
  frame f := if f = 1 then ⟨some 5, false, false⟩ else ⟨none, true, false⟩
  chain b := if b = 0 then [1] else []
  bucketLatched _ := false
  frameFreeList := []

/-- `frame.latch.latchExclusive()` and the writes of the other fields. -/
def initPage (pid : Nat) : InitFunc Nat := ⟨fun _ => ⟨some pid, false, true⟩, fun _ => rfl⟩

/-- The second insertion of the PID 5 returns a second frame for it. -/
theorem duplicate_inserted : Mapped oneBucket inlineRemoved 5 ∧
    inlineRemoved.bucketLatched (oneBucket.bucket 5) = false ∧
    ¬ FailsCleanly inlineRemoved
      (insertFrame oneBucket (initPage 5) 5 [true] inlineRemoved) ∧
    ∃ s', insertFrame oneBucket (initPage 5) 5 [true] inlineRemoved = .returned 0 s' ∧
      s'.chain 0 = [1] ∧ (s'.frame 0).pid = some 5 ∧ (s'.frame 1).pid = some 5 := by
  refine ⟨⟨1, by decide, rfl⟩, rfl, ?_, _, rfl, rfl, rfl, rfl⟩
  intro h
  cases h

end ScaleStore.PageTable.Failures
