/-
# The page buffers of one node

Every `Page*` of the DRAM pool is handed around between the free list, the
private buffers of the page providers, the invalidation batches of the
connections, the frames and the operations that run.  A step here is what one
thread does to the pages between two points at which another thread can see
them: `removeFrame` hands the page over and resets the frame under the bucket
latch, a handler parks a page and clears the field under the frame's latch.

Which branch an operation takes depends on possession and versions; those tests
are left open, so that every branch whose frame state the code checks may be
taken.

`reclaimInvalidations` pushes the pages of a batch one by one and resets the
batch at the end.  Until then its element count still covers pages that may be
anywhere by now; what the batch has to give is what the loop has not reached.
A page that `newPage` has popped is gone when `insertFrame` finds the PID in the
chain and raises.
-/

import ScaleStore.Lib.Places
import ScaleStore.Lib.RingBuffer
import ScaleStore.Lib.System

namespace ScaleStore.PagePool

/-- `BF_STATE`. -/
inductive BfState where
  | free
  | hot
  | evicted
  | ioRdma
  | ioSsd
  | invalidationExpected
deriving DecidableEq, Repr

/-- Who holds the frame's latch exclusively.  `refilling` is a worker in
`LOCAL_POSSESSION_CHANGE` that found the frame `EVICTED` and has popped a page for it. -/
inductive Latch (T : Type) where
  | unlatched
  | exclusive (t : T)
  | refilling (t : T)
deriving DecidableEq, Repr

/-- The fields of a `BufferFrame` that say whether it has a page; `EMPTY_PID` is `none`. -/
structure BufferFrame (B T P : Type) where
  pid : Option P
  state : BfState
  page : Option B
  latch : Latch T

/-- `reset`, and the latch released right after it. -/
def BufferFrame.reset {B T P : Type} : BufferFrame B T P :=
  ⟨none, .free, none, .unlatched⟩

/-- `InvalidationBatch`; the cells from `elements` on are left over from earlier rounds. -/
structure InvalidationBatch (B : Type) where
  batch : Nat → Option B
  elements : Nat

namespace InvalidationBatch

variable {B : Type}

/-- `add`, with the `ensure` that the batch has room. -/
def add (interval : Nat) (b : InvalidationBatch B) (page : B) : Option (InvalidationBatch B) :=
  if b.elements ≤ interval then
    some ⟨Function.update b.batch b.elements (some page), b.elements + 1⟩
  else none

def reset (b : InvalidationBatch B) : InvalidationBatch B := { b with elements := 0 }

/-- The pages up to the element count. -/
def pages (b : InvalidationBatch B) : List B := (List.range b.elements).filterMap b.batch

/-- The pages that a loop at index `i` has pushed. -/
def pushed (b : InvalidationBatch B) (i : Nat) : List B :=
  ((List.range b.elements).take i).filterMap b.batch

/-- The pages that it has yet to push. -/
def pending (b : InvalidationBatch B) (i : Nat) : List B :=
  ((List.range b.elements).drop i).filterMap b.batch

@[simp] theorem pages_reset (b : InvalidationBatch B) : b.reset.pages = [] := rfl

@[simp] theorem pending_zero (b : InvalidationBatch B) : b.pending 0 = b.pages := rfl

theorem pending_elements (b : InvalidationBatch B) : b.pending b.elements = [] := by
  rw [pending, List.drop_of_length_le (by simp)]
  rfl

theorem pushed_append_pending (b : InvalidationBatch B) (i : Nat) :
    b.pushed i ++ b.pending i = b.pages := by
  rw [pushed, pending, ← List.filterMap_append, List.take_append_drop]
  rfl

theorem pending_succ {b : InvalidationBatch B} {i : Nat} {page : B} (hi : i < b.elements)
    (hpage : b.batch i = some page) : b.pending i = page :: b.pending (i + 1) := by
  have hlt : i < (List.range b.elements).length := by simpa using hi
  rw [pending, List.drop_eq_getElem_cons hlt, List.getElem_range,
    List.filterMap_cons_some hpage]
  rfl

theorem pages_add {interval : Nat} {b b' : InvalidationBatch B} {page : B}
    (h : b.add interval page = some b') : b'.pages = b.pages ++ [page] := by
  unfold add at h
  split at h
  · obtain rfl := Option.some.inj h
    have hold : ∀ i ∈ List.range b.elements,
        Function.update b.batch b.elements (some page) i = b.batch i := by
      intro i hi
      have := List.mem_range.mp hi
      exact Function.update_of_ne (by omega) _ _
    simp only [pages, List.range_succ, List.filterMap_append, List.filterMap_cons,
      List.filterMap_nil, Function.update_self]
    rw [List.filterMap_congr hold]
  · cases h

end InvalidationBatch

/-- What a running operation has in its hands: a page it has popped, or a frame that `removeFrame`
has yet to push to `frameFreeList`. -/
inductive Op (B F : Type) where
  | idle
  | holding (page : B)
  | returning (f : F)

/-- One node.  `T` are its threads, a page provider being one of them, and `C` the clients whose
requests its message handlers answer. -/
structure Node (B F C T P : Type) where
  /-- The pages in the partitions of `pageFreeList` and in the batch handles of the threads. -/
  pageFreeList : Multiset B
  frameFreeList : List F
  privatePageBuffer : T → RingBuffer B
  active : C → InvalidationBatch B
  passive : C → InvalidationBatch B
  /-- The index `p_i` of a running `reclaimInvalidations`; `0` when none runs. -/
  reclaimed : C → Nat
  frame : F → BufferFrame B T P
  op : T → Op B F
  /-- The pages that operations had popped when `insertFrame` raised; nothing refers to them. -/
  unwound : Multiset B

variable {B F C T P : Type} [DecidableEq B] [DecidableEq F] [DecidableEq C] [DecidableEq T]

namespace Node

def setFrame (s : Node B F C T P) (f : F) (b : BufferFrame B T P) : Node B F C T P :=
  { s with frame := Function.update s.frame f b }

def setOp (s : Node B F C T P) (t : T) (o : Op B F) : Node B F C T P :=
  { s with op := Function.update s.op t o }

/-- `pageFreeList.push`. -/
def push (s : Node B F C T P) (p : B) : Node B F C T P :=
  { s with pageFreeList := p ::ₘ s.pageFreeList }

/-- `pageFreeList.pop` returned `p`. -/
def popped (s : Node B F C T P) (p : B) : Node B F C T P :=
  { s with pageFreeList := s.pageFreeList.erase p }

/-- `reclaimInvalidations` pushes the page at its index. -/
def pushReclaimed (s : Node B F C T P) (c : C) (p : B) : Node B F C T P :=
  { s.push p with reclaimed := Function.update s.reclaimed c (s.reclaimed c + 1) }

/-- The `reset` at its end. -/
def resetPassive (s : Node B F C T P) (c : C) : Node B F C T P :=
  { s with
    passive := Function.update s.passive c (s.passive c).reset
    reclaimed := Function.update s.reclaimed c 0 }

def swapBatches (s : Node B F C T P) (c : C) : Node B F C T P :=
  { s with
    active := Function.update s.active c (s.passive c)
    passive := Function.update s.passive c (s.active c) }

/-- `activeInvalidationBatch->add`. -/
def park (s : Node B F C T P) (c : C) (b : InvalidationBatch B) : Node B F C T P :=
  { s with active := Function.update s.active c b }

/-- `privatePageBuffer.add` if there is room, `pageFreeList.push` else. -/
def handOver (s : Node B F C T P) (t : T) (p : B) : Node B F C T P :=
  if h : (s.privatePageBuffer t).full then s.push p
  else { s with
    privatePageBuffer :=
      Function.update s.privatePageBuffer t ((s.privatePageBuffer t).add p h) }

/-- `removeFrame` by thread `t`, once the page has been handed over. -/
def removeFrame (isHtBucket : F → Bool) (s : Node B F C T P) (t : T) (f : F) : Node B F C T P :=
  if isHtBucket f then s.setFrame f .reset
  else (s.setFrame f .reset).setOp t (.returning f)

end Node

/-- The frame an insertion may take: the inline bucket if it is `FREE`, else one popped from
`frameFreeList`, which is left as the list says. -/
inductive Takes (isHtBucket : F → Bool) (s : Node B F C T P) (f : F) : List F → Prop where
  | inline : isHtBucket f = true → (s.frame f).state = .free → Takes isHtBucket s f s.frameFreeList
  | chained : f ∈ s.frameFreeList → Takes isHtBucket s f (s.frameFreeList.erase f)

/-- What the threads of a node do with pages. -/
inductive Step (interval : Nat) (isHtBucket : F → Bool) (s : Node B F C T P) :
    Node B F C T P → Prop where
  /-- `findFrameOrInsert`, `newPage` and `newRemotePage` pop a page before they latch the bucket. -/
  | pop {t p} : s.op t = .idle → p ∈ s.pageFreeList →
    Step interval isHtBucket s ((s.popped p).setOp t (.holding p))
  /-- The upgrade of the bucket latch failed, or there was no frame. -/
  | pushBack {t p} : s.op t = .holding p →
    Step interval isHtBucket s ((s.push p).setOp t .idle)
  /-- `findFrameOrInsert` installs the page; its `ensure` looks at the frame's PID. -/
  | insert {t p f rest} (pid : P) (owner : Bool) : s.op t = .holding p →
    Takes isHtBucket s f rest → (s.frame f).latch = .unlatched → (s.frame f).pid = none →
    Step interval isHtBucket s ((({ s with frameFreeList := rest }).setFrame f
      ⟨some pid, if owner then .ioSsd else .ioRdma, some p, .exclusive t⟩).setOp t .idle)
  /-- `insertFrame` for `newPage` and `newRemotePage`. -/
  | newPage {t p f rest} (pid : P) : s.op t = .holding p → Takes isHtBucket s f rest →
    (s.frame f).latch = .unlatched →
    Step interval isHtBucket s ((({ s with frameFreeList := rest }).setFrame f
      ⟨some pid, .hot, some p, .exclusive t⟩).setOp t .idle)
  /-- `insertFrame` finds the PID in the chain of its bucket and raises. -/
  | duplicatePid {t p f} (pid : P) : s.op t = .holding p → isHtBucket f = false →
    (s.frame f).pid = some pid →
    Step interval isHtBucket s ({ s with unwound := p ::ₘ s.unwound }.setOp t .idle)
  /-- `insertFrame` for RAR sets no page. -/
  | remoteAllocation {t f rest} (pid : P) : s.op t = .idle → Takes isHtBucket s f rest →
    (s.frame f).latch = .unlatched →
    Step interval isHtBucket s (({ s with frameFreeList := rest }).setFrame f
      { s.frame f with pid := some pid, state := .evicted, latch := .exclusive t })
  /-- A functor, or a page provider that has picked a candidate, latches a frame. -/
  | latch {t f} : (s.frame f).latch = .unlatched →
    Step interval isHtBucket s (s.setFrame f { s.frame f with latch := .exclusive t })
  /-- The latch is released with the frame as it is; so a failed copy in `REMOTE` leaves its page
  behind in the frame. -/
  | unlatch {t f} : (s.frame f).latch = .exclusive t →
    Step interval isHtBucket s (s.setFrame f { s.frame f with latch := .unlatched })
  /-- `fix` has read the page from SSD or from another node. -/
  | loaded {t f} : (s.frame f).latch = .exclusive t →
    ((s.frame f).state = .ioSsd ∨ (s.frame f).state = .ioRdma) →
    Step interval isHtBucket s (s.setFrame f { s.frame f with state := .hot })
  /-- `LOCAL_POSSESSION_CHANGE` on an evicted frame pops a page. -/
  | refill {t f p} : (s.frame f).latch = .exclusive t → (s.frame f).state = .evicted →
    p ∈ s.pageFreeList →
    Step interval isHtBucket s ((s.popped p).setFrame f
      { s.frame f with page := some p, latch := .refilling t })
  /-- Its page has come in. -/
  | refilled {t f} : (s.frame f).latch = .refilling t →
    Step interval isHtBucket s (s.setFrame f
      { s.frame f with state := .hot, latch := .exclusive t })
  /-- Its copy request failed. -/
  | copyFailed {t f p} : (s.frame f).latch = .refilling t → (s.frame f).page = some p →
    Step interval isHtBucket s ((s.push p).setFrame f
      { s.frame f with page := none, latch := .unlatched })
  /-- `writeMsg` and `writePageAndMsg` poll for some of the messages: first the passive batch is
  reclaimed, then the batches are swapped. -/
  | pushReclaimed {c p} : s.reclaimed c < (s.passive c).elements →
    (s.passive c).batch (s.reclaimed c) = some p →
    Step interval isHtBucket s (s.pushReclaimed c p)
  | resetPassive {c} : s.reclaimed c = (s.passive c).elements →
    Step interval isHtBucket s (s.resetPassive c)
  | swapBatches {c} : (s.passive c).elements = 0 → s.reclaimed c = 0 →
    Step interval isHtBucket s (s.swapBatches c)
  /-- PRX on a frame with the page, once it has been sent. -/
  | sendAway {t f p c b} : (s.frame f).latch = .exclusive t → (s.frame f).state = .hot →
    (s.frame f).page = some p → (s.active c).add interval p = some b →
    Step interval isHtBucket s ((s.park c b).setFrame f
      { s.frame f with state := .evicted, page := none, latch := .unlatched })
  /-- PMR: the frame goes. -/
  | move {t f p c b} : (s.frame f).latch = .exclusive t → s.op t = .idle →
    (s.frame f).state ≠ .free → (s.frame f).page = some p →
    (s.active c).add interval p = some b →
    Step interval isHtBucket s ((s.park c b).removeFrame isHtBucket t f)
  /-- PUR on a frame that is not evicted parks its page before it answers. -/
  | update {t f p c b} : (s.frame f).latch = .exclusive t → (s.frame f).state ≠ .evicted →
    (s.frame f).page = some p → (s.active c).add interval p = some b →
    Step interval isHtBucket s ((s.park c b).setFrame f
      { s.frame f with state := .evicted, page := none })
  /-- `evict_owner_page` keeps the frame of a page that others have too. -/
  | evict {t f p} : (s.frame f).latch = .exclusive t → (s.frame f).state = .hot →
    (s.frame f).page = some p →
    Step interval isHtBucket s ((s.handOver t p).setFrame f
      { s.frame f with state := .evicted, page := none, latch := .unlatched })
  /-- `evict_owner_page` removes the frame of a clean page, and phase 5 that of a page whose owner
  has agreed. -/
  | evictFrame {t f p} : (s.frame f).latch = .exclusive t → s.op t = .idle →
    (s.frame f).state ≠ .free → (s.frame f).page = some p →
    Step interval isHtBucket s ((s.handOver t p).removeFrame isHtBucket t f)
  /-- Phase 1 takes the last copy of a page over. -/
  | takeOver {t f} : (s.frame f).latch = .exclusive t → (s.frame f).state = .evicted →
    (s.frame f).page = none → 0 < (s.privatePageBuffer t).count →
    Step interval isHtBucket s (({ s with
        privatePageBuffer := Function.update s.privatePageBuffer t (s.privatePageBuffer t).remove
      }).setFrame f
      { s.frame f with state := .hot, page := some (s.privatePageBuffer t).peek })
  /-- Phase 1 removes a frame that nobody needs any more. -/
  | dropFrame {t f} : (s.frame f).latch = .exclusive t → s.op t = .idle →
    (s.frame f).state = .evicted → (s.frame f).page = none →
    Step interval isHtBucket s (s.removeFrame isHtBucket t f)
  /-- A page provider refills its private buffer. -/
  | fillPrivate {t p} (h : ¬ (s.privatePageBuffer t).full) : p ∈ s.pageFreeList →
    Step interval isHtBucket s { s.popped p with
      privatePageBuffer := Function.update s.privatePageBuffer t
        ((s.privatePageBuffer t).add p h) }
  /-- `reclaimPage`. -/
  | reclaimPage {t f p} : (s.frame f).latch = .exclusive t → s.op t = .idle →
    (s.frame f).state = .hot → (s.frame f).page = some p →
    Step interval isHtBucket s ((s.push p).removeFrame isHtBucket t f)
  /-- The end of `removeFrame` on a chained frame; the result of `try_push` is not looked at. -/
  | returnFrame {t f} (pushed : Bool) : s.op t = .returning f →
    Step interval isHtBucket s ({ s with
      frameFreeList := if pushed then f :: s.frameFreeList else s.frameFreeList }.setOp t .idle)

/-- After the constructor: all pages in the free list, all frames reset. -/
structure Init (isHtBucket : F → Bool) (s : Node B F C T P) : Prop where
  pages : ∀ p, s.pageFreeList.count p = 1
  buffers : ∀ t, (s.privatePageBuffer t).count = 0
  batches : ∀ c, (s.active c).elements = 0 ∧ (s.passive c).elements = 0 ∧ s.reclaimed c = 0
  frames : ∀ f, s.frame f = .reset
  frameFreeList : s.frameFreeList.Nodup ∧ ∀ f ∈ s.frameFreeList, isHtBucket f = false
  ops : ∀ t, s.op t = .idle
  unwound : s.unwound = 0

/-- Everything a node can do, over any schedule of its threads. -/
def pagePool (interval : Nat) (isHtBucket : F → Bool) : System (Node B F C T P) where
  Init := Init isHtBucket
  Step := Step interval isHtBucket

set_option linter.unusedSectionVars false

/-! ## Frames and their pages -/

namespace BufferFrame

variable {B T P : Type}

/-- Which states go with a page.  Only a worker that refills an evicted frame has a page in it. -/
structure Ok (b : BufferFrame B T P) : Prop where
  filled : b.state = .hot ∨ b.state = .ioRdma ∨ b.state = .ioSsd → b.page ≠ none
  evicted : b.state = .evicted → (∀ t, b.latch ≠ .refilling t) → b.page = none
  refilling : ∀ t, b.latch = .refilling t → b.state = .evicted ∧ b.page ≠ none
  free : b.state = .free → b.page = none ∧ b.pid = none

theorem ok_reset : (reset : BufferFrame B T P).Ok := by
  constructor <;> simp [reset]

/-- The state of a frame whose latch is released or taken without refilling it. -/
theorem Ok.relatch {b : BufferFrame B T P} (h : b.Ok) {l : Latch T}
    (hb : ∀ t, b.latch ≠ .refilling t) (hl : ∀ t, l ≠ .refilling t) : ({ b with latch := l }).Ok :=
  ⟨h.filled, fun he _ => h.evicted he hb, fun t ht => absurd ht (hl t), h.free⟩

end BufferFrame

/-- The frames of a node, and the frames that are not linked anywhere. -/
structure Frames (isHtBucket : F → Bool) (s : Node B F C T P) : Prop where
  ok : ∀ f, (s.frame f).Ok
  nodup : s.frameFreeList.Nodup
  listed : ∀ f ∈ s.frameFreeList, isHtBucket f = false ∧ (s.frame f).state = .free
  returning : ∀ t f, s.op t = .returning f →
    isHtBucket f = false ∧ (s.frame f).state = .free ∧ f ∉ s.frameFreeList
  returning_once : ∀ t t' f, s.op t = .returning f → s.op t' = .returning f → t = t'

namespace Frames

variable {isHtBucket : F → Bool} {s s' : Node B F C T P} {f : F} {b : BufferFrame B T P} {t : T}

theorem congr (h : Frames isHtBucket s) (hframe : s'.frame = s.frame)
    (hlist : s'.frameFreeList = s.frameFreeList) (hop : s'.op = s.op) : Frames isHtBucket s' := by
  refine ⟨?_, ?_, ?_, ?_, ?_⟩
  · rw [hframe]
    exact h.ok
  · rw [hlist]
    exact h.nodup
  · rw [hframe, hlist]
    exact h.listed
  · rw [hframe, hlist, hop]
    exact h.returning
  · rw [hop]
    exact h.returning_once

/-- A frame that is linked stays linked, and one that is not stays `FREE`. -/
theorem setFrame (h : Frames isHtBucket s) (hb : b.Ok)
    (hfree : (s.frame f).state = .free → b.state = .free) :
    Frames isHtBucket (s.setFrame f b) := by
  have hstate : ∀ g, (s.frame g).state = .free → ((s.setFrame f b).frame g).state = .free := by
    intro g hg
    by_cases hgf : g = f
    · subst hgf
      simpa [Node.setFrame] using hfree hg
    · simpa [Node.setFrame, hgf] using hg
  refine ⟨?_, h.nodup, ?_, ?_, h.returning_once⟩
  · intro g
    by_cases hgf : g = f
    · subst hgf
      simpa [Node.setFrame] using hb
    · simpa [Node.setFrame, hgf] using h.ok g
  · intro g hg
    exact ⟨(h.listed g hg).1, hstate g (h.listed g hg).2⟩
  · intro t g hg
    obtain ⟨hbucket, hg', hlist⟩ := h.returning t g hg
    exact ⟨hbucket, hstate g hg', hlist⟩

/-- An operation that has no frame in its hands goes on. -/
theorem setOp (h : Frames isHtBucket s) {o : Op B F} (ho : ∀ g, o ≠ .returning g) :
    Frames isHtBucket (s.setOp t o) := by
  have hop : ∀ t' g, (s.setOp t o).op t' = .returning g → s.op t' = .returning g := by
    intro t' g hg
    by_cases ht : t' = t
    · subst ht
      exact absurd (by simpa [Node.setOp] using hg) (ho g)
    · simpa [Node.setOp, ht] using hg
  exact ⟨h.ok, h.nodup, h.listed, fun t' g hg => h.returning t' g (hop t' g hg),
    fun t' t'' g hg hg' => h.returning_once t' t'' g (hop t' g hg) (hop t'' g hg')⟩

/-- An insertion takes a frame that is `FREE`. -/
theorem free_of_takes (h : Frames isHtBucket s) {rest : List F} (ht : Takes isHtBucket s f rest) :
    (s.frame f).state = .free := by
  cases ht with
  | inline _ hfree => exact hfree
  | chained hmem => exact (h.listed f hmem).2

theorem take (h : Frames isHtBucket s) {rest : List F} (ht : Takes isHtBucket s f rest)
    (hb : b.Ok) : Frames isHtBucket (({ s with frameFreeList := rest }).setFrame f b) := by
  have hsub : ∀ g ∈ rest, g ∈ s.frameFreeList ∧ g ≠ f := by
    intro g hg
    cases ht with
    | inline hbucket _ =>
      refine ⟨hg, ?_⟩
      rintro rfl
      exact absurd (h.listed g hg).1 (by simp [hbucket])
    | chained hmem => exact ⟨List.mem_of_mem_erase hg, ((h.nodup.mem_erase_iff).mp hg).1⟩
  have hreturning : ∀ t g, s.op t = .returning g → g ≠ f := by
    rintro t g hg rfl
    obtain ⟨hbucket, _, hlist⟩ := h.returning t g hg
    cases ht with
    | inline hbucket' _ => simp [hbucket] at hbucket'
    | chained hmem => exact hlist hmem
  refine ⟨?_, ?_, ?_, ?_, h.returning_once⟩
  · intro g
    by_cases hgf : g = f
    · subst hgf
      simpa [Node.setFrame] using hb
    · simpa [Node.setFrame, hgf] using h.ok g
  · cases ht with
    | inline => exact h.nodup
    | chained => exact h.nodup.erase f
  · intro g hg
    obtain ⟨hlist, hgf⟩ := hsub g hg
    simpa [Node.setFrame, hgf] using h.listed g hlist
  · intro t g hg
    obtain ⟨hbucket, hfree, hlist⟩ := h.returning t g hg
    refine ⟨hbucket, ?_, fun hmem => hlist (hsub g hmem).1⟩
    simpa [Node.setFrame, hreturning t g hg] using hfree

theorem removeFrame (h : Frames isHtBucket s) (hfree : (s.frame f).state ≠ .free)
    (hidle : s.op t = .idle) : Frames isHtBucket (s.removeFrame isHtBucket t f) := by
  have hreset : Frames isHtBucket (s.setFrame f .reset) :=
    h.setFrame BufferFrame.ok_reset fun _ => rfl
  unfold Node.removeFrame
  split
  · exact hreset
  · rename_i hbucket
    have hnew : ∀ t' g, ((s.setFrame f .reset).setOp t (.returning f)).op t' = .returning g →
        (t' = t ∧ g = f) ∨ (t' ≠ t ∧ s.op t' = .returning g ∧ g ≠ f) := by
      intro t' g hg
      by_cases ht : t' = t
      · subst ht
        left
        simpa [Node.setOp, eq_comm] using hg
      · right
        have hg' : s.op t' = .returning g := by
          simpa [Node.setOp, Node.setFrame, ht] using hg
        refine ⟨ht, hg', ?_⟩
        rintro rfl
        exact hfree (h.returning t' g hg').2.1
    refine ⟨hreset.ok, hreset.nodup, hreset.listed, ?_, ?_⟩
    · intro t' g hg
      rcases hnew t' g hg with ⟨rfl, rfl⟩ | ⟨_, hg', _⟩
      · refine ⟨by simpa using hbucket, by simp [Node.setFrame, Node.setOp, BufferFrame.reset], ?_⟩
        exact fun hmem => hfree (h.listed g hmem).2
      · exact hreset.returning t' g hg'
    · intro t' t'' g hg hg'
      rcases hnew t' g hg with ⟨rfl, rfl⟩ | ⟨_, hold, hne⟩
      · rcases hnew t'' g hg' with ⟨rfl, _⟩ | ⟨_, _, hne⟩
        · rfl
        · exact absurd rfl hne
      · rcases hnew t'' g hg' with ⟨_, rfl⟩ | ⟨_, hold', _⟩
        · exact absurd rfl hne
        · exact h.returning_once t' t'' g hold hold'

/-- `frameFreeList.try_push`, whether it takes the frame or not. -/
theorem returnFrame (h : Frames isHtBucket s) (hop : s.op t = .returning f) (pushed : Bool) :
    Frames isHtBucket ({ s with frameFreeList :=
      if pushed then f :: s.frameFreeList else s.frameFreeList }.setOp t .idle) := by
  obtain ⟨hbucket, hfree, hlist⟩ := h.returning t f hop
  cases pushed with
  | false => exact h.setOp (by simp)
  | true =>
    have hother : ∀ t' g, (s.setOp t .idle).op t' = .returning g →
        s.op t' = .returning g ∧ g ≠ f := by
      intro t' g hg
      by_cases ht : t' = t
      · subst ht
        simp [Node.setOp] at hg
      · have hg' : s.op t' = .returning g := by simpa [Node.setOp, ht] using hg
        refine ⟨hg', ?_⟩
        rintro rfl
        exact ht (h.returning_once t' t g hg' hop)
    refine ⟨h.ok, List.nodup_cons.mpr ⟨hlist, h.nodup⟩, ?_, ?_, ?_⟩
    · intro g hg
      rcases List.mem_cons.mp hg with rfl | hg
      · exact ⟨hbucket, hfree⟩
      · exact h.listed g hg
    · intro t' g hg
      obtain ⟨hg', hgf⟩ := hother t' g hg
      obtain ⟨hbucket', hfree', hlist'⟩ := h.returning t' g hg'
      refine ⟨hbucket', hfree', ?_⟩
      intro hmem
      rcases List.mem_cons.mp hmem with rfl | hmem
      · exact hgf rfl
      · exact hlist' hmem
    · intro t' t'' g hg hg'
      exact h.returning_once t' t'' g (hother t' g hg).1 (hother t'' g hg').1

end Frames

/-! ## Where the pages are -/

/-- The places a page can be in. -/
inductive Place (F C T : Type) where
  | freeList
  | privateBuffer (t : T)
  | active (c : C)
  | passive (c : C)
  | frame (f : F)
  | localVariable (t : T)
deriving DecidableEq, Repr

/-- The page an operation has popped. -/
def Op.page {B F : Type} : Op B F → Option B
  | .holding p => some p
  | .idle | .returning _ => none

/-- The pages in a place; a batch that is being reclaimed has those not pushed yet. -/
def Node.content (s : Node B F C T P) : Place F C T → Multiset B
  | .freeList => s.pageFreeList
  | .privateBuffer t => (s.privatePageBuffer t).toList
  | .active c => (s.active c).pages
  | .passive c => (s.passive c).pending (s.reclaimed c)
  | .frame f => (s.frame f).page.toList
  | .localVariable t => (s.op t).page.toList

/-- The same with every batch counted up to its element count. -/
def Node.counted (s : Node B F C T P) : Place F C T → Multiset B
  | .passive c => (s.passive c).pages
  | k => s.content k

namespace Node

variable (s : Node B F C T P)

/-- Setting one component of a family changes one place. -/
theorem content_setFrame (f : F) (b : BufferFrame B T P) :
    (s.setFrame f b).content = Function.update s.content (.frame f) b.page.toList := by
  ext1 k
  cases k with
  | frame g => by_cases h : g = f <;> simp [content, setFrame, h]
  | _ => simp [content, setFrame]

theorem content_setOp (t : T) (o : Op B F) :
    (s.setOp t o).content = Function.update s.content (.localVariable t) o.page.toList := by
  ext1 k
  cases k with
  | localVariable u => by_cases h : u = t <;> simp [content, setOp, h]
  | _ => simp [content, setOp]

theorem content_setFreeList (m : Multiset B) :
    ({ s with pageFreeList := m }).content = Function.update s.content .freeList m := by
  ext1 k
  cases k <;> simp [content]

theorem content_park (c : C) (b : InvalidationBatch B) :
    (s.park c b).content = Function.update s.content (.active c) b.pages := by
  ext1 k
  cases k with
  | active d => by_cases h : d = c <;> simp [content, park, h]
  | _ => simp [content, park]

theorem content_pushReclaimed (c : C) (p : B) :
    (s.pushReclaimed c p).content = Function.update (Function.update s.content (.passive c)
      ((s.passive c).pending (s.reclaimed c + 1))) .freeList (p ::ₘ s.pageFreeList) := by
  ext1 k
  cases k with
  | passive d => by_cases h : d = c <;> simp [content, pushReclaimed, push, h]
  | _ => simp [content, pushReclaimed, push]

/-- What the loop has pushed is still counted. -/
theorem counted_eq : s.counted = fun k =>
    (match k with | .passive c => (s.passive c).pushed (s.reclaimed c) | _ => 0) + s.content k := by
  ext1 k
  cases k with
  | passive c =>
    change ((s.passive c).pages : Multiset B) = _
    rw [← (s.passive c).pushed_append_pending (s.reclaimed c), ← Multiset.coe_add]
    rfl
  | _ => exact (Multiset.zero_add _).symm

theorem content_setPrivate (t : T) (r : RingBuffer B) :
    ({ s with privatePageBuffer := Function.update s.privatePageBuffer t r }).content =
      Function.update s.content (.privateBuffer t) r.toList := by
  ext1 k
  cases k with
  | privateBuffer u => by_cases h : u = t <;> simp [content, h]
  | _ => simp [content]

theorem content_setFrameFreeList (l : List F) :
    ({ s with frameFreeList := l }).content = s.content := by
  ext1 k
  cases k <;> rfl

theorem content_removeFrame (isHtBucket : F → Bool) (t : T) (f : F) (hidle : s.op t = .idle) :
    (s.removeFrame isHtBucket t f).content = Function.update s.content (.frame f) 0 := by
  have hreset : (s.setFrame f .reset).content = Function.update s.content (.frame f) 0 :=
    s.content_setFrame f .reset
  unfold removeFrame
  split
  · exact hreset
  · rw [content_setOp, hreset]
    refine Function.update_eq_self_iff.mpr ?_
    simp [content, hidle, Op.page]

theorem content_handOver (t : T) (p : B) :
    ∃ k : Place F C T, (∀ f, Place.frame f ≠ k) ∧
      (s.handOver t p).content = Function.update s.content k ({p} + s.content k) := by
  unfold handOver
  split
  · exact ⟨.freeList, by simp, s.content_setFreeList (p ::ₘ s.pageFreeList)⟩
  · rename_i hfull
    refine ⟨.privateBuffer t, by simp, ?_⟩
    rw [content_setPrivate, RingBuffer.toList_add, ← Multiset.coe_add, Multiset.add_comm]
    rfl

variable {s} {x : B}

/-- A frame changes and keeps its page. -/
theorem inOnePlace_setFrame {f : F} {b : BufferFrame B T P} (h : InOnePlace s.content x)
    (hb : b.page = (s.frame f).page) : InOnePlace (s.setFrame f b).content x := by
  rw [content_setFrame, hb]
  exact h.congr (congrFun (Function.update_eq_self (Place.frame f) s.content))

/-- The `reset` finds nothing left to push. -/
theorem inOnePlace_resetPassive {c : C} (h : InOnePlace s.content x)
    (hreclaimed : s.reclaimed c = (s.passive c).elements) :
    InOnePlace (s.resetPassive c).content x := by
  refine h.congr fun k => ?_
  cases k with
  | passive d =>
    by_cases hd : d = c
    · subst hd
      simp [content, resetPassive, hreclaimed, InvalidationBatch.pending_elements]
    · simp [content, resetPassive, hd]
  | _ => simp [content, resetPassive]

/-- The swap renames the batches. -/
theorem inOnePlace_swapBatches {c : C} (h : InOnePlace s.content x)
    (hreclaimed : s.reclaimed c = 0) : InOnePlace (s.swapBatches c).content x := by
  refine h.permute (Equiv.swap (.active c) (.passive c)) ?_
  intro k
  cases k with
  | active d =>
    by_cases hd : d = c
    · subst hd
      simp [content, swapBatches, hreclaimed]
    · rw [Equiv.swap_apply_of_ne_of_ne (by simpa using hd) (by simp)]
      simp [content, swapBatches, hd]
  | passive d =>
    by_cases hd : d = c
    · subst hd
      simp [content, swapBatches, hreclaimed]
    · rw [Equiv.swap_apply_of_ne_of_ne (by simp) (by simpa using hd)]
      simp [content, swapBatches, hd]
  | _ =>
    rw [Equiv.swap_apply_of_ne_of_ne (by simp) (by simp)]
    simp [content, swapBatches]

@[simp] theorem handOver_frame (t : T) (p : B) : (s.handOver t p).frame = s.frame := by
  unfold handOver
  split <;> rfl

@[simp] theorem handOver_op (t : T) (p : B) : (s.handOver t p).op = s.op := by
  unfold handOver
  split <;> rfl

@[simp] theorem handOver_frameFreeList (t : T) (p : B) :
    (s.handOver t p).frameFreeList = s.frameFreeList := by
  unfold handOver
  split <;> rfl

/-- A page is taken out of its frame and parked. -/
theorem inOnePlace_park {f : F} {p : B} {c : C} {b : InvalidationBatch B} {interval : Nat}
    (h : InOnePlace s.content x) (hpage : (s.frame f).page = some p)
    (hadd : (s.active c).add interval p = some b) :
    InOnePlace (Function.update (Function.update s.content (.active c) b.pages)
      (.frame f) 0) x := by
  refine h.move_back (m := {p}) (by simp) (by simp [content, hpage]) ?_
  rw [InvalidationBatch.pages_add hadd, ← Multiset.coe_add, Multiset.add_comm]
  rfl

end Node

/-! ## What one step keeps -/

section Steps

variable {interval : Nat} {isHtBucket : F → Bool} {s s' : Node B F C T P}

/-- A step keeps the frames in order. -/
theorem Step.frames (st : Step interval isHtBucket s s') (h : Frames isHtBucket s) :
    Frames isHtBucket s' := by
  cases st with
  | pop _ _ => exact (h.congr rfl rfl rfl : Frames isHtBucket (s.popped _)).setOp (by simp)
  | pushBack _ => exact (h.congr rfl rfl rfl : Frames isHtBucket (s.push _)).setOp (by simp)
  | @insert t p f rest pid owner _ htakes _ _ =>
    refine (h.take htakes ?_).setOp (by simp)
    cases owner <;> constructor <;> simp
  | @newPage t p f rest pid _ htakes _ =>
    refine (h.take htakes ?_).setOp (by simp)
    constructor <;> simp
  | @duplicatePid t p f pid _ _ _ =>
    exact (h.congr rfl rfl rfl : Frames isHtBucket { s with unwound := p ::ₘ s.unwound }).setOp
      (by simp)
  | @remoteAllocation t f rest pid _ htakes _ =>
    refine h.take htakes ?_
    have hpage := ((h.ok f).free (h.free_of_takes htakes)).1
    constructor <;> simp [hpage]
  | @latch t f hlatch => exact h.setFrame ((h.ok f).relatch (by simp [hlatch]) (by simp)) id
  | @unlatch t f hlatch => exact h.setFrame ((h.ok f).relatch (by simp [hlatch]) (by simp)) id
  | @loaded t f hlatch hstate =>
    have hpage := (h.ok f).filled (by tauto)
    refine h.setFrame ?_ ?_
    · constructor <;> simp [hlatch, hpage]
    · rcases hstate with hs | hs <;> simp [hs]
  | @refill t f p hlatch hstate _ =>
    refine (h.congr rfl rfl rfl : Frames isHtBucket (s.popped p)).setFrame ?_ ?_
    · constructor <;> simp [hstate]
    · exact id
  | @refilled t f hlatch =>
    obtain ⟨hstate, hpage⟩ := (h.ok f).refilling t hlatch
    refine h.setFrame ?_ (by simp [hstate])
    constructor <;> simp [hpage]
  | @copyFailed t f p hlatch _ =>
    obtain ⟨hstate, _⟩ := (h.ok f).refilling t hlatch
    refine (h.congr rfl rfl rfl : Frames isHtBucket (s.push p)).setFrame ?_ ?_
    · constructor <;> simp [hstate]
    · exact id
  | pushReclaimed _ _ | resetPassive _ | swapBatches _ _ => exact h.congr rfl rfl rfl
  | @sendAway t f p c b hlatch hstate _ _ =>
    have hused : ((s.park c b).frame f).state ≠ .free := fun hfree => by
      cases hstate.symm.trans hfree
    refine (h.congr rfl rfl rfl : Frames isHtBucket (s.park c b)).setFrame ?_ (absurd · hused)
    constructor <;> simp
  | @move t f p c b _ hidle hstate _ _ =>
    exact (h.congr rfl rfl rfl : Frames isHtBucket (s.park c b)).removeFrame hstate hidle
  | @update t f p c b hlatch hstate hpage _ =>
    refine (h.congr rfl rfl rfl : Frames isHtBucket (s.park c b)).setFrame ?_ ?_
    · constructor <;> simp [hlatch]
    · intro hfree
      simp [((h.ok f).free hfree).1] at hpage
  | @evict t f p _ hstate _ =>
    refine Frames.setFrame (h.congr ?_ ?_ ?_) ?_ ?_
    · simp
    · simp
    · simp
    · constructor <;> simp
    · simp [hstate]
  | @evictFrame t f p _ hidle hstate _ =>
    refine Frames.removeFrame (h.congr ?_ ?_ ?_) ?_ ?_ <;> simp [hstate, hidle]
  | @takeOver t f hlatch hstate _ _ =>
    refine Frames.setFrame (h.congr rfl rfl rfl) ?_ ?_
    · constructor <;> simp [hlatch]
    · simp [hstate]
  | @dropFrame t f _ hidle hstate _ => exact h.removeFrame (by simp [hstate]) hidle
  | fillPrivate hfull _ => exact h.congr rfl rfl rfl
  | @reclaimPage t f p _ hidle hstate _ =>
    exact (h.congr rfl rfl rfl : Frames isHtBucket (s.push p)).removeFrame
      (show (s.frame f).state ≠ .free by simp [hstate]) hidle
  | returnFrame pushed hop => exact h.returnFrame hop pushed

/-- What is gone does not come back. -/
theorem Step.unwound_subset (st : Step interval isHtBucket s s') : s.unwound ⊆ s'.unwound := by
  have hhandOver : ∀ t p, (s.handOver t p).unwound = s.unwound := by
    intro t p
    unfold Node.handOver
    split <;> rfl
  have hremove : ∀ (s₁ : Node B F C T P) t f,
      (s₁.removeFrame isHtBucket t f).unwound = s₁.unwound := by
    intro s₁ t f
    unfold Node.removeFrame
    split <;> rfl
  cases st with
  | duplicatePid _ _ _ _ => exact Multiset.subset_of_le (Multiset.le_cons_self _ _)
  | move _ _ _ _ _ | dropFrame _ _ _ _ | reclaimPage _ _ _ _ =>
    exact (hremove _ _ _).symm ▸ Multiset.Subset.refl _
  | evict _ _ _ => exact (hhandOver _ _).symm ▸ Multiset.Subset.refl _
  | evictFrame _ _ _ _ =>
    rw [hremove, hhandOver]
    exact Multiset.Subset.refl _
  | _ => exact Multiset.Subset.refl _

/-- A step leaves every page in one place, unless it loses it. -/
theorem Step.inOnePlace (st : Step interval isHtBucket s s') (hframes : Frames isHtBucket s) {x : B}
    (h : InOnePlace s.content x) (hx : x ∉ s'.unwound) : InOnePlace s'.content x := by
  cases st with
  | @pop t p hidle hmem =>
    rw [Node.content_setOp, Node.popped, Node.content_setFreeList]
    refine h.move (m := {p}) (by simp) ?_ ?_
    · exact (Multiset.cons_erase hmem).symm
    · simp [Node.content, Op.page, hidle]
  | @pushBack t p hop =>
    rw [Node.content_setOp, Node.push, Node.content_setFreeList]
    refine h.move_back (m := {p}) (by simp) ?_ rfl
    simp [Node.content, Op.page, hop]
  | @insert t p f rest pid owner hop htakes _ _ =>
    have hpage := ((hframes.ok f).free (hframes.free_of_takes htakes)).1
    rw [Node.content_setOp, Node.content_setFrame, Node.content_setFrameFreeList]
    refine h.move_back (m := {p}) (by simp) ?_ ?_
    · simp [Node.content, Op.page, hop]
    · simp [Node.content, hpage]
  | @newPage t p f rest pid hop htakes _ =>
    have hpage := ((hframes.ok f).free (hframes.free_of_takes htakes)).1
    rw [Node.content_setOp, Node.content_setFrame, Node.content_setFrameFreeList]
    refine h.move_back (m := {p}) (by simp) ?_ ?_
    · simp [Node.content, Op.page, hop]
    · simp [Node.content, hpage]
  | @duplicatePid t p f pid hop _ _ =>
    rw [Node.content_setOp]
    refine h.drop (m := {p}) ?_ ?_
    · simp [Node.content, Op.page, hop]
    · intro hp
      obtain rfl := Multiset.mem_singleton.mp hp
      exact hx (Multiset.mem_cons_self x s.unwound)
  | remoteAllocation pid _ _ _ =>
    refine Node.inOnePlace_setFrame ?_ rfl
    rwa [Node.content_setFrameFreeList]
  | latch _ => exact Node.inOnePlace_setFrame h rfl
  | unlatch _ => exact Node.inOnePlace_setFrame h rfl
  | loaded _ _ => exact Node.inOnePlace_setFrame h rfl
  | @refill t f p hlatch hstate hmem =>
    have hpage := (hframes.ok f).evicted hstate (by simp [hlatch])
    rw [Node.content_setFrame, Node.popped, Node.content_setFreeList]
    refine h.move (m := {p}) (by simp) ?_ ?_
    · exact (Multiset.cons_erase hmem).symm
    · simp [Node.content, hpage]
  | refilled _ => exact Node.inOnePlace_setFrame h rfl
  | @copyFailed t f p _ hpage =>
    rw [Node.content_setFrame, Node.push, Node.content_setFreeList]
    refine h.move_back (m := {p}) (by simp) ?_ rfl
    simp [Node.content, hpage]
  | @pushReclaimed c p hlt hpage =>
    rw [Node.content_pushReclaimed]
    refine h.move (m := {p}) (by simp) ?_ rfl
    simp only [Node.content, InvalidationBatch.pending_succ hlt hpage]
    rfl
  | resetPassive hreclaimed => exact Node.inOnePlace_resetPassive h hreclaimed
  | swapBatches _ hreclaimed => exact Node.inOnePlace_swapBatches h hreclaimed
  | @sendAway t f p c b _ _ hpage hadd | @update t f p c b _ _ hpage hadd =>
    rw [Node.content_setFrame, Node.content_park]
    exact Node.inOnePlace_park h hpage hadd
  | @move t f p c b _ hidle _ hpage hadd =>
    rw [Node.content_removeFrame (s.park c b) _ _ _ hidle, Node.content_park]
    exact Node.inOnePlace_park h hpage hadd
  | @evict t f p _ _ hpage =>
    obtain ⟨k, hk, hcontent⟩ := s.content_handOver t p
    rw [Node.content_setFrame, hcontent]
    exact h.move_back (m := {p}) (hk f) (by simp [Node.content, hpage]) rfl
  | @evictFrame t f p _ hidle _ hpage =>
    obtain ⟨k, hk, hcontent⟩ := s.content_handOver t p
    rw [Node.content_removeFrame _ _ _ _ (by simpa using hidle), hcontent]
    exact h.move_back (m := {p}) (hk f) (by simp [Node.content, hpage]) rfl
  | @takeOver t f _ _ hpage hcount =>
    rw [Node.content_setFrame, Node.content_setPrivate]
    refine h.move (m := {(s.privatePageBuffer t).peek}) (by simp) ?_ ?_
    · simp only [Node.content, RingBuffer.toList_remove _ hcount]
      rfl
    · simp [Node.content, hpage]
  | @dropFrame t f _ hidle _ hpage =>
    rw [Node.content_removeFrame _ _ _ _ hidle]
    refine h.congr fun k => ?_
    by_cases hk : k = .frame f
    · subst hk
      simp [Node.content, hpage]
    · rw [Function.update_of_ne hk]
  | @fillPrivate t p hfull hmem =>
    rw [Node.popped, Node.content_setPrivate, Node.content_setFreeList]
    refine h.move (m := {p}) (by simp) ?_ ?_
    · exact (Multiset.cons_erase hmem).symm
    · rw [RingBuffer.toList_add, ← Multiset.coe_add, Multiset.add_comm]
      rfl
  | @reclaimPage t f p _ hidle _ hpage =>
    rw [Node.content_removeFrame (s.push p) _ _ _ hidle, Node.push, Node.content_setFreeList]
    refine h.move_back (m := {p}) (by simp) ?_ rfl
    simp [Node.content, hpage]
  | @returnFrame t f pushed hop =>
    rw [Node.content_setOp, Node.content_setFrameFreeList]
    refine h.congr fun k => ?_
    by_cases hk : k = .localVariable t
    · subst hk
      simp [Node.content, hop, Op.page]
    · rw [Function.update_of_ne hk]

theorem Init.inOrder (h : Init isHtBucket s) : Frames isHtBucket s := by
  refine ⟨?_, h.frameFreeList.1, ?_, ?_, ?_⟩
  · intro f
    rw [h.frames f]
    exact BufferFrame.ok_reset
  · intro f hf
    refine ⟨h.frameFreeList.2 f hf, ?_⟩
    rw [h.frames f]
    rfl
  · intro t f hf
    simp [h.ops t] at hf
  · intro t t' f hf
    simp [h.ops t] at hf

theorem Init.inOnePlace (h : Init isHtBucket s) (x : B) : InOnePlace s.content x := by
  refine .of_count (k := .freeList) (h.pages x) ?_
  intro k hk
  cases k with
  | freeList => exact absurd rfl hk
  | privateBuffer t => simp [Node.content, RingBuffer.toList, h.buffers t]
  | active c => simp [Node.content, InvalidationBatch.pages, (h.batches c).1]
  | passive c =>
    obtain ⟨_, hpassive, hreclaimed⟩ := h.batches c
    simp [Node.content, InvalidationBatch.pages, hpassive, hreclaimed]
  | frame f => simp [Node.content, h.frames f, BufferFrame.reset]
  | localVariable t => simp [Node.content, h.ops t, Op.page]

theorem frames_of_reachable (hs : (pagePool interval isHtBucket).Reachable s) :
    Frames isHtBucket s := by
  refine hs.invariant (P := Frames isHtBucket) ?_ ?_
  · intro s h
    exact Init.inOrder h
  · intro s s' _ h st
    exact Step.frames st h

/-- A frame that is `HOT` or being read into always has a page, so the branches that hand the page
of such a frame over never hand over a null pointer. -/
theorem page_of_filled (hs : (pagePool interval isHtBucket).Reachable s) {f : F}
    (hf : (s.frame f).state = .hot ∨ (s.frame f).state = .ioRdma ∨ (s.frame f).state = .ioSsd) :
    (s.frame f).page ≠ none :=
  ((frames_of_reachable hs).ok f).filled hf

/-- In every reachable state every page that no operation lost by raising is in exactly one
place: the free list, one private buffer, one batch, one frame, or one local variable.  By their
element counts alone the batches name it a second time exactly when a running
`reclaimInvalidations` has pushed it already. -/
theorem pages_in_one_place (hs : (pagePool interval isHtBucket).Reachable s) {x : B}
    (hx : x ∉ s.unwound) :
    InOnePlace s.content x ∧
      (InOnePlace s.counted x ↔ ∀ c, x ∉ (s.passive c).pushed (s.reclaimed c)) := by
  have hplace : x ∉ s.unwound → InOnePlace s.content x := by
    refine hs.invariant (P := fun s => x ∉ s.unwound → InOnePlace s.content x) ?_ ?_
    · intro s h _
      exact Init.inOnePlace h x
    · intro s s' hs h st hx
      exact st.inOnePlace (frames_of_reachable hs) (h fun hold => hx (st.unwound_subset hold)) hx
  refine ⟨hplace hx, ?_⟩
  rw [Node.counted_eq, (hplace hx).add_iff]
  constructor
  · intro h c
    simpa using h (.passive c)
  · intro h k
    cases k with
    | passive c => simpa using h c
    | _ => exact Multiset.notMem_zero x

end Steps

/-- Three pages, an inline frame and one for the chain, one thread and one client. -/
def freshNode : Node (Fin 3) Bool Unit Unit Bool where
  pageFreeList := {0, 1, 2}
  frameFreeList := [false]
  privatePageBuffer _ := ⟨1, fun _ => 0, 0, 0, ⟨0, rfl⟩, by decide, by decide, by decide⟩
  active _ := ⟨fun _ => none, 0⟩
  passive _ := ⟨fun _ => none, 0⟩
  reclaimed _ := 0
  frame _ := .reset
  op _ := .idle
  unwound := 0

theorem freshNode_init : Init id freshNode :=
  ⟨by decide, fun _ => rfl, fun _ => ⟨rfl, rfl, rfl⟩, fun _ => rfl,
    ⟨by decide, by decide⟩, fun _ => rfl, rfl⟩

theorem freshNode_reachable : (pagePool 16 id).Reachable freshNode := .init freshNode_init

/-- The owner allocates a page for another node and then tries to copy it back: the page it popped
for the copy is back in one place. -/
theorem pages_in_one_place_copyFailed :
    ∃ s : Node (Fin 3) Bool Unit Unit Bool, (pagePool 16 id).Reachable s ∧
      (s.frame true).state = .evicted ∧ s.pageFreeList = {0, 1, 2} ∧ InOnePlace s.content 0 := by
  have hallocated := freshNode_reachable.step
    (.remoteAllocation (t := ()) (f := true) false rfl (.inline rfl rfl) rfl)
  have hrefill := hallocated.step (.refill (t := ()) (f := true) (p := 0) rfl rfl (by decide))
  have hfailed := hrefill.step (.copyFailed (t := ()) (f := true) (p := 0) rfl rfl)
  exact ⟨_, hfailed, rfl, by decide, (pages_in_one_place hfailed (by decide)).1⟩

/-- While a batch is reclaimed, a page is in the free list and still counted by the batch.  And
when a PID that has been given back is fixed once more before it is handed out again, the page
popped for it is nowhere. -/
theorem page_counted_twice_or_lost :
    (∃ s : Node (Fin 3) Bool Unit Unit Bool, (pagePool 16 id).Reachable s ∧
      0 ∈ s.counted .freeList ∧ 0 ∈ s.counted (.passive ())) ∧
    ∃ s : Node (Fin 3) Bool Unit Unit Bool, (pagePool 16 id).Reachable s ∧
      ∀ k, 2 ∉ s.counted k := by
  have hpopped := freshNode_reachable.step (.pop (t := ()) (p := 0) rfl (by decide))
  have hnew := hpopped.step
    (.newPage (t := ()) (p := 0) (f := true) false rfl (.inline rfl rfl) rfl)
  constructor
  · -- another node takes the page, and a later message reclaims the buffer
    have hsent := hnew.step (.sendAway (t := ()) (f := true) (c := ()) rfl rfl rfl rfl)
    have hswapped := hsent.step (.swapBatches (c := ()) rfl rfl)
    have hpushed := hswapped.step (.pushReclaimed (c := ()) (p := 0) (by decide) rfl)
    exact ⟨_, hpushed, by decide, by decide⟩
  · have hunlatched := hnew.step (.unlatch (t := ()) (f := true) rfl)
    have hpopped₁ := hunlatched.step (.pop (t := ()) (p := 1) rfl (by decide))
    have hnew₁ := hpopped₁.step
      (.newPage (t := ()) (p := 1) (f := false) true rfl (.chained (by decide)) rfl)
    have hreclaimed := hnew₁.step (.reclaimPage (t := ()) (f := false) rfl rfl rfl rfl)
    have hreturned := hreclaimed.step (.returnFrame (t := ()) true rfl)
    -- a reader that still knows the PID fixes it
    have hpopped₂ := hreturned.step (.pop (t := ()) (p := 1) rfl (by decide))
    have hfixed := hpopped₂.step
      (.insert (t := ()) (p := 1) (f := false) true true rfl (.chained (by decide)) rfl rfl)
    have hpopped₃ := hfixed.step (.pop (t := ()) (p := 2) rfl (by decide))
    have hraised := hpopped₃.step (.duplicatePid (t := ()) (f := false) true rfl rfl rfl)
    refine ⟨_, hraised, ?_⟩
    intro k
    cases k with
    | freeList => decide
    | frame f => cases f <;> decide
    | privateBuffer t | active c | passive c | localVariable t => exact Multiset.notMem_zero _

end ScaleStore.PagePool
