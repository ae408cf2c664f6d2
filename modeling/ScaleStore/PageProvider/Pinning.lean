/-
# Pinned pages and the selection of frames

Pages that are never to be evicted get the largest epoch there is.  Phase 3 of the
page provider samples epochs, takes a quantile for its eviction window, collects the
frames of a batch level by level, and looks at each candidate again before and after
it has read the version of its latch.

A window below the largest epoch keeps pinned frames out, and it is below as soon as
enough of the samples are.  Without an SSD to evict to, the window is not used at
all, and nothing of the rule that is used instead looks at the epoch.
-/

import ScaleStore.Lib.System
import ScaleStore.PageProvider.Sampling
import Mathlib.Data.List.Sort

namespace ScaleStore.PageProvider.Pinning

variable {F PID : Type}

/-! ## Frames -/

/-- The largest epoch; `~uint64_t(0)` of the pinned pages. -/
def EMPTY_EPOCH : BitVec 64 := ~~~0#64

inductive Possession where
  | nobody
  | exclusive
  | shared
deriving DecidableEq, Repr

/-- What phase 3 reads of a frame; `none` is `EMPTY_PID`. -/
structure BufferFrame (F PID : Type) where
  pid : Option PID
  state : BfState
  possession : Possession
  /-- `possessors.shared`. -/
  shared : Finset Nat
  dirty : Bool
  epoch : BitVec 64
  latched : Bool
  version : Nat
  next : Option F

/-- The node and its flags. -/
structure Config (F PID : Type) where
  FLAGS_evict_to_ssd : Bool
  FLAGS_evictCoolestEpochs : ℚ
  rounding : ℚ → ℚ
  nodeId : Nat
  getOwner : PID → Nat
  bfs : Nat → F
  partition_begin : Nat
  partition_size : Nat

section Definitions

variable (cfg : Config F PID)

/-- `frame.pid.getOwner() == bm.nodeId`. -/
def BufferFrame.IsOwn (frame : BufferFrame F PID) : Prop :=
  frame.pid.map cfg.getOwner = some cfg.nodeId

/-- `remote_condition`. -/
def RemoteCondition (frame : BufferFrame F PID) : Prop :=
  (frame.IsOwn cfg ∧ frame.state = .hot ∧ frame.possession = .shared ∧ frame.latched = false ∧
    ((cfg.nodeId ∈ frame.shared ∧ 1 < frame.shared.card) ∨
      (cfg.nodeId ∉ frame.shared ∧ 1 ≤ frame.shared.card))) ∨
  (¬ frame.IsOwn cfg ∧ frame.state = .hot ∧ frame.latched = false)

/-- The frame goes into `candidate_batch`. -/
def IsCandidate (eviction_window : Nat) (frame : BufferFrame F PID) : Prop :=
  frame.pid ≠ none ∧ frame.latched = false ∧
    if cfg.FLAGS_evict_to_ssd = true then frame.epoch.toNat ≤ eviction_window
    else RemoteCondition cfg frame

/-- The conditions that passes over frames, of both traversals. -/
def BufferFrame.IsUnused (frame : BufferFrame F PID) : Prop :=
  frame.state = .free ∨ frame.state = .evicted

/-- A candidate, or a page that has been written, is looked at again. -/
def Rechecks (epoch : BitVec 64) (frame : BufferFrame F PID) : Prop :=
  epoch = frame.epoch ∧ frame.pid ≠ none ∧ ¬ frame.IsUnused

/-- What `evict_owner_page` does as far as phase 3 goes on with it: its result, and whether the
frame goes to the write buffer.  Whether that is full and whether the latch can be downgraded is
left to the surroundings. -/
def evict_owner_page (frame : BufferFrame F PID) (full downgraded : Bool) : Bool × Bool :=
  if cfg.FLAGS_evict_to_ssd && frame.dirty then
    if full then (false, false) else (true, downgraded)
  else (true, false)

/-- The write buffer with a frame added to it or not. -/
def withWrite (write_buffer : List (F × BitVec 64)) (added : Bool) (frame : F)
    (epoch : BitVec 64) : List (F × BitVec 64) :=
  if added then write_buffer ++ [(frame, epoch)] else write_buffer

end Definitions

/-! ## Phase 3 -/

/-- Where the page provider is. -/
inductive Point (F : Type) where
  | idle
  /-- In a level of the sampling traversal. -/
  | sampling
  /-- In a level of the traversal for candidates. -/
  | selecting
  /-- In `post_process_level`, between two candidates. -/
  | processing
  /-- The latch of the candidate was free at this version. -/
  | versioned (epoch : BitVec 64) (frame : F) (version : Nat)
  | rechecked (epoch : BitVec 64) (frame : F) (version : Nat)
  /-- The candidate is latched exclusively. -/
  | latched (epoch : BitVec 64) (frame : F)

structure State (F PID : Type) where
  table : F → BufferFrame F PID
  point : Point F
  cursor : Cursor F
  current_batch_offset : Nat
  /-- The buckets of the traversal for candidates. -/
  begin_bfs : Nat
  end_bfs : Nat
  sampling_needed : Bool
  sample_epochs : List Nat
  eviction_window : Nat
  /-- The candidates of this level that have not been processed. -/
  candidate_batch : List (BitVec 64 × F)
  /-- What has been added to the write buffer and has not been called back. -/
  write_buffer : List (F × BitVec 64)
  /-- The frames that have been latched, given to `evict_owner_page` and put into requests. -/
  latched : List F
  evicted : List F
  requested : List F

/-- What happens next. -/
inductive Action (F PID : Type) where
  /-- The other threads. -/
  | world
  /-- The traversal for candidates visits a frame. -/
  | select (frame : F) (seen : BufferFrame F PID)
  /-- The window is taken from the samples. -/
  | endSampling
  /-- Any other step of phase 3. -/
  | provider

section Steps

variable (cfg : Config F PID)

/-- The batch of the buckets from an offset on. -/
def State.fill (s : State F PID) (offset : Nat) : Cursor F :=
  .fill cfg.bfs (offset % cfg.partition_size + cfg.partition_begin)
    (batchEnd cfg.partition_size offset + cfg.partition_begin) s.cursor.batch

/-- Entering phase 3: the buckets to evict from are chosen, and the offset is moved on. -/
def State.enter (s : State F PID) : State F PID :=
  { s with
    begin_bfs := s.current_batch_offset % cfg.partition_size + cfg.partition_begin
    end_bfs := batchEnd cfg.partition_size s.current_batch_offset + cfg.partition_begin
    current_batch_offset :=
      batchEnd cfg.partition_size s.current_batch_offset % cfg.partition_size }

/-- The next batch of the sampling loop. -/
def State.sampleBatch (s : State F PID) : State F PID :=
  { s with
    point := .sampling
    cursor := s.fill cfg s.current_batch_offset
    current_batch_offset :=
      batchEnd cfg.partition_size s.current_batch_offset % cfg.partition_size }

/-- The traversal for candidates begins. -/
def State.selectBatch (s : State F PID) : State F PID :=
  { s with
    point := .selecting
    cursor := .fill cfg.bfs s.begin_bfs s.end_bfs s.cursor.batch
    candidate_batch := [] }

/-- The fields of a frame are read one by one, so that what is seen of it need not be of one time,
except that the epoch is the present one. -/
def Sees (s : State F PID) (frame : F) (seen : BufferFrame F PID) : Prop :=
  seen.epoch = (s.table frame).epoch

/-- The frame is visited. -/
def Visits (s : State F PID) (frame : F) (seen : BufferFrame F PID) : Prop :=
  s.cursor.b_i < s.cursor.entries ∧ s.cursor.batch s.cursor.b_i = some frame ∧ Sees s frame seen

/-- The latch is free at this version, and is taken. -/
def Upgrades [DecidableEq F] (s : State F PID) (frame : F) (version : Nat)
    (table : F → BufferFrame F PID) : Prop :=
  (s.table frame).latched = false ∧ (s.table frame).version = version ∧
    table = Function.update s.table frame { s.table frame with latched := true }

/-- The steps of phase 3 and of the threads beside it, which may do anything to the frames. -/
inductive Step [DecidableEq F] (s : State F PID) : Action F PID → State F PID → Prop where
  | world (table) : Step s .world { s with table := table }
  | incrementEpoch : s.point = .idle → Step s .provider { s with sampling_needed := true }
  | enterSampling : s.point = .idle → cfg.FLAGS_evict_to_ssd = true → s.sampling_needed = true →
    Step s .provider (({ s.enter cfg with sample_epochs := [] } : State F PID).sampleBatch cfg)
  | enterSelecting : s.point = .idle →
    ¬ (cfg.FLAGS_evict_to_ssd = true ∧ s.sampling_needed = true) →
    Step s .provider ((s.enter cfg).selectBatch cfg)
  /-- An entry without a frame. -/
  | skip : s.point = .sampling ∨ s.point = .selecting → s.cursor.b_i < s.cursor.entries →
    s.cursor.batch s.cursor.b_i = none →
    Step s .provider { s with cursor := s.cursor.advance none }
  | sampledEnough {frame seen} : s.point = .sampling → Visits s frame seen →
    s.sample_epochs.length = required_samples →
    Step s .provider { s with cursor := s.cursor.nextLevel }
  | sampleUnused {frame seen} : s.point = .sampling → Visits s frame seen →
    s.sample_epochs.length ≠ required_samples → seen.IsUnused →
    Step s .provider { s with cursor := s.cursor.advance seen.next }
  | sample {frame seen} : s.point = .sampling → Visits s frame seen →
    s.sample_epochs.length ≠ required_samples → ¬ seen.IsUnused →
    Step s .provider { s with
      cursor := s.cursor.advance seen.next
      sample_epochs := s.sample_epochs ++ [seen.epoch.toNat] }
  | sampleLevel : s.point = .sampling → s.cursor.entries ≤ s.cursor.b_i → s.cursor.entries ≠ 0 →
    Step s .provider { s with cursor := s.cursor.nextLevel }
  | sampleAgain : s.point = .sampling → s.cursor.entries = 0 →
    s.sample_epochs.length < required_samples → Step s .provider (s.sampleBatch cfg)
  | endSampling {eviction_window} : s.point = .sampling → s.cursor.entries = 0 →
    required_samples ≤ s.sample_epochs.length →
    evictionWindow cfg.rounding cfg.FLAGS_evictCoolestEpochs s.sample_epochs =
      some eviction_window →
    Step s .endSampling (({ s with
      eviction_window := eviction_window
      sampling_needed := false } : State F PID).selectBatch cfg)
  | pass {frame seen} : s.point = .selecting → Visits s frame seen →
    seen.IsUnused ∨ ¬ IsCandidate cfg s.eviction_window seen →
    Step s (.select frame seen) { s with cursor := s.cursor.advance seen.next }
  | collect {frame seen} : s.point = .selecting → Visits s frame seen → ¬ seen.IsUnused →
    IsCandidate cfg s.eviction_window seen →
    Step s (.select frame seen) { s with
      cursor := s.cursor.advance seen.next
      candidate_batch := s.candidate_batch ++ [(seen.epoch, frame)] }
  | selectLevel : s.point = .selecting → s.cursor.entries ≤ s.cursor.b_i → s.cursor.entries ≠ 0 →
    Step s .provider { s with point := .processing }
  | endSelecting : s.point = .selecting → s.cursor.entries = 0 →
    Step s .provider { s with point := .idle }
  /-- The candidate is latched by someone. -/
  | candidateLatched {epoch frame rest} : s.point = .processing →
    s.candidate_batch = (epoch, frame) :: rest → (s.table frame).latched = true →
    Step s .provider { s with candidate_batch := rest }
  | readVersion {epoch frame rest} : s.point = .processing →
    s.candidate_batch = (epoch, frame) :: rest → (s.table frame).latched = false →
    Step s .provider { s with
      point := .versioned epoch frame (s.table frame).version
      candidate_batch := rest }
  | recheck {epoch frame version seen} : s.point = .versioned epoch frame version →
    Sees s frame seen → Rechecks epoch seen →
    Step s .provider { s with point := .rechecked epoch frame version }
  | recheckFailed {epoch frame version seen} : s.point = .versioned epoch frame version →
    Sees s frame seen → ¬ Rechecks epoch seen → Step s .provider { s with point := .processing }
  | upgrade {epoch frame version table} : s.point = .rechecked epoch frame version →
    Upgrades s frame version table →
    Step s .provider { s with
      table := table
      point := .latched epoch frame
      latched := s.latched ++ [frame] }
  | upgradeFailed {epoch frame version} : s.point = .rechecked epoch frame version →
    (∀ table, ¬ Upgrades s frame version table) → Step s .provider { s with point := .processing }
  /-- A page of this node; when it cannot be written, the candidates behind it are left. -/
  | evictOwner {epoch frame full downgraded} : s.point = .latched epoch frame →
    (s.table frame).IsOwn cfg →
    Step s .provider { s with
      point := .processing
      candidate_batch :=
        if (evict_owner_page cfg (s.table frame) full downgraded).1 then s.candidate_batch else []
      write_buffer := withWrite s.write_buffer
        (evict_owner_page cfg (s.table frame) full downgraded).2 frame epoch
      evicted := s.evicted ++ [frame] }
  /-- The request for the owner is full: the latch is given back. -/
  | requestFull {epoch frame} : s.point = .latched epoch frame → ¬ (s.table frame).IsOwn cfg →
    Step s .provider { s with
      table := Function.update s.table frame { s.table frame with latched := false }
      point := .processing
      candidate_batch := [] }
  | request {epoch frame} : s.point = .latched epoch frame → ¬ (s.table frame).IsOwn cfg →
    (s.table frame).state = .hot →
    Step s .provider { s with point := .processing, requested := s.requested ++ [frame] }
  /-- The candidates of the level have been processed. -/
  | processed : s.point = .processing → s.candidate_batch = [] →
    Step s .provider { s with point := .selecting, cursor := s.cursor.nextLevel }
  /-- `poll_write_buffer`: a page has been written, and is not evicted. -/
  | written {frame epoch write_buffer} : s.write_buffer.Perm ((frame, epoch) :: write_buffer) →
    Step s .provider { s with write_buffer := write_buffer }
  | writtenEvict {frame epoch write_buffer full downgraded seen version table} :
    s.write_buffer.Perm ((frame, epoch) :: write_buffer) → Sees s frame seen →
    Rechecks epoch seen → Upgrades s frame version table →
    Step s .provider { s with
      table := table
      write_buffer := withWrite write_buffer
        (evict_owner_page cfg (s.table frame) full downgraded).2 frame epoch
      latched := s.latched ++ [frame]
      evicted := s.evicted ++ [frame] }

end Steps

/-! ## Runs with a pinned frame -/

section Runs

variable [DecidableEq F] (cfg : Config F PID) (pinned : F)

/-- Phase 3 has not been entered, the frame is pinned and not about to be called back as pinned, and
the window so far is below the largest epoch. -/
structure Init (s : State F PID) : Prop where
  epoch : (s.table pinned).epoch = EMPTY_EPOCH
  point : s.point = .idle
  candidate_batch : s.candidate_batch = []
  write_buffer : (pinned, EMPTY_EPOCH) ∉ s.write_buffer
  eviction_window : s.eviction_window < EMPTY_EPOCH.toNat
  latched : s.latched = []
  evicted : s.evicted = []
  requested : s.requested = []

/-- The frame stays pinned, and steps meet a condition on the state before them. -/
def system (good : State F PID → Action F PID → Prop) : System (State F PID) where
  Init := Init pinned
  Step s s' := ∃ action, Step cfg s action s' ∧ (s'.table pinned).epoch = EMPTY_EPOCH ∧
    good s action

/-- More samples are below the largest epoch than the index says, and without an SSD the pinned
frame is not seen as `remote_condition` wants it. -/
def Spares (s : State F PID) : Action F PID → Prop
  | .endSampling => ∀ eviction_idx,
      evictionIdx cfg.rounding cfg.FLAGS_evictCoolestEpochs s.sample_epochs.length =
        some eviction_idx →
      eviction_idx < s.sample_epochs.countP (· < EMPTY_EPOCH.toNat)
  | .select frame seen =>
      cfg.FLAGS_evict_to_ssd = false → frame = pinned → ¬ RemoteCondition cfg seen
  | .world | .provider => True

/-- The frame has not been chosen. -/
structure Spared (s : State F PID) : Prop where
  latched : pinned ∉ s.latched
  evicted : pinned ∉ s.evicted
  requested : pinned ∉ s.requested

end Runs

/-! ## The window -/

/-- In a sorted list the elements below a bound come first. -/
theorem getElem_lt_iff {l : List Nat} (h : l.Pairwise (· ≤ ·)) {i M : Nat} (hi : i < l.length) :
    l[i] < M ↔ i < l.countP (· < M) := by
  induction l generalizing i with
  | nil => simp at hi
  | cons a l ih =>
    obtain ⟨hle, hl⟩ := List.pairwise_cons.mp h
    by_cases ha : a < M
    · rw [List.countP_cons_of_pos (by simpa using ha)]
      cases i with
      | zero => simpa using ha
      | succ i => simpa using ih hl (Nat.lt_of_succ_lt_succ hi)
    · have hnone : l.countP (· < M) = 0 := by
        rw [List.countP_eq_zero]
        intro x hx
        have := hle x hx
        simp
        omega
      rw [List.countP_cons_of_neg (by simpa using ha), hnone]
      have hge : a ≤ (a :: l)[i] := by
        cases i with
        | zero => exact le_rfl
        | succ i => exact hle _ (List.getElem_mem _)
      omega

/-- The window is below an epoch if and only if more samples are than the index says. -/
theorem evictionWindow_lt_iff {rounding : ℚ → ℚ} {evictCoolestEpochs : ℚ}
    {sample_epochs : List Nat} {eviction_idx eviction_window : Nat}
    (hidx : evictionIdx rounding evictCoolestEpochs sample_epochs.length = some eviction_idx)
    (h : evictionWindow rounding evictCoolestEpochs sample_epochs = some eviction_window)
    (M : Nat) : eviction_window < M ↔ eviction_idx < sample_epochs.countP (· < M) := by
  rw [evictionWindow, hidx, Option.bind_some, List.getElem?_eq_some_iff] at h
  obtain ⟨hlt, rfl⟩ := h
  rw [getElem_lt_iff (List.pairwise_mergeSort' _ _), (List.mergeSort_perm _ _).countP_eq]

/-! ## The invariant -/

/-- The frame a step of phase 3 is busy with. -/
def Point.frame : Point F → Option F
  | .versioned _ frame _ | .rechecked _ frame _ | .latched _ frame => some frame
  | .idle | .sampling | .selecting | .processing => none

structure Inv (pinned : F) (s : State F PID) : Prop where
  epoch : (s.table pinned).epoch = EMPTY_EPOCH
  point : s.point.frame ≠ some pinned
  candidate_batch : ∀ candidate ∈ s.candidate_batch, candidate.2 ≠ pinned
  write_buffer : (pinned, EMPTY_EPOCH) ∉ s.write_buffer
  eviction_window : s.eviction_window < EMPTY_EPOCH.toNat
  latched : pinned ∉ s.latched
  evicted : pinned ∉ s.evicted
  requested : pinned ∉ s.requested

section Invariant

variable {cfg : Config F PID} {pinned frame : F} {s s' : State F PID}
  {seen : BufferFrame F PID} {action : Action F PID}

theorem Init.inv (h : Init pinned s) : Inv pinned s where
  epoch := h.epoch
  point := by rw [h.point]; exact fun heq => nomatch heq
  candidate_batch := by rw [h.candidate_batch]; exact fun _ hc => nomatch hc
  write_buffer := h.write_buffer
  eviction_window := h.eviction_window
  latched := by rw [h.latched]; exact List.not_mem_nil
  evicted := by rw [h.evicted]; exact List.not_mem_nil
  requested := by rw [h.requested]; exact List.not_mem_nil

/-- A pinned frame is no candidate. -/
theorem Inv.ne_of_isCandidate (hi : Inv pinned s) (hgood : Spares cfg pinned s (.select frame seen))
    (hsees : Sees s frame seen) (h : IsCandidate cfg s.eviction_window seen) : frame ≠ pinned := by
  rintro rfl
  obtain ⟨-, -, hrule⟩ := h
  cases hssd : cfg.FLAGS_evict_to_ssd with
  | true =>
    rw [if_pos hssd, hsees, hi.epoch] at hrule
    exact absurd hi.eviction_window (Nat.not_lt.mpr hrule)
  | false =>
    rw [if_neg (by simp [hssd])] at hrule
    exact hgood hssd rfl hrule

/-- A pinned frame is not evicted once it has been written. -/
theorem Inv.ne_of_rechecks (hi : Inv pinned s) {epoch : BitVec 64}
    (hmem : (frame, epoch) ∈ s.write_buffer) (hsees : Sees s frame seen)
    (h : Rechecks epoch seen) : frame ≠ pinned := by
  rintro rfl
  rw [h.1, hsees, hi.epoch] at hmem
  exact hi.write_buffer hmem

theorem not_mem_snoc {l : List F} (hl : pinned ∉ l) (hne : frame ≠ pinned) :
    pinned ∉ l ++ [frame] := by
  simpa [hl] using hne.symm

theorem not_mem_withWrite {write_buffer : List (F × BitVec 64)} {added : Bool}
    {epoch : BitVec 64} (h : (pinned, EMPTY_EPOCH) ∉ write_buffer) (hne : frame ≠ pinned) :
    (pinned, EMPTY_EPOCH) ∉ withWrite write_buffer added frame epoch := by
  rw [withWrite]
  split
  · simp [h, hne.symm]
  · exact h

theorem Inv.step [DecidableEq F] (hi : Inv pinned s) (hstep : Step cfg s action s')
    (hepoch : (s'.table pinned).epoch = EMPTY_EPOCH) (hgood : Spares cfg pinned s action) :
    Inv pinned s' := by
  -- a step that is busy with no frame
  have hfree (point : Point F) (h : point.frame = none) : point.frame ≠ some pinned :=
    fun heq => nomatch h.symm.trans heq
  have hbusy {point : Point F} {frame : F} (hpoint : s.point = point)
      (hframe : point.frame = some frame) : frame ≠ pinned :=
    fun heq => hi.point (by rw [hpoint, hframe, heq])
  have hempty : ∀ candidate ∈ ([] : List (BitVec 64 × F)), candidate.2 ≠ pinned :=
    fun _ h => nomatch h
  cases hstep with
  | world | incrementEpoch | skip | sampledEnough | sampleUnused | sample | sampleLevel | pass =>
    exact { hi with epoch := hepoch }
  | enterSampling | sampleAgain | selectLevel | endSelecting | processed | recheckFailed
  | upgradeFailed =>
    exact { hi with epoch := hepoch, point := hfree _ rfl }
  | enterSelecting =>
    exact { hi with point := hfree _ rfl, candidate_batch := hempty }
  | endSampling h hend hsamples hwindow =>
    refine { hi with point := hfree _ rfl, candidate_batch := hempty,
                     eviction_window := ?_ }
    obtain ⟨eviction_idx, hidx, -⟩ := Option.bind_eq_some_iff.mp hwindow
    exact (evictionWindow_lt_iff hidx hwindow _).mpr (hgood eviction_idx hidx)
  | collect h hvisits hused hcandidate =>
    refine { hi with candidate_batch := fun candidate hmem => ?_ }
    rcases List.mem_append.mp hmem with hmem | hmem
    · exact hi.candidate_batch candidate hmem
    · rw [List.mem_singleton.mp hmem]
      exact hi.ne_of_isCandidate hgood hvisits.2.2 hcandidate
  | candidateLatched h hbatch =>
    refine { hi with candidate_batch := fun candidate hmem => ?_ }
    exact hi.candidate_batch candidate (hbatch ▸ List.mem_cons_of_mem _ hmem)
  | @readVersion epoch frame rest h hbatch =>
    have hne : frame ≠ pinned :=
      hi.candidate_batch (epoch, frame) (hbatch ▸ List.mem_cons_self)
    refine { hi with point := fun heq => hne (Option.some.inj heq),
                     candidate_batch := fun candidate hmem => ?_ }
    exact hi.candidate_batch candidate (hbatch ▸ List.mem_cons_of_mem _ hmem)
  | recheck h =>
    exact { hi with point := fun heq => hbusy h rfl (Option.some.inj heq) }
  | upgrade h =>
    have hne := hbusy h rfl
    exact { hi with epoch := hepoch, point := fun heq => hne (Option.some.inj heq),
                    latched := not_mem_snoc hi.latched hne }
  | @evictOwner epoch frame full downgraded h hown =>
    have hne := hbusy h rfl
    have hleft (b : Bool) : ∀ candidate ∈ (if b then s.candidate_batch else []),
        candidate.2 ≠ pinned := by
      cases b
      · exact hempty
      · exact hi.candidate_batch
    exact { hi with point := hfree _ rfl, candidate_batch := hleft _,
                    write_buffer := not_mem_withWrite hi.write_buffer hne,
                    evicted := not_mem_snoc hi.evicted hne }
  | requestFull h =>
    exact { hi with epoch := hepoch, point := hfree _ rfl, candidate_batch := hempty }
  | request h =>
    exact { hi with point := hfree _ rfl, requested := not_mem_snoc hi.requested (hbusy h rfl) }
  | written hbuffer =>
    exact { hi with write_buffer := fun hmem =>
              hi.write_buffer (hbuffer.mem_iff.mpr (List.mem_cons_of_mem _ hmem)) }
  | @writtenEvict frame epoch write_buffer full downgraded seen version table hbuffer hsees
      hcheck =>
    have hne := hi.ne_of_rechecks (hbuffer.mem_iff.mpr List.mem_cons_self) hsees hcheck
    have hkept : (pinned, EMPTY_EPOCH) ∉ write_buffer := fun hmem =>
      hi.write_buffer (hbuffer.mem_iff.mpr (List.mem_cons_of_mem _ hmem))
    exact { hi with epoch := hepoch, write_buffer := not_mem_withWrite hkept hne,
                    latched := not_mem_snoc hi.latched hne,
                    evicted := not_mem_snoc hi.evicted hne }

end Invariant

/-- As long as the window stays below the largest epoch, and nothing but the epoch is in the way of
`remote_condition`, a pinned frame is never chosen. -/
theorem pinned_spared [DecidableEq F] {cfg : Config F PID} {pinned : F} {s : State F PID}
    (h : (system cfg pinned (Spares cfg pinned)).Reachable s) : Spared pinned s := by
  have hi : Inv pinned s := by
    refine h.invariant (P := Inv pinned) (fun _ => Init.inv) ?_
    rintro s s' - hi ⟨action, hstep, hepoch, hgood⟩
    exact hi.step hstep hepoch hgood
  exact ⟨hi.latched, hi.evicted, hi.requested⟩

/-! ## Two frames without an SSD -/

/-- Node 0, which does not evict to an SSD, with two buckets; page 0 is its own. -/
def remoteOnly : Config Bool Nat where
  FLAGS_evict_to_ssd := false
  FLAGS_evictCoolestEpochs := 1 / 10
  rounding := id
  nodeId := 0
  getOwner := id
  bfs := fun bucket => bucket = 1
  partition_begin := 0
  partition_size := 2

/-- A hot frame that is not latched. -/
def hotFrame (pid : Nat) (possession : Possession) (shared : Finset Nat) (epoch : BitVec 64) :
    BufferFrame Bool Nat :=
  ⟨some pid, .hot, possession, shared, false, epoch, false, 0, none⟩

/-- Before phase 3, with the frame of the second bucket pinned. -/
def start (table : Bool → BufferFrame Bool Nat) : State Bool Nat where
  table := table
  point := .idle
  cursor := ⟨fun _ => none, 0, 0, 0⟩
  current_batch_offset := 0
  begin_bfs := 0
  end_bfs := 0
  sampling_needed := true
  sample_epochs := []
  eviction_window := 0
  candidate_batch := []
  write_buffer := []
  latched := []
  evicted := []
  requested := []

theorem start_init {table : Bool → BufferFrame Bool Nat} (h : (table true).epoch = EMPTY_EPOCH) :
    Init true (start table) :=
  ⟨h, rfl, rfl, List.not_mem_nil, show 0 < EMPTY_EPOCH.toNat by decide, rfl, rfl, rfl⟩

/-- A candidate that is looked at again without anything happening in between is latched. -/
theorem exists_latched {good : State Bool Nat → Action Bool Nat → Prop}
    (hgood : ∀ s, good s .provider) {s : State Bool Nat} {epoch : BitVec 64} {frame : Bool}
    {rest : List (BitVec 64 × Bool)} (h : (system remoteOnly true good).Reachable s)
    (hpoint : s.point = .processing) (hbatch : s.candidate_batch = (epoch, frame) :: rest)
    (hfree : (s.table frame).latched = false) (hcheck : Rechecks epoch (s.table frame))
    (hepoch : (s.table true).epoch = EMPTY_EPOCH) :
    ∃ s', (system remoteOnly true good).Reachable s' ∧ s'.latched = s.latched ++ [frame] := by
  have hversion := h.step ⟨.provider, .readVersion hpoint hbatch hfree, hepoch, hgood _⟩
  have hrechecked := hversion.step ⟨.provider, .recheck rfl rfl hcheck, hepoch, hgood _⟩
  refine ⟨_, hrechecked.step ⟨.provider, .upgrade rfl ⟨hfree, rfl, rfl⟩, ?_, hgood _⟩, rfl⟩
  show (Function.update s.table frame _ true).epoch = EMPTY_EPOCH
  by_cases heq : true = frame
  · subst heq
    rw [Function.update_self]
    exact hepoch
  · rw [Function.update_of_ne heq]
    exact hepoch

/-- A page that a barrier keeps pinned and that another node has read. -/
def sharedTable : Bool → BufferFrame Bool Nat
  | true => hotFrame 0 .shared {0, 1} EMPTY_EPOCH
  | false => { hotFrame 0 .nobody ∅ EMPTY_EPOCH with pid := none, state := .free }

/-- Without an SSD, a pinned page that another node has a copy of is latched by phase 3. -/
theorem shared_page_latched : ¬ ∀ (cfg : Config Bool Nat) (pinned : Bool) (s : State Bool Nat),
    (system cfg pinned fun _ _ => True).Reachable s → Spared pinned s := by
  intro hall
  have hinit : (system remoteOnly true fun _ _ => True).Reachable (start sharedTable) :=
    .init (start_init rfl)
  have henter := hinit.step ⟨.provider, .enterSelecting rfl (by decide), rfl, trivial⟩
  have hpass := henter.step ⟨.select false (sharedTable false),
    .pass rfl ⟨by decide, rfl, rfl⟩ (.inl (.inl rfl)), rfl, trivial⟩
  have hcandidate : RemoteCondition remoteOnly (sharedTable true) :=
    .inl ⟨rfl, rfl, rfl, rfl, .inl ⟨by decide, by decide⟩⟩
  have hused : ¬ (sharedTable true).IsUnused := by rintro (h | h) <;> cases h
  have hcollect := hpass.step ⟨.select true (sharedTable true),
    .collect rfl ⟨by decide, rfl, rfl⟩ hused ⟨nofun, rfl, hcandidate⟩, rfl, trivial⟩
  have hlevel := hcollect.step
    ⟨.provider, .selectLevel rfl (by decide) (by decide), rfl, trivial⟩
  obtain ⟨s, hs, hlatched⟩ :=
    exists_latched (fun _ => trivial) hlevel rfl rfl rfl ⟨rfl, nofun, hused⟩ rfl
  refine (hall _ _ s hs).latched ?_
  rw [hlatched]
  decide

/-- The page of another node, and a pinned page that no other node has. -/
def exclusiveTable : Bool → BufferFrame Bool Nat
  | true => hotFrame 0 .exclusive ∅ EMPTY_EPOCH
  | false => hotFrame 1 .shared {0} 5

/-- The other page is latched, and the pinned one is not. -/
theorem pinned_spared_exclusive : ∃ s : State Bool Nat, s.latched = [false] ∧ Spared true s := by
  have hinit : (system remoteOnly true (Spares remoteOnly true)).Reachable (start exclusiveTable) :=
    .init (start_init rfl)
  have henter := hinit.step ⟨.provider, .enterSelecting rfl (by decide), rfl, trivial⟩
  have hcandidate : RemoteCondition remoteOnly (exclusiveTable false) :=
    .inr ⟨by rw [BufferFrame.IsOwn]; decide, rfl, rfl⟩
  have hused : ¬ (exclusiveTable false).IsUnused := by rintro (h | h) <;> cases h
  have hcollect := henter.step ⟨.select false (exclusiveTable false),
    .collect rfl ⟨by decide, rfl, rfl⟩ hused ⟨nofun, rfl, hcandidate⟩, rfl, fun _ => nofun⟩
  have hspared : ¬ RemoteCondition remoteOnly (exclusiveTable true) := by
    rintro (⟨-, -, h, -⟩ | ⟨h, -⟩)
    · cases h
    · exact h rfl
  have hpass := hcollect.step ⟨.select true (exclusiveTable true),
    .pass rfl ⟨by decide, rfl, rfl⟩ (.inr fun h => hspared h.2.2), rfl, fun _ _ => hspared⟩
  have hlevel := hpass.step ⟨.provider, .selectLevel rfl (by decide) (by decide), rfl, trivial⟩
  obtain ⟨s, hs, hlatched⟩ :=
    exists_latched (fun _ => trivial) hlevel rfl rfl rfl ⟨rfl, nofun, hused⟩ rfl
  exact ⟨s, hlatched, pinned_spared hs⟩

end ScaleStore.PageProvider.Pinning
