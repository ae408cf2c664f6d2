/-
# Sampling epochs

Before a page provider evicts pages to the SSD it collects the epochs of a number of
frames and takes a quantile of them for its eviction window.  It goes through its
partition of the page table batch by batch, round and round, until it has enough.

Frames that are free or evicted are passed over.  In a partition that has no other
ones the loop goes round for ever; otherwise every round adds a sample at least.
-/

import ScaleStore.PageProvider.Traversal
import Mathlib.Algebra.Order.Floor.Defs
import Mathlib.Data.Finset.Lattice.Fold
import Mathlib.Data.Rat.Floor
import Mathlib.Tactic.Linarith
import Mathlib.Tactic.NormNum

namespace ScaleStore.PageProvider

variable {F : Type}

/-! ## The loop -/

/-- `BF_STATE`. -/
inductive BfState where
  | free
  | hot
  | evicted
  | ioRdma
  | ioSsd
  | invalidationExpected
deriving DecidableEq, Repr

def required_samples : Nat := 600

/-- A page table, with what sampling reads of its frames. -/
structure SampledTable (F : Type) extends PageTable F where
  state : F → BfState
  epoch : F → Nat

/-- The condition of the traversal; `sample_epochs` is filled up to `samples`, which is its
length here. -/
def sample (table : SampledTable F) (frame : F) (sample_epochs : List Nat) : Bool × List Nat :=
  if sample_epochs.length = required_samples then (false, sample_epochs)
  else if table.state frame = .free ∨ table.state frame = .evicted then (true, sample_epochs)
  else (true, sample_epochs ++ [table.epoch frame])

/-- The end of the batch that begins at an offset. -/
def batchEnd (partition_size offset : Nat) : Nat :=
  if offset + pp_batch_size > partition_size then partition_size else offset + pp_batch_size

/-- The loop, on the partition of `partition_size` buckets from `partition_begin` on; `levels`
bounds the levels of a traversal. -/
def samplingLoop (table : SampledTable F) (partition_begin partition_size levels : Nat) :
    Nat → Nat → (Nat → Option F) → List Nat → Option (Nat × List Nat)
  | 0, _, _, _ => none
  | fuel + 1, current_batch_offset, batch, sample_epochs =>
      if sample_epochs.length < required_samples then
        let b_sampling_offset := current_batch_offset % partition_size
        let e_sampling_offset := batchEnd partition_size current_batch_offset
        match batch_traverse_hashtable table.next (sample table) id levels table.bfs
          (b_sampling_offset + partition_begin) (e_sampling_offset + partition_begin) batch
          sample_epochs with
        | none => none
        | some (cursor, sample_epochs) =>
            samplingLoop table partition_begin partition_size levels fuel
              (e_sampling_offset % partition_size) cursor.batch sample_epochs
      else some (current_batch_offset, sample_epochs)

/-- The index `samples * FLAGS_evictCoolestEpochs`: a product of `double`s, which is rounded, and
its conversion, which is defined for values that are above -1 when they are truncated. -/
def evictionIdx (rounding : ℚ → ℚ) (evictCoolestEpochs : ℚ) (samples : Nat) : Option Nat :=
  let product := rounding (samples * evictCoolestEpochs)
  if -1 < product then some ⌊product⌋₊ else none

/-- `eviction_window`, the epoch at the index in the sorted samples. -/
def evictionWindow (rounding : ℚ → ℚ) (evictCoolestEpochs : ℚ) (sample_epochs : List Nat) :
    Option Nat :=
  (evictionIdx rounding evictCoolestEpochs sample_epochs.length).bind fun eviction_idx =>
    (sample_epochs.mergeSort (· ≤ ·))[eviction_idx]?

/-- Rounding to a nearest `double`: these are at most 2⁻⁴³ apart up to 1024. -/
structure Rounding (rounding : ℚ → ℚ) : Prop where
  monotone : ∀ x y, x ≤ y → rounding x ≤ rounding y
  error : ∀ x, 0 ≤ x → x ≤ 1024 → |rounding x - x| ≤ 1 / 2 ^ 44

/-- The loop ends, and the index is one of the samples. -/
def SamplingEnds (table : SampledTable F) (partition_begin partition_size : Nat)
    (rounding : ℚ → ℚ) (evictCoolestEpochs : ℚ) (current_batch_offset : Nat)
    (batch : Nat → Option F) : Prop :=
  ∃ levels fuel offset sample_epochs,
    samplingLoop table partition_begin partition_size levels fuel current_batch_offset batch [] =
      some (offset, sample_epochs) ∧
    ∃ eviction_idx, evictionIdx rounding evictCoolestEpochs sample_epochs.length =
      some eviction_idx ∧ eviction_idx < sample_epochs.length

/-- The frame has an epoch to sample. -/
def SampledTable.Live (table : SampledTable F) (frame : F) : Prop :=
  table.state frame ≠ .free ∧ table.state frame ≠ .evicted

/-! ## One traversal -/

section Traversal

variable {table : SampledTable F} {chains : List (List F)} {samples : List Nat}

/-- What visiting the frames does to the samples: no more are added than required, none if no
frame is live, and at least one if some frame is, unless there are enough. -/
structure Sampled (table : SampledTable F) (frames : List F) (samples samples' : List Nat) :
    Prop where
  le : samples.length ≤ samples'.length
  bounded : samples'.length ≤ required_samples
  none : (∀ frame ∈ frames, ¬ table.Live frame) → samples' = samples
  some : ∀ frame ∈ frames, table.Live frame →
    samples.length < samples'.length ∨ samples'.length = required_samples

theorem Sampled.refl (h : samples.length ≤ required_samples) : Sampled table [] samples samples :=
  ⟨le_rfl, h, fun _ => rfl, fun _ hf => nomatch hf⟩

/-- One level; if there are not enough samples yet, it goes on behind all its frames. -/
theorem level_sampled (table : SampledTable F) (frames : List F)
    (hbounded : samples.length ≤ required_samples) :
    let level := levelList table.next (sample table) frames samples
    Sampled table frames samples level.2 ∧
      (level.2.length < required_samples →
        level.1 = frames.flatMap fun frame => (table.next frame).toList) := by
  induction frames generalizing samples with
  | nil => exact ⟨.refl hbounded, fun _ => rfl⟩
  | cons frame frames ih =>
    by_cases hfull : samples.length = required_samples
    · have hmet : sample table frame samples = (false, samples) := if_pos hfull
      simp only [levelList, hmet]
      exact ⟨⟨le_rfl, hbounded, fun _ => rfl, fun _ _ _ => .inr hfull⟩,
        fun hlt => absurd hfull hlt.ne⟩
    by_cases hlive : table.Live frame
    · have hmet : sample table frame samples = (true, samples ++ [table.epoch frame]) := by
        rw [sample, if_neg hfull, if_neg (by rintro (h | h); exacts [hlive.1 h, hlive.2 h])]
      have hlength : (samples ++ [table.epoch frame]).length = samples.length + 1 := by simp
      obtain ⟨hsampled, hbehind⟩ := ih (hlength.trans_le (Nat.lt_of_le_of_ne hbounded hfull))
      have hle := hsampled.le
      simp only [levelList, hmet, if_true]
      refine ⟨⟨by omega, hsampled.bounded, fun hnone => ?_, fun _ _ _ => .inl (by omega)⟩,
        fun hlt => ?_⟩
      · exact absurd hlive (hnone frame List.mem_cons_self)
      · rw [hbehind hlt]
        rfl
    · have hmet : sample table frame samples = (true, samples) := by
        rw [sample, if_neg hfull, if_pos]
        by_contra hne
        exact hlive (not_or.mp hne)
      obtain ⟨hsampled, hbehind⟩ := ih hbounded
      simp only [levelList, hmet, if_true]
      refine ⟨⟨hsampled.le, hsampled.bounded, fun hnone => ?_, fun f hf hl => ?_⟩, fun hlt => ?_⟩
      · exact hsampled.none fun f hf => hnone f (List.mem_cons_of_mem _ hf)
      · rcases List.mem_cons.mp hf with rfl | hf
        · exact absurd hl hlive
        · exact hsampled.some f hf hl
      · rw [hbehind hlt]
        rfl

/-- All levels. -/
theorem levels_sampled {fuel : Nat} {samples' : List Nat} (h : AreChains table.next chains)
    (hbounded : samples.length ≤ required_samples)
    (hlevels : levelsList table.next (sample table) id fuel (heads chains) samples =
      some samples') : Sampled table chains.flatten samples samples' := by
  induction fuel generalizing chains samples with
  | zero =>
    rw [levelsList, Option.ite_none_right_eq_some, heads_eq_nil_iff] at hlevels
    obtain ⟨hempty, hs⟩ := hlevels
    obtain rfl := Option.some.inj hs
    rw [List.flatten_eq_nil_iff.mpr hempty]
    exact .refl hbounded
  | succ fuel ih =>
    rw [levelsList] at hlevels
    split at hlevels
    case isTrue hempty =>
      obtain rfl := Option.some.inj hlevels
      rw [List.flatten_eq_nil_iff.mpr (heads_eq_nil_iff.mp hempty)]
      exact .refl hbounded
    case isFalse =>
      obtain ⟨hlevel, hbehind⟩ := level_sampled table (heads chains) hbounded
      obtain ⟨m, hm⟩ := levelList_chains (sample table) h samples
      have hle := hlevel.le
      generalize levelList table.next (sample table) (heads chains) samples = level at *
      have hprefix : AreChains table.next (chains.take m) :=
        fun c hc => h c (List.mem_of_mem_take hc)
      dsimp only [id] at hlevels
      rw [hm] at hlevels
      have hrest := ih hprefix.tails hlevel.bounded hlevels
      have hle' := hrest.le
      refine ⟨hle.trans hle', hrest.bounded, fun hnone => ?_, fun frame hframe hlive => ?_⟩
      · have hnone' : ∀ chain ∈ chains, ∀ frame ∈ chain, ¬ table.Live frame :=
          fun chain hc frame hf => hnone frame (List.mem_flatten.mpr ⟨chain, hc, hf⟩)
        rw [hrest.none, hlevel.none]
        · intro frame hframe
          obtain ⟨chain, hc, hhead⟩ := List.mem_filterMap.mp hframe
          exact hnone' chain hc frame (List.mem_of_head? hhead)
        · intro frame hframe
          obtain ⟨rest, hrest, hframe⟩ := List.mem_flatten.mp hframe
          obtain ⟨chain, hc, rfl⟩ := List.mem_map.mp hrest
          exact hnone' chain (List.mem_of_mem_take hc) frame (List.mem_of_mem_tail hframe)
      · rcases hlevel.bounded.lt_or_eq with hlt | heq
        · -- all frames of this level have been visited, and those behind them come next
          rw [← hm, hbehind hlt, ← h.heads_tails] at hlevels
          have hall := ih h.tails hlevel.bounded hlevels
          obtain ⟨chain, hc, hframe⟩ := List.mem_flatten.mp hframe
          cases chain with
          | nil => cases hframe
          | cons first chain =>
            rcases List.mem_cons.mp hframe with rfl | hframe
            · have hhead : frame ∈ heads chains := List.mem_filterMap.mpr ⟨_, hc, rfl⟩
              rcases hlevel.some frame hhead hlive with hmore | heq
              · exact .inl (hmore.trans_le hle')
              · exact absurd heq hlt.ne
            · have htail : frame ∈ (chains.map List.tail).flatten :=
                List.mem_flatten.mpr ⟨chain, List.mem_map.mpr ⟨_, hc, rfl⟩, hframe⟩
              rcases hall.some frame htail hlive with hmore | heq
              · exact .inl (hle.trans_lt hmore)
              · exact .inr heq
        · exact .inr (hrest.bounded.antisymm (heq ▸ hle'))

/-- The traversal of a batch. -/
theorem batch_sampled {levels begin_bfs end_bfs : Nat} {batch : Nat → Option F}
    {cursor : Cursor F} {samples' : List Nat} (hbounded : samples.length ≤ required_samples)
    (h : batch_traverse_hashtable table.next (sample table) id levels table.bfs begin_bfs end_bfs
      batch samples = some (cursor, samples')) :
    Sampled table (table.chains begin_bfs end_bfs).flatten samples samples' := by
  have hsize : entriesBetween begin_bfs end_bfs ≤ pp_batch_size := by
    by_contra hne
    rw [batch_traverse_hashtable, if_neg hne] at h
    cases h
  have hlevels : levelsList table.next (sample table) id levels
      (heads (table.chains begin_bfs end_bfs)) samples = some samples' := by
    rw [table.heads_chains, ← batch_traverse_hashtable_eq batch hsize, h]
    rfl
  exact levels_sampled (table.areChains _ _) hbounded hlevels

/-- It ends with the longest chain. -/
theorem batch_ends {depth begin_bfs end_bfs : Nat}
    (hsize : entriesBetween begin_bfs end_bfs ≤ pp_batch_size)
    (hdepth : ∀ idx, idx < entriesBetween begin_bfs end_bfs →
      (table.frames (begin_bfs + idx)).length ≤ depth)
    (batch : Nat → Option F) (samples : List Nat) :
    ∃ cursor samples', batch_traverse_hashtable table.next (sample table) id depth table.bfs
      begin_bfs end_bfs batch samples = some (cursor, samples') := by
  have hchains : ∀ chain ∈ table.chains begin_bfs end_bfs, chain.length ≤ depth := by
    intro chain hchain
    obtain ⟨idx, hidx, rfl⟩ := List.mem_map.mp hchain
    rw [List.mem_range] at hidx
    exact hdepth idx hidx
  obtain ⟨samples', h⟩ := levelsList_ends (sample table) id (table.areChains begin_bfs end_bfs)
    hchains le_rfl samples
  rw [table.heads_chains, ← batch_traverse_hashtable_eq batch hsize,
    Option.map_eq_some_iff] at h
  obtain ⟨⟨cursor, _⟩, h, rfl⟩ := h
  exact ⟨cursor, _, h⟩

end Traversal

/-! ## The whole loop -/

section Loop

variable {table : SampledTable F} {partition_begin partition_size levels fuel offset : Nat}
  {batch : Nat → Option F} {samples samples' : List Nat}

theorem batchEnd_le (partition_size offset : Nat) :
    batchEnd partition_size offset ≤ partition_size := by
  rw [batchEnd]
  split <;> omega

theorem lt_batchEnd (h : offset < partition_size) : offset < batchEnd partition_size offset := by
  rw [batchEnd, pp_batch_size]
  split <;> omega

theorem batchEnd_sub_le (partition_size offset : Nat) :
    batchEnd partition_size offset - offset ≤ pp_batch_size := by
  rw [batchEnd]
  split <;> omega

/-- The buckets of a batch: its end is not before its beginning. -/
theorem entriesBetween_batchEnd (hoffset : offset < partition_size) :
    entriesBetween (offset + partition_begin) (batchEnd partition_size offset + partition_begin) =
      batchEnd partition_size offset - offset := by
  have hle := batchEnd_sub_le partition_size offset
  rw [← Nat.add_sub_add_right _ partition_begin] at hle ⊢
  exact entriesBetween_of_le (Nat.add_le_add_right (lt_batchEnd hoffset).le _) hle

/-- What a frame of a batch is. -/
theorem mem_batch {frame : F} (hoffset : offset < partition_size) :
    frame ∈ (table.chains (offset + partition_begin)
        (batchEnd partition_size offset + partition_begin)).flatten ↔
      ∃ i, offset ≤ i ∧ i < batchEnd partition_size offset ∧
        frame ∈ table.frames (partition_begin + i) := by
  rw [PageTable.chains, entriesBetween_batchEnd hoffset, List.mem_flatten]
  constructor
  · rintro ⟨chain, hchain, hframe⟩
    obtain ⟨idx, hidx, rfl⟩ := List.mem_map.mp hchain
    rw [List.mem_range] at hidx
    refine ⟨offset + idx, Nat.le_add_right _ _, by omega, ?_⟩
    rwa [← Nat.add_assoc, Nat.add_comm partition_begin offset]
  · rintro ⟨i, hi, hie, hframe⟩
    refine ⟨_, List.mem_map.mpr ⟨i - offset, List.mem_range.mpr (by omega), rfl⟩, ?_⟩
    have hplace : offset + partition_begin + (i - offset) = partition_begin + i := by omega
    rwa [hplace]

/-- Without a live frame the loop does not end. -/
theorem samplingLoop_none (hoffset : offset < partition_size)
    (hnone : ∀ i, i < partition_size → ∀ frame ∈ table.frames (partition_begin + i),
      ¬ table.Live frame) (hsamples : samples.length < required_samples) :
    samplingLoop table partition_begin partition_size levels fuel offset batch samples = none := by
  induction fuel generalizing offset batch with
  | zero => rfl
  | succ fuel ih =>
    rw [samplingLoop, if_pos hsamples]
    simp only [Nat.mod_eq_of_lt hoffset]
    split
    case h_1 => rfl
    case h_2 cursor samples' htraverse =>
      have hsampled := batch_sampled hsamples.le htraverse
      rw [hsampled.none]
      · exact ih (Nat.mod_lt _ (Nat.zero_lt_of_lt hoffset))
      · intro frame hframe
        obtain ⟨i, -, hi, hframe⟩ := (mem_batch hoffset).mp hframe
        exact hnone i (hi.trans_le (batchEnd_le _ _)) frame hframe

/-- A loop that has ended has as many samples as required. -/
theorem samplingLoop_length {offset' : Nat} (hbounded : samples.length ≤ required_samples)
    (h : samplingLoop table partition_begin partition_size levels fuel offset batch samples =
      some (offset', samples')) : samples'.length = required_samples := by
  induction fuel generalizing offset batch samples with
  | zero => cases h
  | succ fuel ih =>
    rw [samplingLoop] at h
    split at h
    case isTrue hlt =>
      dsimp only at h
      split at h
      case h_1 => cases h
      case h_2 cursor samples₁ htraverse => exact ih (batch_sampled hbounded htraverse).bounded h
    case isFalse hge =>
      cases h
      exact hbounded.antisymm (Nat.le_of_not_lt hge)

/-- How far the loop has to go until it comes to the bucket `j`. -/
def distance (partition_size j offset : Nat) : Nat :=
  if offset ≤ j then j - offset else partition_size - offset + j

theorem distance_lt (hj : j < partition_size) (hoffset : offset < partition_size) :
    distance partition_size j offset < 2 * partition_size := by
  rw [distance]
  split <;> omega

/-- A batch without the bucket brings it nearer. -/
theorem distance_batchEnd (hj : j < partition_size) (hoffset : offset < partition_size)
    (hout : ¬ (offset ≤ j ∧ j < batchEnd partition_size offset)) :
    distance partition_size j (batchEnd partition_size offset % partition_size) <
      distance partition_size j offset := by
  have hle := batchEnd_le partition_size offset
  have hlt := lt_batchEnd hoffset
  rcases hle.lt_or_eq with hin | heq
  · rw [Nat.mod_eq_of_lt hin, distance, distance]
    split <;> split <;> omega
  · rw [heq] at hout ⊢
    rw [Nat.mod_self, distance, distance]
    split <;> split <;> omega

/-- With a live frame in the bucket `j` the loop ends. -/
theorem samplingLoop_ends {j : Nat} {frame : F} (hj : j < partition_size)
    (hframe : frame ∈ table.frames (partition_begin + j)) (hlive : table.Live frame)
    (hlevels : ∀ i, i < partition_size → (table.frames (partition_begin + i)).length ≤ levels)
    (hoffset : offset < partition_size) (hbounded : samples.length ≤ required_samples)
    (batch : Nat → Option F) :
    ∃ fuel offset' samples', samplingLoop table partition_begin partition_size levels fuel offset
      batch samples = some (offset', samples') := by
  -- rounds are counted by the samples that are missing, and batches by the distance
  obtain ⟨measure, hmeasure⟩ : ∃ measure, measure =
      (required_samples - samples.length) * (2 * partition_size) +
        distance partition_size j offset := ⟨_, rfl⟩
  induction measure using Nat.strong_induction_on generalizing offset samples batch with
  | _ measure ih =>
    rcases hbounded.lt_or_eq with hlt | heq
    · have hle := batchEnd_le partition_size offset
      have hentries : entriesBetween (offset + partition_begin)
          (batchEnd partition_size offset + partition_begin) =
            batchEnd partition_size offset - offset := entriesBetween_batchEnd hoffset
      have hdepth : ∀ idx, idx < entriesBetween (offset + partition_begin)
          (batchEnd partition_size offset + partition_begin) →
          (table.frames (offset + partition_begin + idx)).length ≤ levels := by
        intro idx hidx
        have hplace : offset + partition_begin + idx = partition_begin + (offset + idx) := by omega
        exact hplace ▸ hlevels (offset + idx) (by omega)
      obtain ⟨cursor, samples₁, htraverse⟩ :=
        batch_ends (hentries.trans_le (batchEnd_sub_le _ _)) hdepth batch samples
      have hsampled := batch_sampled hbounded htraverse
      have hoffset' : batchEnd partition_size offset % partition_size < partition_size :=
        Nat.mod_lt _ (Nat.zero_lt_of_lt hoffset)
      have hcloser : (required_samples - samples₁.length) * (2 * partition_size) +
          distance partition_size j (batchEnd partition_size offset % partition_size) <
          measure := by
        rw [hmeasure]
        by_cases hin : offset ≤ j ∧ j < batchEnd partition_size offset
        · -- the batch has the live frame
          have hfewer : required_samples - samples₁.length + 1 ≤
              required_samples - samples.length := by
            have hmem := (mem_batch hoffset).mpr ⟨j, hin.1, hin.2, hframe⟩
            have hadded := hsampled.some frame hmem hlive
            have := hsampled.bounded
            omega
          have hmul := Nat.mul_le_mul_right (2 * partition_size) hfewer
          rw [Nat.succ_mul] at hmul
          have hdistance := distance_lt hj hoffset'
          omega
        · have hmul := Nat.mul_le_mul_right (2 * partition_size)
            (Nat.sub_le_sub_left hsampled.le required_samples)
          have hdistance := distance_batchEnd hj hoffset hin
          omega
      obtain ⟨fuel, offset', samples', hloop⟩ :=
        ih _ hcloser hoffset' hsampled.bounded cursor.batch rfl
      refine ⟨fuel + 1, offset', samples', ?_⟩
      rw [samplingLoop, if_pos hlt]
      simp only [Nat.mod_eq_of_lt hoffset, htraverse]
      exact hloop
    · refine ⟨1, offset, samples, ?_⟩
      rw [samplingLoop, if_neg (heq ▸ lt_irrefl _)]

end Loop

/-- The product is an index of the samples if it is converted at all: 1 - 2⁻⁵³ is the largest
`double` below 1. -/
theorem evictionIdx_lt {rounding : ℚ → ℚ} (hrounding : Rounding rounding) {evictCoolestEpochs : ℚ}
    (hless : evictCoolestEpochs ≤ 1 - 1 / 2 ^ 53) {eviction_idx : Nat}
    (h : evictionIdx rounding evictCoolestEpochs required_samples = some eviction_idx) :
    eviction_idx < required_samples := by
  rw [evictionIdx, Option.ite_none_right_eq_some] at h
  obtain ⟨-, heq⟩ := h
  obtain rfl := Option.some.inj heq
  have hproduct : rounding (required_samples * evictCoolestEpochs) < required_samples := by
    have hmono := hrounding.monotone (required_samples * evictCoolestEpochs)
      (required_samples * (1 - 1 / 2 ^ 53)) (by rw [required_samples]; linarith)
    have herror := abs_le.mp (hrounding.error (required_samples * (1 - 1 / 2 ^ 53))
      (by rw [required_samples]; norm_num) (by rw [required_samples]; norm_num))
    have hgap : (required_samples : ℚ) * (1 - 1 / 2 ^ 53) + 1 / 2 ^ 44 < required_samples := by
      rw [required_samples]
      norm_num
    linarith [herror.2]
  exact (Nat.floor_lt' (by decide)).mpr hproduct

/-- Sampling ends with an index that is one of the samples, if and only if some frame of the
partition is neither free nor evicted (and the percentage of the coolest epochs is not negative
by so much that the product is no index). -/
theorem sampling_ends_iff {rounding : ℚ → ℚ} (hrounding : Rounding rounding)
    {evictCoolestEpochs : ℚ} (hless : evictCoolestEpochs ≤ 1 - 1 / 2 ^ 53)
    (table : SampledTable F) {partition_begin partition_size current_batch_offset : Nat}
    (hoffset : current_batch_offset < partition_size) (batch : Nat → Option F) :
    SamplingEnds table partition_begin partition_size rounding evictCoolestEpochs
        current_batch_offset batch ↔
      (∃ i, i < partition_size ∧ ∃ frame ∈ table.frames (partition_begin + i),
        table.Live frame) ∧ -1 < rounding (required_samples * evictCoolestEpochs) := by
  constructor
  · rintro ⟨levels, fuel, offset, samples, hloop, eviction_idx, hidx, -⟩
    rw [samplingLoop_length (Nat.zero_le _) hloop, evictionIdx, Option.ite_none_right_eq_some]
      at hidx
    refine ⟨?_, hidx.1⟩
    by_contra hnone
    have hdead : ∀ i, i < partition_size → ∀ frame ∈ table.frames (partition_begin + i),
        ¬ table.Live frame := by
      intro i hi frame hframe hlive
      exact hnone ⟨i, hi, frame, hframe, hlive⟩
    rw [samplingLoop_none hoffset hdead (by decide)] at hloop
    cases hloop
  · rintro ⟨⟨j, hj, frame, hframe, hlive⟩, hproduct⟩
    obtain ⟨levels, hlevels⟩ : ∃ levels, ∀ i, i < partition_size →
        (table.frames (partition_begin + i)).length ≤ levels :=
      ⟨(Finset.range partition_size).sup fun i => (table.frames (partition_begin + i)).length,
        fun i hi => Finset.le_sup (f := fun i => (table.frames (partition_begin + i)).length)
          (Finset.mem_range.mpr hi)⟩
    obtain ⟨fuel, offset, samples, hloop⟩ :=
      samplingLoop_ends hj hframe hlive hlevels hoffset (List.length_nil.trans_le (Nat.zero_le _))
        batch
    have hlength := samplingLoop_length (Nat.zero_le _) hloop
    have hidx : evictionIdx rounding evictCoolestEpochs required_samples =
        some ⌊rounding (required_samples * evictCoolestEpochs)⌋₊ := if_pos hproduct
    refine ⟨levels, fuel, offset, samples, hloop, _, hlength ▸ hidx, ?_⟩
    rw [hlength]
    exact evictionIdx_lt hrounding hless hidx

/-! ## Tables of one kind of frames -/

/-- Buckets without chains whose frames all have the same state. -/
def uniform (state : BfState) : SampledTable Nat where
  bfs := id
  next := fun _ => none
  frames := fun i => [i]
  chain := fun _ => ⟨rfl, rfl⟩
  state := fun _ => state
  epoch := fun _ => 0

/-- In a partition of free frames sampling goes on for ever. -/
theorem sampling_goes_on : ¬ ∀ (table : SampledTable Nat)
    (partition_begin partition_size current_batch_offset : Nat) (batch : Nat → Option Nat),
    current_batch_offset < partition_size →
    SamplingEnds table partition_begin partition_size id (1 / 10) current_batch_offset batch := by
  intro hall
  obtain ⟨levels, fuel, offset, samples, hloop, -⟩ :=
    hall (uniform .free) 0 4 0 (fun _ => none) (by decide)
  rw [samplingLoop_none (by decide) (fun _ _ _ _ hlive => hlive.1 rfl) (by decide)] at hloop
  cases hloop

/-- A partition of four hot frames, from the last one on. -/
theorem sampling_ends_hot :
    SamplingEnds (uniform .hot) 0 4 id (1 / 2) 3 (fun _ => none) := by
  have hrounding : Rounding id := ⟨fun _ _ h => h, fun x _ _ => by simp⟩
  have hlive : (uniform .hot).Live 0 := ⟨by decide, by decide⟩
  refine (sampling_ends_iff hrounding (by norm_num) (uniform .hot) (by decide) _).mpr
    ⟨⟨0, by decide, 0, List.mem_singleton_self 0, hlive⟩, ?_⟩
  rw [required_samples]
  norm_num

end ScaleStore.PageProvider
