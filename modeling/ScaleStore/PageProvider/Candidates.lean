/-
# What a traversal visits

On a table that holds still the levels of a traversal are the depths of its chains: the
first one are the frames of the buckets, the next one what is behind them, and so on to
the end of the longest chain.  A condition that never fails sees each of these frames
once.

Phase 3 collects candidates in an array as long as the batch, from its beginning in every
level.  A level has no more frames than the range has buckets, so that the array suffices.
-/

import ScaleStore.PageProvider.Pinning

namespace ScaleStore.PageProvider

variable {F σ : Type}

/-! ## Levels -/

/-- The frames at one depth of the chains. -/
def level (chains : List (List F)) (d : Nat) : List F := chains.filterMap fun chain => chain[d]?

def depth (chains : List (List F)) : Nat := (chains.map List.length).foldr max 0

def levels (chains : List (List F)) : List (List F) :=
  (List.range (depth chains)).map (level chains)

section Levels

variable {chains : List (List F)} {frame : F}

theorem level_zero (chains : List (List F)) : level chains 0 = heads chains := by
  simp only [level, heads, List.head?_eq_getElem?]

theorem level_succ (chains : List (List F)) (d : Nat) :
    level chains (d + 1) = level (chains.map List.tail) d := by
  rw [level, level, List.filterMap_map]
  exact List.filterMap_congr fun chain _ => List.getElem?_tail.symm

theorem length_level_le (chains : List (List F)) (d : Nat) :
    (level chains d).length ≤ chains.length := List.length_filterMap_le _ _

theorem depth_tails (chains : List (List F)) : depth (chains.map List.tail) = depth chains - 1 := by
  induction chains with
  | nil => rfl
  | cons chain chains ih =>
    show max chain.tail.length (depth (chains.map List.tail)) = max chain.length (depth chains) - 1
    rw [ih, List.length_tail]
    omega

/-- There is a frame at each depth. -/
theorem level_ne_nil {d : Nat} (h : d < depth chains) : level chains d ≠ [] := by
  induction chains with
  | nil => cases h
  | cons chain chains ih =>
    change d < max chain.length (depth chains) at h
    by_cases hd : d < chain.length
    · simp [level, hd]
    · have hrest := ih (by omega)
      simpa [level, hd] using hrest

theorem depth_eq_zero_iff : depth chains = 0 ↔ heads chains = [] := by
  constructor
  · induction chains with
    | nil => exact fun _ => rfl
    | cons chain chains ih =>
      intro h
      change max chain.length (depth chains) = 0 at h
      have hchain : chain = [] := List.length_eq_zero_iff.mp (by omega)
      rw [heads_cons, hchain, ih (by omega)]
      rfl
  · intro h
    by_contra hne
    exact level_ne_nil (Nat.pos_of_ne_zero hne) (level_zero chains ▸ h)

theorem levels_eq_nil (h : heads chains = []) : levels chains = [] := by
  rw [levels, depth_eq_zero_iff.mpr h]
  rfl

theorem levels_eq_cons (h : heads chains ≠ []) :
    levels chains = heads chains :: levels (chains.map List.tail) := by
  obtain ⟨n, hn⟩ := Nat.exists_eq_succ_of_ne_zero fun hzero => h (depth_eq_zero_iff.mp hzero)
  rw [levels, levels, depth_tails, hn, List.range_succ_eq_map, List.map_cons, level_zero,
    List.map_map]
  exact congrArg _ (List.map_congr_left fun d _ => level_succ chains d)

/-- The first level and what is behind it. -/
theorem heads_append_tails (chains : List (List F)) :
    (heads chains ++ (chains.map List.tail).flatten).Perm chains.flatten := by
  induction chains with
  | nil => exact .refl _
  | cons chain chains ih =>
    cases chain with
    | nil => exact ih
    | cons frame chain =>
      refine .cons frame ?_
      show (heads chains ++ (chain ++ (chains.map List.tail).flatten)).Perm
        (chain ++ chains.flatten)
      rw [← List.append_assoc]
      refine (List.perm_append_comm.append_right _).trans ?_
      rw [List.append_assoc]
      exact ih.append_left chain

/-- The levels have the frames of the chains. -/
theorem levels_perm (chains : List (List F)) : (levels chains).flatten.Perm chains.flatten := by
  obtain ⟨n, hn⟩ : ∃ n, depth chains = n := ⟨_, rfl⟩
  induction n generalizing chains with
  | zero =>
    have hempty := depth_eq_zero_iff.mp hn
    rw [levels_eq_nil hempty, List.flatten_eq_nil_iff.mpr (heads_eq_nil_iff.mp hempty)]
    exact .refl _
  | succ n ih =>
    have hne : heads chains ≠ [] := fun hempty => by
      rw [depth_eq_zero_iff.mpr hempty] at hn
      cases hn
    rw [levels_eq_cons hne, List.flatten_cons]
    refine ((ih _ ?_).append_left _).trans (heads_append_tails chains)
    rw [depth_tails, hn]
    rfl

theorem mem_levels {frames : List F} (h : frames ∈ levels chains) :
    frames ≠ [] ∧ frames.length ≤ chains.length := by
  obtain ⟨d, hd, rfl⟩ := List.mem_map.mp h
  exact ⟨level_ne_nil (List.mem_range.mp hd), length_level_le chains d⟩

/-- Where chains do not meet, no frame is in two levels, or twice in one. -/
theorem levels_nodup {next : F → Option F} (h : AreChains next chains)
    (hdisjoint : chains.Pairwise List.Disjoint) : (levels chains).flatten.Nodup := by
  refine (levels_perm chains).nodup_iff.mpr (List.nodup_flatten.mpr ⟨?_, hdisjoint⟩)
  exact fun chain hchain => (h chain hchain).nodup

end Levels

/-! ## Conditions that never fail -/

/-- What has happened after the condition has seen these frames. -/
def visit (condition : F → σ → Bool × σ) (frames : List F) (s : σ) : σ :=
  frames.foldl (fun s frame => (condition frame s).2) s

/-- The same for levels, of which each one is post-processed. -/
def visitLevels (condition : F → σ → Bool × σ) (post_process_level : σ → σ)
    (levels : List (List F)) (s : σ) : σ :=
  levels.foldl (fun s frames => post_process_level (visit condition frames s)) s

section Visits

variable {next : F → Option F} {condition : F → σ → Bool × σ} {post_process_level : σ → σ}
  {chains : List (List F)} {frames : List F} {c : Cursor F} {s : σ}

theorem levelList_true (hcondition : ∀ frame s, (condition frame s).1 = true) (frames : List F)
    (s : σ) : levelList next condition frames s =
      (frames.flatMap fun frame => (next frame).toList, visit condition frames s) := by
  induction frames generalizing s with
  | nil => rfl
  | cons frame frames ih =>
    simp only [levelList, hcondition, if_true, ih]
    rfl

/-- The traversal visits the levels, each one once. -/
theorem levelsList_true (hcondition : ∀ frame s, (condition frame s).1 = true)
    (h : AreChains next chains) {fuel : Nat} (hfuel : depth chains ≤ fuel) (s : σ) :
    levelsList next condition post_process_level fuel (heads chains) s =
      some (visitLevels condition post_process_level (levels chains) s) := by
  induction fuel generalizing chains s with
  | zero =>
    have hempty := depth_eq_zero_iff.mp (Nat.le_zero.mp hfuel)
    rw [levelsList, if_pos hempty, levels_eq_nil hempty]
    rfl
  | succ fuel ih =>
    rw [levelsList]
    by_cases hempty : heads chains = []
    · rw [if_pos hempty, levels_eq_nil hempty]
      rfl
    · have hbehind : depth (chains.map List.tail) ≤ fuel := by
        rw [depth_tails]
        omega
      rw [if_neg hempty, levels_eq_cons hempty]
      simp only [levelList_true hcondition, ← h.heads_tails]
      exact ih h.tails hbehind _

/-- What is written to the batch stays behind what has been read. -/
theorem traverseLevel_keeps {left i : Nat} (hw : c.write_idx ≤ c.b_i) (hi : c.b_i + left ≤ i) :
    (traverseLevel next condition left c s).1.batch i = c.batch i := by
  induction left generalizing c s with
  | zero => rfl
  | succ left ih =>
    have hkept : ∀ behind s, (traverseLevel next condition left (c.advance behind) s).1.batch i =
        c.batch i := by
      intro behind s
      have hidx : (c.advance behind).write_idx ≤ c.b_i + 1 := by
        rw [Cursor.advance]
        dsimp only
        split <;> omega
      rw [ih hidx (by show c.b_i + 1 + left ≤ i; omega), Cursor.advance]
      dsimp only
      split
      · exact Function.update_of_ne (by omega) _ _
      · rfl
    rw [traverseLevel]
    split
    case h_1 => exact hkept none s
    case h_2 frame _ =>
      dsimp only
      split
      · exact hkept _ _
      · rfl

end Visits

/-! ## Candidates -/

section Definitions

variable {PID W : Type}

open Pinning (Config IsCandidate)

instance (cfg : Config F PID) (frame : Pinning.BufferFrame F PID) : Decidable (frame.IsOwn cfg) :=
  inferInstanceAs (Decidable (_ = _))

instance (cfg : Config F PID) (frame : Pinning.BufferFrame F PID) :
    Decidable (Pinning.RemoteCondition cfg frame) := inferInstanceAs (Decidable (_ ∨ _))

instance (cfg : Config F PID) (eviction_window : Nat) (frame : Pinning.BufferFrame F PID) :
    Decidable (IsCandidate cfg eviction_window frame) := inferInstanceAs (Decidable (_ ∧ _))

instance (frame : Pinning.BufferFrame F PID) : Decidable frame.IsUnused :=
  inferInstanceAs (Decidable (_ ∨ _))

/-- The variables of phase 3, the places of `candidate_batch` that have been written or read, and
everything else. -/
structure Selection (F W : Type) where
  candidate_batch : Nat → Option (BitVec 64 × F)
  candidate_max : Nat
  accesses : List Nat
  world : W

/-- `candidate_batch[candidate_max++] = {epoch, &frame}`. -/
def Selection.collect (s : Selection F W) (epoch : BitVec 64) (frame : F) : Selection F W :=
  { s with
    candidate_batch := Function.update s.candidate_batch s.candidate_max (some (epoch, frame))
    candidate_max := s.candidate_max + 1
    accesses := s.accesses ++ [s.candidate_max] }

/-- The condition of the traversal; `table` is what it sees of the frames. -/
def selectCondition (cfg : Config F PID) (eviction_window : Nat)
    (table : W → F → Pinning.BufferFrame F PID) (frame : F) (s : Selection F W) :
    Bool × Selection F W :=
  let seen := table s.world frame
  if seen.IsUnused then (true, s)
  else if IsCandidate cfg eviction_window seen then (true, s.collect seen.epoch frame)
  else (true, s)

/-- The loop over the candidates from `c_i` on; `process` is what it does with a candidate, and
whether it goes on behind it. -/
def processCandidates (process : BitVec 64 → F → W → Bool × W) :
    Nat → Nat → Selection F W → Selection F W
  | 0, _, s => s
  | left + 1, c_i, s =>
      let read := { s with accesses := s.accesses ++ [c_i] }
      match s.candidate_batch c_i with
      | none => read
      | some (epoch, frame) =>
          let met := process epoch frame s.world
          if met.1 then processCandidates process left (c_i + 1) { read with world := met.2 }
          else { read with world := met.2 }

/-- `post_process_level`; `submit` stands for the writes that are submitted and polled. -/
def processLevel (process : BitVec 64 → F → W → Bool × W) (submit : W → W)
    (s : Selection F W) : Selection F W :=
  let processed := processCandidates process s.candidate_max 0 s
  { processed with candidate_max := 0, world := submit processed.world }

end Definitions

section Selections

variable {PID W : Type} {cfg : Pinning.Config F PID} {eviction_window : Nat}
  {table : W → F → Pinning.BufferFrame F PID} {process : BitVec 64 → F → W → Bool × W}
  {submit : W → W} {s : Selection F W} {frames : List F} {n : Nat}

theorem selectCondition_true (cfg : Pinning.Config F PID) (eviction_window : Nat)
    (table : W → F → Pinning.BufferFrame F PID) (frame : F) (s : Selection F W) :
    (selectCondition cfg eviction_window table frame s).1 = true := by
  unfold selectCondition
  dsimp only
  split_ifs <;> rfl

/-- At most `n` candidates have been collected in this level, and all in places that exist. -/
structure Selection.Inside (s : Selection F W) (n : Nat) : Prop where
  candidate_max : s.candidate_max ≤ n
  accesses : ∀ i ∈ s.accesses, i < pp_batch_size

theorem Selection.Inside.select (hs : s.Inside n) (hn : n < pp_batch_size) (frame : F) :
    (selectCondition cfg eviction_window table frame s).2.Inside (n + 1) := by
  have hle : s.candidate_max ≤ n + 1 := Nat.le_succ_of_le hs.candidate_max
  unfold selectCondition
  dsimp only
  split_ifs
  · exact ⟨hle, hs.accesses⟩
  · refine ⟨Nat.succ_le_succ hs.candidate_max, fun i hi => ?_⟩
    rcases List.mem_append.mp hi with hi | hi
    · exact hs.accesses i hi
    · rw [List.mem_singleton.mp hi]
      exact hs.candidate_max.trans_lt hn
  · exact ⟨hle, hs.accesses⟩

theorem Selection.Inside.visit (hs : s.Inside n) (hn : n + frames.length ≤ pp_batch_size) :
    (visit (selectCondition cfg eviction_window table) frames s).Inside (n + frames.length) := by
  induction frames generalizing n s with
  | nil => exact hs
  | cons frame frames ih =>
    rw [List.length_cons] at hn ⊢
    have hlength : n + (frames.length + 1) = n + 1 + frames.length := by omega
    rw [hlength]
    exact ih (hs.select (by omega) frame) (by omega)

theorem processCandidates_accesses {left c_i : Nat} (hs : ∀ i ∈ s.accesses, i < pp_batch_size)
    (hleft : c_i + left ≤ pp_batch_size) :
    ∀ i ∈ (processCandidates process left c_i s).accesses, i < pp_batch_size := by
  induction left generalizing c_i s with
  | zero => exact hs
  | succ left ih =>
    have hread : ∀ i ∈ s.accesses ++ [c_i], i < pp_batch_size := by
      intro i hi
      rcases List.mem_append.mp hi with hi | hi
      · exact hs i hi
      · rw [List.mem_singleton.mp hi]
        omega
    rw [processCandidates]
    split
    case h_1 => exact hread
    case h_2 epoch frame _ =>
      dsimp only
      split
      · exact ih hread (by omega)
      · exact hread

theorem Selection.Inside.processed (hs : s.Inside n) (hn : n ≤ pp_batch_size) :
    (processLevel process submit s).Inside 0 :=
  ⟨le_rfl, processCandidates_accesses hs.accesses
    (by rw [Nat.zero_add]; exact hs.candidate_max.trans hn)⟩

/-- Over all levels. -/
theorem Selection.Inside.visitLevels {levels : List (List F)} (hs : s.Inside 0)
    (hlevels : ∀ frames ∈ levels, frames.length ≤ pp_batch_size) :
    (visitLevels (selectCondition cfg eviction_window table) (processLevel process submit) levels
      s).Inside 0 := by
  induction levels generalizing s with
  | nil => exact hs
  | cons frames levels ih =>
    have hle : 0 + frames.length ≤ pp_batch_size := by
      rw [Nat.zero_add]
      exact hlevels frames List.mem_cons_self
    exact ih ((hs.visit hle).processed hle) fun frames hf => hlevels frames (.tail _ hf)

end Selections

/-! ## The traversal of a range -/

section Ranges

variable {PID W : Type} {cfg : Pinning.Config F PID} {eviction_window : Nat}
  {process : BitVec 64 → F → W → Bool × W} {submit : W → W} {begin_bfs end_bfs : Nat}

theorem batch_traverse_hashtable_true {condition : F → σ → Bool × σ} (post_process_level : σ → σ)
    (hcondition : ∀ frame s, (condition frame s).1 = true) (table : PageTable F)
    (h : entriesBetween begin_bfs end_bfs ≤ pp_batch_size) {fuel : Nat}
    (hfuel : depth (table.chains begin_bfs end_bfs) ≤ fuel) (batch : Nat → Option F) (s : σ) :
    (batch_traverse_hashtable table.next condition post_process_level fuel table.bfs begin_bfs
      end_bfs batch s).map Prod.snd =
      some (visitLevels condition post_process_level (levels (table.chains begin_bfs end_bfs))
        s) := by
  rw [batch_traverse_hashtable_eq batch h, ← table.heads_chains]
  exact levelsList_true hcondition (table.areChains begin_bfs end_bfs) hfuel s

theorem levels_chains (table : PageTable F) {frames : List F}
    (h : frames ∈ levels (table.chains begin_bfs end_bfs)) :
    frames ≠ [] ∧ frames.length ≤ entriesBetween begin_bfs end_bfs := by
  obtain ⟨hne, hle⟩ := mem_levels h
  rw [PageTable.chains, List.length_map, List.length_range] at hle
  exact ⟨hne, hle⟩

/-- The array of the candidates suffices. -/
theorem candidates_inside (table : PageTable F) (view : W → F → Pinning.BufferFrame F PID)
    (h : entriesBetween begin_bfs end_bfs ≤ pp_batch_size) {fuel : Nat}
    (hfuel : depth (table.chains begin_bfs end_bfs) ≤ fuel) (batch : Nat → Option F)
    {s : Selection F W} (hs : s.Inside 0) : ∃ c s',
    batch_traverse_hashtable table.next (selectCondition cfg eviction_window view)
      (processLevel process submit) fuel table.bfs begin_bfs end_bfs batch s = some (c, s') ∧
    s'.Inside 0 := by
  have hrun := batch_traverse_hashtable_true (processLevel process submit)
    (selectCondition_true cfg eviction_window view) table h hfuel batch s
  obtain ⟨⟨c, s'⟩, hrun, rfl⟩ := Option.map_eq_some_iff.mp hrun
  refine ⟨c, _, hrun, hs.visitLevels fun frames hframes => ?_⟩
  exact (levels_chains table hframes).2.trans h

/-- On a table that holds still and with a condition that is always true the traversal calls the
condition for the frames of the chains level by level, and post-processes each level; it needs as
many rounds as the longest chain has frames.  The levels have the same frames as the chains.  While
a level is traversed, the entries that have not been read are those that it began with.  Phase 3
accesses its candidates only where the array has places. -/
theorem traversal_exact (table : PageTable F) (begin_bfs end_bfs : Nat)
    (h : entriesBetween begin_bfs end_bfs ≤ pp_batch_size) :
    (∀ (σ : Type) (condition : F → σ → Bool × σ) (post_process_level : σ → σ),
      (∀ frame s, (condition frame s).1 = true) → ∀ fuel,
      depth (table.chains begin_bfs end_bfs) ≤ fuel → ∀ batch s,
      (batch_traverse_hashtable table.next condition post_process_level fuel table.bfs begin_bfs
        end_bfs batch s).map Prod.snd =
        some (visitLevels condition post_process_level (levels (table.chains begin_bfs end_bfs))
          s)) ∧
    ((levels (table.chains begin_bfs end_bfs)).flatten.Perm
        (table.chains begin_bfs end_bfs).flatten ∧
      ((table.chains begin_bfs end_bfs).Pairwise List.Disjoint →
        (levels (table.chains begin_bfs end_bfs)).flatten.Nodup) ∧
      ∀ frames ∈ levels (table.chains begin_bfs end_bfs),
        frames ≠ [] ∧ frames.length ≤ entriesBetween begin_bfs end_bfs) ∧
    (∀ (σ : Type) (condition : F → σ → Bool × σ) (c : Cursor F) (s : σ), c.b_i = 0 →
      c.write_idx = 0 → ∀ visited i, visited ≤ i →
      (traverseLevel table.next condition visited c s).1.batch i = c.batch i) ∧
    ∀ (PID W : Type) (cfg : Pinning.Config F PID) (eviction_window : Nat)
      (view : W → F → Pinning.BufferFrame F PID) (process : BitVec 64 → F → W → Bool × W)
      (submit : W → W) fuel,
      depth (table.chains begin_bfs end_bfs) ≤ fuel → ∀ batch (s : Selection F W),
      s.candidate_max = 0 → s.accesses = [] → ∃ c s',
      batch_traverse_hashtable table.next (selectCondition cfg eviction_window view)
        (processLevel process submit) fuel table.bfs begin_bfs end_bfs batch s = some (c, s') ∧
      ∀ i ∈ s'.accesses, i < pp_batch_size := by
  refine ⟨fun _ _ post_process_level hcondition fuel hfuel => ?_, ⟨levels_perm _, ?_, ?_⟩, ?_, ?_⟩
  · exact batch_traverse_hashtable_true post_process_level hcondition table h hfuel
  · exact levels_nodup (table.areChains begin_bfs end_bfs)
  · exact fun frames => levels_chains table
  · intro _ condition c s hb hw visited i hi
    exact traverseLevel_keeps (hw ▸ Nat.zero_le _) (by omega)
  · intro _ _ cfg eviction_window view process submit fuel hfuel batch s hmax haccesses
    have hs : s.Inside 0 := ⟨hmax.le, by rw [haccesses]; exact fun _ hi => nomatch hi⟩
    obtain ⟨c, s', hrun, hinside⟩ := candidates_inside table view h hfuel batch hs
    exact ⟨c, s', hrun, hinside.accesses⟩

end Ranges

/-- Buckets of which the first one has a frame behind it. -/
def chained : PageTable Nat where
  bfs := id
  next frame := if frame = 0 then some 7 else none
  frames i := if i = 0 then [0, 7] else [i]
  chain i := by
    by_cases h : i = 0
    · rw [if_pos h, h]
      exact ⟨rfl, rfl, rfl⟩
    · rw [if_neg h]
      exact ⟨rfl, if_neg h⟩

/-- The second level is the frame in the chain. -/
theorem traversal_exact_chained :
    (batch_traverse_hashtable chained.next (fun frame calls => (true, calls ++ [frame]))
      (fun calls => calls ++ [100]) 2 chained.bfs 0 2 (fun _ => none) []).map Prod.snd =
      some [0, 1, 100, 7, 100] := by
  obtain ⟨hrun, -⟩ := traversal_exact chained 0 2 (by decide)
  exact hrun (List Nat) _ _ (fun _ _ => rfl) 2 (by decide) (fun _ => none) []

end ScaleStore.PageProvider
