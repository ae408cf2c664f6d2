/-
# Traversing the hash table

Page providers look at the buckets of the page table in batches.  The first level of
a batch are the frames inlined into the buckets, and a level is replaced in place by
the frames behind its frames; a condition that fails ends the level, but not the
traversal.

What has been read of a level is overwritten at most, so that on a table that holds
still the batch is as good as two lists, the level and what comes next.
-/

import ScaleStore.Lib.PointerChain

namespace ScaleStore.PageProvider

universe u

variable {F : Type} {σ : Type u}

def pp_batch_size : Nat := 128

/-- `end_bfs - begin_bfs` on 64 bits: an end before the beginning wraps around. -/
def entriesBetween (begin_bfs end_bfs : Nat) : Nat :=
  (BitVec.ofNat 64 end_bfs - BitVec.ofNat 64 begin_bfs).toNat

theorem entriesBetween_of_le {begin_bfs end_bfs : Nat} (h : begin_bfs ≤ end_bfs)
    (hsize : end_bfs - begin_bfs ≤ pp_batch_size) :
    entriesBetween begin_bfs end_bfs = end_bfs - begin_bfs := by
  rw [pp_batch_size] at hsize
  rw [entriesBetween, BitVec.toNat_sub, BitVec.toNat_ofNat, BitVec.toNat_ofNat]
  omega

/-! ## The batch -/

/-- `batch`, with the variables of the loops. -/
structure Cursor (F : Type) where
  batch : Nat → Option F
  entries : Nat
  b_i : Nat
  write_idx : Nat

namespace Cursor

/-- The preprocessing: the frames of the buckets become the first level. -/
def fill (bfs : Nat → F) (begin_bfs end_bfs : Nat) (batch : Nat → Option F) : Cursor F where
  batch := fun idx =>
    if idx < entriesBetween begin_bfs end_bfs then some (bfs (begin_bfs + idx)) else batch idx
  entries := entriesBetween begin_bfs end_bfs
  b_i := 0
  write_idx := 0

/-- On to the next entry, after what is behind the frame has been written to the next level. -/
def advance (c : Cursor F) (next : Option F) : Cursor F where
  batch := if next.isSome then Function.update c.batch c.write_idx next else c.batch
  entries := c.entries
  b_i := c.b_i + 1
  write_idx := if next.isSome then c.write_idx + 1 else c.write_idx

def nextLevel (c : Cursor F) : Cursor F where
  batch := c.batch
  entries := c.write_idx
  b_i := 0
  write_idx := 0

end Cursor

/-! ## The traversal of a table that holds still -/

section Traversal

variable (next : F → Option F) (condition : F → σ → Bool × σ) (post_process_level : σ → σ)

/-- The rest of a level, of which `left` entries have not been visited. -/
def traverseLevel : Nat → Cursor F → σ → Cursor F × σ
  | 0, c, s => (c, s)
  | left + 1, c, s =>
      match c.batch c.b_i with
      | none => traverseLevel left (c.advance none) s
      | some frame =>
          let met := condition frame s
          if met.1 then traverseLevel left (c.advance (next frame)) met.2 else (c, met.2)

/-- The levels; `none` is a traversal that has not ended yet. -/
def traverseLevels : Nat → Cursor F → σ → Option (Cursor F × σ)
  | 0, c, s => if c.entries = 0 then some (c, s) else none
  | fuel + 1, c, s =>
      if c.entries = 0 then some (c, s)
      else
        let level := traverseLevel next condition c.entries c s
        traverseLevels fuel level.1.nextLevel (post_process_level level.2)

def batch_traverse_hashtable (fuel : Nat) (bfs : Nat → F) (begin_bfs end_bfs : Nat)
    (batch : Nat → Option F) (s : σ) : Option (Cursor F × σ) :=
  if entriesBetween begin_bfs end_bfs ≤ pp_batch_size then
    traverseLevels next condition post_process_level fuel (.fill bfs begin_bfs end_bfs batch) s
  else none

end Traversal

/-! ## Levels as lists -/

section Lists

variable (next : F → Option F) (condition : F → σ → Bool × σ) (post_process_level : σ → σ)

/-- What a level leaves for the next one. -/
def levelList : List F → σ → List F × σ
  | [], s => ([], s)
  | frame :: frames, s =>
      let met := condition frame s
      if met.1 then
        let rest := levelList frames met.2
        ((next frame).toList ++ rest.1, rest.2)
      else ([], met.2)

def levelsList : Nat → List F → σ → Option σ
  | 0, frames, s => if frames = [] then some s else none
  | fuel + 1, frames, s =>
      if frames = [] then some s
      else
        let level := levelList next condition frames s
        levelsList fuel level.1 (post_process_level level.2)

/-- The entries of the current level that have not been visited. -/
def Cursor.Holds (c : Cursor F) (frames : List F) : Prop :=
  ∀ k, k < frames.length → c.batch (c.b_i + k) = frames[k]?

variable {next condition post_process_level} {c : Cursor F} {frames : List F} {s : σ} {fuel : Nat}

theorem Cursor.Holds.advance {frame : F} (h : c.Holds (frame :: frames)) (hw : c.write_idx ≤ c.b_i)
    (behind : Option F) : (c.advance behind).Holds frames := by
  intro k hk
  have hentry := h (k + 1) (Nat.succ_lt_succ hk)
  have hplace : c.b_i + 1 + k = c.b_i + (k + 1) := by omega
  rw [List.getElem?_cons_succ] at hentry
  show (c.advance behind).batch (c.b_i + 1 + k) = frames[k]?
  rw [hplace, ← hentry, Cursor.advance]
  split
  · exact Function.update_of_ne (by omega) _ _
  · rfl

/-- A level of the batch is one of the lists: what is written stays behind what is read. -/
theorem traverseLevel_eq (next : F → Option F) (condition : F → σ → Bool × σ) (s : σ)
    (hc : c.Holds frames) (hw : c.write_idx ≤ c.b_i) :
    let level := traverseLevel next condition frames.length c s
    let list := levelList next condition frames s
    level.2 = list.2 ∧ level.1.write_idx = c.write_idx + list.1.length ∧
      (∀ k, k < c.write_idx → level.1.batch k = c.batch k) ∧
      ∀ k, k < list.1.length → level.1.batch (c.write_idx + k) = list.1[k]? := by
  induction frames generalizing c s with
  | nil => simp [traverseLevel, levelList]
  | cons frame frames ih =>
    have hframe : c.batch c.b_i = some frame := by simpa using hc 0 (by simp)
    simp only [List.length_cons, traverseLevel, hframe, levelList]
    by_cases hmet : (condition frame s).1
    · simp only [hmet, if_true]
      have hadvance := hc.advance hw (next frame)
      rcases hnext : next frame with _ | behind
      · rw [hnext] at hadvance
        exact ih _ hadvance (Nat.le_succ_of_le hw)
      · rw [hnext] at hadvance
        obtain ⟨hs, hidx, hkeep, hnew⟩ :=
          ih (condition frame s).2 hadvance (Nat.succ_le_succ hw)
        refine ⟨hs, ?_, fun k hk => ?_, fun k hk => ?_⟩
        · rw [hidx]
          simp [Cursor.advance]
          omega
        · rw [hkeep k (Nat.lt_succ_of_lt hk)]
          exact Function.update_of_ne (Nat.ne_of_lt hk) _ _
        · cases k with
          | zero =>
            rw [Nat.add_zero, hkeep c.write_idx (Nat.lt_succ_self _)]
            simp [Cursor.advance]
          | succ k =>
            have hentry := hnew k (by simpa using hk)
            have hplace : c.write_idx + (k + 1) = c.write_idx + 1 + k := by omega
            rw [hplace]
            simpa [Cursor.advance] using hentry
    · simp [hmet]

/-- The traversal does what the levels do as lists. -/
theorem traverseLevels_eq (hentries : c.entries = frames.length) (hb : c.b_i = 0)
    (hw : c.write_idx = 0) (hc : c.Holds frames) :
    (traverseLevels next condition post_process_level fuel c s).map Prod.snd =
      levelsList next condition post_process_level fuel frames s := by
  induction fuel generalizing c frames s with
  | zero =>
    rw [traverseLevels, levelsList, hentries]
    cases frames <;> simp
  | succ fuel ih =>
    rw [traverseLevels, levelsList, hentries]
    by_cases hempty : frames = []
    · simp [hempty]
    · rw [if_neg (by simpa using hempty), if_neg hempty]
      obtain ⟨hs, hidx, -, hnew⟩ :=
        traverseLevel_eq next condition s hc (hw ▸ Nat.zero_le _)
      rw [hw, Nat.zero_add] at hidx
      have hholds : (traverseLevel next condition frames.length c s).1.nextLevel.Holds
          (levelList next condition frames s).1 := by
        intro k hk
        have hentry := hnew k hk
        rw [hw] at hentry
        exact hentry
      rw [ih hidx rfl rfl hholds, hs]

theorem Cursor.fill_holds (bfs : Nat → F) (begin_bfs end_bfs : Nat) (batch : Nat → Option F) :
    (Cursor.fill bfs begin_bfs end_bfs batch).Holds
      ((List.range (entriesBetween begin_bfs end_bfs)).map fun idx => bfs (begin_bfs + idx)) := by
  intro k hk
  rw [List.length_map, List.length_range] at hk
  simp [Cursor.fill, hk]

/-- `batch_traverse_hashtable` goes through the levels from the buckets' frames on. -/
theorem batch_traverse_hashtable_eq {bfs : Nat → F} {begin_bfs end_bfs : Nat}
    (batch : Nat → Option F) (h : entriesBetween begin_bfs end_bfs ≤ pp_batch_size) :
    (batch_traverse_hashtable next condition post_process_level fuel bfs begin_bfs end_bfs batch
      s).map Prod.snd =
      levelsList next condition post_process_level fuel
        ((List.range (entriesBetween begin_bfs end_bfs)).map fun idx => bfs (begin_bfs + idx))
        s := by
  rw [batch_traverse_hashtable, if_pos h]
  exact traverseLevels_eq (by simp [Cursor.fill]) rfl rfl
    (Cursor.fill_holds bfs begin_bfs end_bfs batch)

end Lists

/-! ## Page tables -/

/-- A page table that holds still.  The chain of a bucket begins with the frame inlined into it. -/
structure PageTable (F : Type) where
  bfs : Nat → F
  next : F → Option F
  frames : Nat → List F
  chain : ∀ i, Chain next (some (bfs i)) (frames i) none

section Chains

variable {next : F → Option F} {condition : F → σ → Bool × σ} {post_process_level : σ → σ}
  {chains : List (List F)} {s : σ}

/-- The level at which the chains begin. -/
def heads (chains : List (List F)) : List F := chains.filterMap List.head?

@[simp] theorem heads_cons (chain : List F) (chains : List (List F)) :
    heads (chain :: chains) = chain.head?.toList ++ heads chains := by
  cases chain <;> rfl

theorem heads_eq_nil_iff : heads chains = [] ↔ ∀ chain ∈ chains, chain = [] := by
  simp [heads]

/-- Every list is the rest of a chain. -/
def AreChains (next : F → Option F) (chains : List (List F)) : Prop :=
  ∀ chain ∈ chains, Chain next chain.head? chain none

theorem AreChains.tails (h : AreChains next chains) : AreChains next (chains.map List.tail) := by
  intro rest hrest
  obtain ⟨chain, hmem, rfl⟩ := List.mem_map.mp hrest
  have hchain := h chain hmem
  cases chain with
  | nil => exact hchain
  | cons frame chain =>
    have hbehind := hchain.2
    rw [hbehind.head_eq] at hbehind
    exact hbehind

/-- Behind the level at which the chains begin. -/
theorem AreChains.heads_tails (h : AreChains next chains) :
    heads (chains.map List.tail) = (heads chains).flatMap fun frame => (next frame).toList := by
  induction chains with
  | nil => rfl
  | cons chain chains ih =>
    have hrest := ih fun c hc => h c (List.mem_cons_of_mem _ hc)
    cases chain with
    | nil => simpa using hrest
    | cons frame chain =>
      have hnext : next frame = chain.head? := (h _ List.mem_cons_self).2.head_eq
      simp [hrest, hnext]

/-- A level leaves the chains behind its frames, up to where it has ended. -/
theorem levelList_chains (condition : F → σ → Bool × σ) (h : AreChains next chains) (s : σ) :
    ∃ m, (levelList next condition (heads chains) s).1 =
      heads ((chains.take m).map List.tail) := by
  induction chains generalizing s with
  | nil => exact ⟨0, rfl⟩
  | cons chain chains ih =>
    have hrest : AreChains next chains := fun c hc => h c (List.mem_cons_of_mem _ hc)
    cases chain with
    | nil =>
      obtain ⟨m, hm⟩ := ih hrest s
      exact ⟨m + 1, by simpa using hm⟩
    | cons frame chain =>
      have hnext : next frame = chain.head? := (h _ List.mem_cons_self).2.head_eq
      by_cases hmet : (condition frame s).1
      · obtain ⟨m, hm⟩ := ih hrest (condition frame s).2
        exact ⟨m + 1, by simp [levelList, hmet, hm, hnext]⟩
      · exact ⟨0, by simp [levelList, hmet, heads]⟩

/-- The traversal ends with the longest chain. -/
theorem levelsList_ends (condition : F → σ → Bool × σ) (post_process_level : σ → σ)
    {depth fuel : Nat} (h : AreChains next chains)
    (hdepth : ∀ chain ∈ chains, chain.length ≤ depth) (hfuel : depth ≤ fuel) (s : σ) :
    ∃ s', levelsList next condition post_process_level fuel (heads chains) s = some s' := by
  induction fuel generalizing chains depth s with
  | zero =>
    have hempty : heads chains = [] := by
      refine heads_eq_nil_iff.mpr fun chain hmem => List.length_eq_zero_iff.mp ?_
      exact Nat.le_zero.mp (Nat.le_trans (hdepth chain hmem) hfuel)
    exact ⟨s, by rw [levelsList, if_pos hempty]⟩
  | succ fuel ih =>
    rw [levelsList]
    split
    case isTrue => exact ⟨s, rfl⟩
    case isFalse =>
      obtain ⟨m, hm⟩ := levelList_chains condition h s
      simp only [hm]
      have hprefix : AreChains next (chains.take m) := fun c hc => h c (List.mem_of_mem_take hc)
      have hshorter : ∀ rest ∈ (chains.take m).map List.tail, rest.length ≤ depth - 1 := by
        intro rest hrest
        obtain ⟨chain, hmem, rfl⟩ := List.mem_map.mp hrest
        rw [List.length_tail]
        exact Nat.sub_le_sub_right (hdepth chain (List.mem_of_mem_take hmem)) 1
      exact ih hprefix.tails hshorter (Nat.sub_le_of_le_add hfuel) _

end Chains

/-- The chains of a range of buckets. -/
def PageTable.chains (table : PageTable F) (begin_bfs end_bfs : Nat) : List (List F) :=
  (List.range (entriesBetween begin_bfs end_bfs)).map fun idx => table.frames (begin_bfs + idx)

theorem PageTable.areChains (table : PageTable F) (begin_bfs end_bfs : Nat) :
    AreChains table.next (table.chains begin_bfs end_bfs) := by
  intro chain hchain
  obtain ⟨idx, -, rfl⟩ := List.mem_map.mp hchain
  have hbucket := table.chain (begin_bfs + idx)
  rw [hbucket.head_eq] at hbucket
  exact hbucket

/-- The buckets' frames are where their chains begin. -/
theorem PageTable.heads_chains (table : PageTable F) (begin_bfs end_bfs : Nat) :
    heads (table.chains begin_bfs end_bfs) =
      (List.range (entriesBetween begin_bfs end_bfs)).map fun idx =>
        table.bfs (begin_bfs + idx) := by
  have hfirst : (List.head? ∘ fun idx => table.frames (begin_bfs + idx)) =
      fun idx => some (table.bfs (begin_bfs + idx)) :=
    funext fun idx => (table.chain (begin_bfs + idx)).head_eq.symm
  rw [heads, PageTable.chains, List.filterMap_map, hfirst]
  exact congrFun List.filterMap_eq_map' _

end ScaleStore.PageProvider
