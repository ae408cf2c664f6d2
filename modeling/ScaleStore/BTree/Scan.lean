/-
# Scans, leaf by leaf

A scan step hands one leaf's share of the map to the callback and leaves a fence
key to resume from.  On a tree at rest the shares are consecutive pieces of the
ordered map, so the whole scan is the callback fed with the map from the start
key on.
-/

import ScaleStore.BTree.Calls
import Mathlib.Data.Finset.Card

namespace ScaleStore.BTree

universe u v

variable {K : Type u} {V : Type v} [LinearOrder K]

/-! ## The callback -/

omit [LinearOrder K] in
theorem feed_append (func : Callback K V) (seen xs ys : List (K × V)) :
    feed func seen (xs ++ ys) =
      if (feed func seen xs).2 then feed func (feed func seen xs).1 ys else feed func seen xs := by
  induction xs generalizing seen with
  | nil => simp [feed]
  | cons e xs ih =>
      simp only [List.cons_append, feed]
      split
      · exact ih _
      · simp

omit [LinearOrder K] in
/-- What the callback was handed is a first part of what there was. -/
theorem feed_prefix (func : Callback K V) (seen xs : List (K × V)) :
    ∃ ys, ys <+: xs ∧ (feed func seen xs).1 = seen ++ ys ∧
      ((feed func seen xs).2 = true → ys = xs) ∧
      ((feed func seen xs).2 = false → func (feed func seen xs).1 = false ∧ ys ≠ []) := by
  induction xs generalizing seen with
  | nil => exact ⟨[], List.prefix_rfl, by simp [feed], by simp, by simp [feed]⟩
  | cons e xs ih =>
      simp only [feed]
      split
      · obtain ⟨ys, hpre, hseen, htrue, hfalse⟩ := ih (seen ++ [e])
        refine ⟨e :: ys, List.cons_prefix_cons.mpr ⟨rfl, hpre⟩, by simp [hseen], ?_, ?_⟩
        · intro hres
          rw [htrue hres]
        · intro hres
          exact ⟨(hfalse hres).1, List.cons_ne_nil e ys⟩
      · rename_i hstop
        exact ⟨[e], ⟨xs, rfl⟩, rfl, by simp, by simpa using hstop⟩

/-- The result of one leaf: resume from the fence unless the callback stopped. -/
def scanResult (fed : List (K × V) × Bool) (fence : FenceKey K) : List (K × V) × OpResult K :=
  if fed.2 then (fed.1, resume fence) else (fed.1, .finished)

omit [LinearOrder K] in
theorem scanResult_eq (fed : List (K × V) × Bool) (fence : FenceKey K) :
    (match fed with
      | (seen', true) => (seen', resume fence)
      | (seen', false) => (seen', .finished)) = scanResult fed fence := by
  rcases fed with ⟨seen', _ | _⟩ <;> rfl

/-! ## One leaf -/

section Leaf

variable [Inhabited K] {l : Leaf K V}

omit [LinearOrder K] [Inhabited K] in
/-- A position with only wanted entries on one side and none on the other is the
border of a filter. -/
theorem take_drop_eq_filter {xs : List (K × V)} {p : K × V → Bool} {pos : Nat}
    (htake : ∀ e ∈ xs.take pos, p e = true) (hdrop : ∀ e ∈ xs.drop pos, p e = false) :
    xs.filter p = xs.take pos ∧ xs.filter (fun e => !p e) = xs.drop pos := by
  have hsplit : ∀ q : K × V → Bool,
      xs.filter q = (xs.take pos).filter q ++ (xs.drop pos).filter q := by
    intro q
    rw [← List.filter_append, List.take_append_drop]
  constructor
  · rw [hsplit, List.filter_eq_self.mpr htake, List.filter_eq_nil_iff.mpr (by simpa using hdrop),
      List.append_nil]
  · rw [hsplit, List.filter_eq_nil_iff.mpr (by simpa using htake),
      List.filter_eq_self.mpr (by simpa using hdrop), List.nil_append]

/-- An ascending step hands over the leaf's entries from the key on. -/
theorem ascScan_eq (hs : l.Sorted) (func : Callback K V) (k : K) (seen : List (K × V)) :
    ascScan func k l seen =
      scanResult (feed func seen (l.entries.filter (fun e => k ≤ e.1))) l.upper := by
  unfold ascScan
  split
  · rename_i hcount
    have hnil : l.entries = [] := List.length_eq_zero_iff.mp hcount
    simp [hnil, feed, scanResult]
  · rename_i hcount
    obtain ⟨hlt, hge⟩ := Leaf.lowerBound_take_drop hs hcount k
    have hborder := (take_drop_eq_filter (p := fun e : K × V => decide (e.1 < k))
      (by simpa using hlt) (by simpa using hge)).2
    have hfilter : l.entries.filter (fun e => decide (k ≤ e.1)) =
        l.entries.drop (l.lowerBound k) := by
      rw [← hborder]
      refine List.filter_congr fun e _ => ?_
      simp [← not_le]
    rw [hfilter]
    exact scanResult_eq _ _

omit [Inhabited K] in
theorem take_eq_filter_le {k : K} {pos : Nat}
    (htake : ∀ e ∈ l.entries.take pos, e.1 ≤ k) (hdrop : ∀ e ∈ l.entries.drop pos, k < e.1) :
    l.entries.take pos = l.entries.filter (fun e => e.1 ≤ k) :=
  ((take_drop_eq_filter (p := fun e : K × V => decide (e.1 ≤ k)) (by simpa using htake)
    (by simpa using hdrop)).1).symm

/-- Where the descending iterator starts: it skips the leaf when all its entries
are above the key, and else the entries up to its start are those up to the key. -/
theorem descScan_start (hs : l.Sorted) (hcount : l.count ≠ 0) (k : K) {it : Nat}
    (hit : it = if l.count ≤ l.lowerBound k then l.count - 1 else l.lowerBound k) :
    ((k < Search.cells l.keys it ∧ it = 0) ∧ l.entries.filter (fun e => e.1 ≤ k) = []) ∨
      (¬ (k < Search.cells l.keys it ∧ it = 0) ∧
        l.entries.take ((if k < Search.cells l.keys it then it - 1 else it) + 1) =
          l.entries.filter (fun e => e.1 ≤ k)) := by
  obtain ⟨hlt, hge⟩ := Leaf.lowerBound_take_drop hs hcount k
  have hcell : ∀ i (hi : i < l.entries.length), Search.cells l.keys i = (l.entries[i]).1 := by
    intro i hi
    rw [Search.cells_eq_getElem (by rw [Leaf.length_keys]; exact hi)]
    simp [Leaf.keys]
  have hlen : l.entries.length = l.count := rfl
  rcases Nat.lt_or_ge (l.lowerBound k) l.count with hin | hout
  · rw [if_neg (by omega)] at hit
    subst hit
    have hmono := List.pairwise_iff_getElem.mp hs
    have hfirst : k ≤ (l.entries[l.lowerBound k]).1 := by
      refine hge _ ?_
      rw [List.drop_eq_getElem_cons hin]
      exact List.mem_cons_self
    rw [hcell _ hin]
    rcases lt_or_eq_of_le hfirst with hgt | heq
    · have hdrop : ∀ e ∈ l.entries.drop (l.lowerBound k), k < e.1 := by
        intro e he
        obtain ⟨i, hi, rfl⟩ := List.mem_iff_getElem.mp he
        rw [List.length_drop] at hi
        rw [List.getElem_drop]
        rcases Nat.eq_zero_or_pos i with rfl | hpos
        · exact hgt
        · exact hgt.trans (hmono _ _ hin (by omega) (by omega))
      have htake := take_eq_filter_le (fun e he => le_of_lt (hlt e he)) hdrop
      rcases Nat.eq_zero_or_pos (l.lowerBound k) with hz | hpos
      · refine Or.inl ⟨⟨hgt, hz⟩, ?_⟩
        rw [← htake, hz, List.take_zero]
      · refine Or.inr ⟨by omega, ?_⟩
        rw [if_pos hgt, show l.lowerBound k - 1 + 1 = l.lowerBound k by omega]
        exact htake
    · refine Or.inr ⟨fun h => absurd h.1 (not_lt.mpr (le_of_eq heq.symm)), ?_⟩
      rw [if_neg (not_lt.mpr (le_of_eq heq.symm))]
      refine take_eq_filter_le ?_ ?_
      · intro e he
        rw [List.take_add_one, List.getElem?_eq_getElem hin, List.mem_append] at he
        rcases he with he | he
        · exact le_of_lt (hlt e he)
        · obtain rfl : e = l.entries[l.lowerBound k] := by simpa using he
          exact le_of_eq heq.symm
      · intro e he
        obtain ⟨i, hi, rfl⟩ := List.mem_iff_getElem.mp he
        rw [List.length_drop] at hi
        rw [List.getElem_drop]
        exact lt_of_eq_of_lt heq (hmono _ _ hin (by omega) (by omega))
  · rw [if_pos hout] at hit
    subst hit
    have hlast : (l.entries[l.count - 1]).1 < k := by
      refine hlt _ (List.mem_take_iff_getElem.mpr ⟨l.count - 1, by omega, rfl⟩)
    rw [hcell _ (by omega), if_neg (not_lt.mpr (le_of_lt hlast))]
    refine Or.inr ⟨fun h => absurd h.1 (not_lt.mpr (le_of_lt hlast)), ?_⟩
    refine take_eq_filter_le ?_ ?_
    · intro e he
      exact le_of_lt (hlt e (List.take_subset_take_left _ (by omega) he))
    · intro e he
      rw [List.drop_eq_nil_of_le (by omega)] at he
      cases he

/-- A descending step hands over the leaf's entries from the key down. -/
theorem descScan_eq (hs : l.Sorted) (func : Callback K V) (k : K) (seen : List (K × V)) :
    descScan func k l seen =
      scanResult (feed func seen (l.entries.filter (fun e => e.1 ≤ k)).reverse) l.lower := by
  simp only [descScan]
  split
  · rename_i hcount
    have hnil : l.entries = [] := List.length_eq_zero_iff.mp hcount
    simp [hnil, feed, scanResult]
  · rename_i hcount
    rcases descScan_start hs hcount k rfl with ⟨hskip, hnil⟩ | ⟨hgo, htake⟩
    · rw [if_pos hskip, hnil]
      simp [feed, scanResult]
    · rw [if_neg hgo, htake]
      exact scanResult_eq _ _

end Leaf

/-! ## One step -/

section Step

variable [Inhabited K] {c : Capacity} {entry root : PID} {h : Heap K V} {G : Layout K}
  {height : Nat}

/-- The range of the leaf a step reaches: it holds the key, or, when an
ascending scan resumes, the keys directly above it. -/
def Reaches (dir : Direction) (isFirstTraversal : Bool) (k : K) (a b : FenceKey K) : Prop :=
  match dir, isFirstTraversal with
  | .asc, false => InRangeAbove a b k
  | _, _ => InRange a b k

/-- What a leaf hands over, in the order of the scan. -/
def share (dir : Direction) (k : K) (l : Leaf K V) : List (K × V) :=
  match dir with
  | .asc => l.entries.filter (fun e => k ≤ e.1)
  | .desc => (l.entries.filter (fun e => e.1 ≤ k)).reverse

/-- The fence of a region in scan direction. -/
def Region.fence (dir : Direction) (r : Region K) : FenceKey K :=
  match dir with
  | .asc => r.upper
  | .desc => r.lower

theorem nextNode_sound (dir : Direction) (first : Bool) (k : K) :
    Search.Sound (nextNode dir first k) (Reaches dir first k) := by
  cases dir with
  | desc => exact Search.sound_lowerBound k
  | asc =>
      cases first with
      | true => exact Search.sound_lowerBound k
      | false => exact Search.sound_upperBound k

/-- A scan step ends, at a leaf with the wanted range. -/
theorem TreeInv.scanStep (inv : TreeInv c entry h G root height) (dir : Direction)
    (func : Callback K V) (first : Bool) (k : K) :
    ∃ parent pid r l, G pid = some r ∧ h.page pid = .leaf l ∧ Reaches dir first k r.lower r.upper ∧
      (∀ fuel, height < fuel →
        BTree.descendType h (nextNode dir first k) fuel entry root = .ok (parent, pid)) ∧
      ∀ fuel, height < fuel → ∀ seen, BTree.scanStep entry dir func fuel h first k seen =
        .ok (scanResult (feed func seen (share dir k l)) (r.fence dir)) := by
  have hroot : Reaches dir first k none none := by
    cases dir <;> cases first <;> exact ⟨by simp, by simp⟩
  obtain ⟨parent, pid, r, l, hrun, hG, hl, hr, _⟩ :=
    inv.descendType (nextNode_sound dir first k) inv.root_region rfl hroot (Or.inl ⟨rfl, rfl⟩)
  have hok := inv.leafOK hG hl
  refine ⟨parent, pid, r, l, hG, hl, hr, hrun, ?_⟩
  intro fuel hfuel seen
  have hleaf : scanLeaf dir func k l seen =
      scanResult (feed func seen (share dir k l)) (r.fence dir) := by
    cases dir with
    | asc => rw [scanLeaf, ascScan_eq hok.sorted, hok.upper_eq]; rfl
    | desc => rw [scanLeaf, descScan_eq hok.sorted, hok.lower_eq]; rfl
  simp only [BTree.scanStep, inv.entry_page, hrun fuel hfuel, hl, hleaf]

/-! ## A scan of a tree at rest -/

/-- The ordered map a tree stores. -/
def Abstracts (h : Heap K V) (G : Layout K) (m : OrderedMap K V) : Prop :=
  ∀ k v, (k, v) ∈ m.entries ↔ Binds h G k v

omit [Inhabited K] in
/-- The map's entries in the region of a leaf are the leaf's. -/
theorem TreeInv.mem_leaf_iff (inv : TreeInv c entry h G root height) {m : OrderedMap K V}
    (hm : Abstracts h G m) {pid : PID} {r : Region K} {l : Leaf K V} (hG : G pid = some r)
    (hl : h.page pid = .leaf l) (e : K × V) :
    e ∈ l.entries ↔ e ∈ m.entries ∧ r.Holds e.1 := by
  constructor
  · intro he
    have hk := (inv.leafOK hG hl).mem_region e he
    exact ⟨(hm e.1 e.2).mpr ((inv.binds_iff_mem hG hl hk e.2).mpr he), hk⟩
  · rintro ⟨he, hk⟩
    exact (inv.binds_iff_mem hG hl hk e.2).mp ((hm e.1 e.2).mp he)

omit [Inhabited K] in
/-- Upwards, a leaf's share is followed by the map above its upper fence. -/
theorem TreeInv.filter_asc (inv : TreeInv c entry h G root height) {m : OrderedMap K V}
    (hm : Abstracts h G m) {pid : PID} {r : Region K} {l : Leaf K V} (hG : G pid = some r)
    (hl : h.page pid = .leaf l) {p : K → Bool} (hlow : ∀ j, p j = true → ∀ a ∈ r.lower, a < j)
    (hup : ∀ j, ∀ b ∈ r.upper, b < j → p j = true) :
    m.entries.filter (fun e => p e.1) = l.entries.filter (fun e => p e.1) ++
      (match r.upper with | none => [] | some b => m.above b) := by
  have hok := inv.leafOK hG hl
  refine OrderedMap.entries_ext (m.sorted.filter _) ?_ ?_
  · refine List.pairwise_append.mpr ⟨hok.sorted.filter _, ?_, ?_⟩
    · split
      · exact List.Pairwise.nil
      · exact m.sorted.filter _
    · intro x hx y hy
      split at hy
      · cases hy
      · rename_i b hb
        have hxb := (hok.mem_region x (List.mem_filter.mp hx).1).2 b hb
        exact lt_of_le_of_lt hxb (by simpa using (List.mem_filter.mp hy).2)
  · intro e
    rw [List.mem_append, List.mem_filter, List.mem_filter, inv.mem_leaf_iff hm hG hl]
    constructor
    · rintro ⟨he, hp⟩
      cases hb : r.upper with
      | none => exact Or.inl ⟨⟨he, fun a ha => hlow e.1 hp a ha, by simp [hb]⟩, hp⟩
      | some b =>
          rcases le_or_gt e.1 b with hle | hgt
          · refine Or.inl ⟨⟨he, fun a ha => hlow e.1 hp a ha, ?_⟩, hp⟩
            intro b' hb'
            obtain rfl : b = b' := Option.some.inj (hb.symm.trans hb')
            exact hle
          · exact Or.inr (List.mem_filter.mpr ⟨he, by simpa using hgt⟩)
    · rintro (⟨⟨he, _⟩, hp⟩ | he)
      · exact ⟨he, hp⟩
      · split at he
        · cases he
        · rename_i b hb
          obtain ⟨he, hgt⟩ := List.mem_filter.mp he
          exact ⟨he, hup e.1 b hb (by simpa using hgt)⟩

omit [Inhabited K] in
/-- Downwards, a leaf's share is followed by the map up to its lower fence. -/
theorem TreeInv.filter_desc (inv : TreeInv c entry h G root height) {m : OrderedMap K V}
    (hm : Abstracts h G m) {pid : PID} {r : Region K} {l : Leaf K V} (hG : G pid = some r)
    (hl : h.page pid = .leaf l) {k : K} (hk : r.Holds k) :
    m.upTo k = (match r.lower with | none => [] | some a => m.upTo a) ++
      l.entries.filter (fun e => e.1 ≤ k) := by
  have hok := inv.leafOK hG hl
  refine OrderedMap.entries_ext (m.sorted.filter _) ?_ ?_
  · refine List.pairwise_append.mpr ⟨?_, hok.sorted.filter _, ?_⟩
    · split
      · exact List.Pairwise.nil
      · exact m.sorted.filter _
    · intro x hx y hy
      split at hx
      · cases hx
      · rename_i a ha
        have hya := (hok.mem_region y (List.mem_filter.mp hy).1).1 a ha
        exact lt_of_le_of_lt (by simpa using (List.mem_filter.mp hx).2) hya
  · intro e
    rw [OrderedMap.upTo, List.mem_append, List.mem_filter, List.mem_filter,
      inv.mem_leaf_iff hm hG hl]
    simp only [decide_eq_true_eq]
    constructor
    · rintro ⟨he, hle⟩
      have hupper : ∀ b ∈ r.upper, e.1 ≤ b := fun b hb => hle.trans (hk.2 b hb)
      cases ha : r.lower with
      | none => exact Or.inr ⟨⟨he, by simp [ha], hupper⟩, hle⟩
      | some a =>
          rcases le_or_gt e.1 a with hea | hae
          · exact Or.inl (List.mem_filter.mpr ⟨he, by simpa using hea⟩)
          · refine Or.inr ⟨⟨he, ?_, hupper⟩, hle⟩
            intro a' ha'
            obtain rfl : a = a' := Option.some.inj (ha.symm.trans ha')
            exact hae
    · rintro (he | ⟨⟨he, _⟩, hle⟩)
      · split at he
        · cases he
        · rename_i a ha
          obtain ⟨he, hea⟩ := List.mem_filter.mp he
          have hea' : e.1 ≤ a := by simpa using hea
          exact ⟨he, hea'.trans (le_of_lt (hk.1 a ha))⟩
      · exact ⟨he, hle⟩

open Classical in
/-- The leaves whose region satisfies `P`: those still ahead of a scan. -/
noncomputable def ahead (h : Heap K V) (G : Layout K) (P : Region K → Prop) : Finset PID :=
  (Finset.range h.next).filter (fun q => ∃ r, G q = some r ∧ r.level = 0 ∧ P r)

omit [Inhabited K] in
theorem TreeInv.ahead_lt (inv : TreeInv c entry h G root height) {P Q : Region K → Prop}
    (hsub : ∀ r, Q r → P r) {pid : PID} {r : Region K} (hG : G pid = some r) (hr : r.level = 0)
    (hP : P r) (hQ : ¬ Q r) : (ahead h G Q).card < (ahead h G P).card := by
  refine Finset.card_lt_card ⟨?_, ?_⟩
  · intro q hq
    simp only [ahead, Finset.mem_filter] at hq ⊢
    obtain ⟨hlt, s, hs, hl, hQs⟩ := hq
    exact ⟨hlt, s, hs, hl, hsub s hQs⟩
  · intro hle
    have hmem : pid ∈ ahead h G P := by
      simp only [ahead, Finset.mem_filter, Finset.mem_range]
      exact ⟨inv.lt_next pid r hG, r, hG, hr, hP⟩
    have hmem' := hle hmem
    simp only [ahead, Finset.mem_filter] at hmem'
    obtain ⟨_, s, hs, _, hQs⟩ := hmem'
    rw [hG] at hs
    obtain rfl := Option.some.inj hs
    exact hQ hQs

omit [Inhabited K] in
/-- At rest, the leaf above a fence key starts at that key. -/
theorem TreeInv.lower_of_fence (inv : TreeInv c entry h G root height) {q pid : PID}
    {s r : Region K} (hq : G q = some s) (hs : s.level = 0) {k : K} (hupper : s.upper = some k)
    (hG : G pid = some r) (hr : r.level = 0) (hk : InRangeAbove r.lower r.upper k) :
    r.lower = some k := by
  obtain ⟨j, hj⟩ := inv.inhabited q s hq
  have hsk : s.Holds k := by
    refine ⟨fun a ha => lt_of_lt_of_le (hj.1 a ha) (hj.2 k hupper), ?_⟩
    intro b hb
    exact le_of_eq (Option.some.inj (hupper.symm.trans hb))
  by_contra hne
  have hrk : r.Holds k := by
    refine ⟨fun a ha => lt_of_le_of_ne (hk.1 a ha) ?_, fun b hb => le_of_lt (hk.2 b hb)⟩
    rintro rfl
    exact hne ha
  obtain rfl := inv.unique q pid s r k hq hG (hs.trans hr.symm) hsk hrk
  rw [hq] at hG
  obtain rfl := Option.some.inj hG
  exact lt_irrefl k (hk.2 k hupper)

/-- An ascending scan resumed at a fence key feeds the map above it. -/
theorem TreeInv.scanLoop_asc (inv : TreeInv c entry h G root height) {m : OrderedMap K V}
    (hm : Abstracts h G m) (func : Callback K V) (n depth : Nat) (hdepth : height < depth)
    (k : K) (seen : List (K × V)) (hn : (ahead h G (fun r => ∀ b ∈ r.upper, k < b)).card ≤ n)
    {q : PID} {s : Region K} (hq : G q = some s) (hs : s.level = 0) (hk : s.upper = some k)
    (fuel : Nat) (hfuel : n < fuel) :
    scanLoop entry .asc func depth h fuel false k seen = .ok (feed func seen (m.above k)).1 := by
  induction n using Nat.strong_induction_on generalizing k seen q s fuel with
  | _ n ih =>
    obtain ⟨fuel, rfl⟩ : ∃ f, fuel = f + 1 := ⟨fuel - 1, by omega⟩
    obtain ⟨_, pid, r, l, hG, hl, hr, _, hstep⟩ := inv.scanStep .asc func false k
    have hlevel := inv.level_of_leaf hG hl
    have hlower := inv.lower_of_fence hq hs hk hG hlevel hr
    have hkr : ∀ e ∈ l.entries, k < e.1 := fun e he =>
      ((inv.leafOK hG hl).mem_region e he).1 k hlower
    -- the share is the whole leaf, and the map goes on above its fence
    have hshare : share .asc k l = l.entries.filter (fun e => decide (k < e.1)) := by
      refine List.filter_congr fun e he => ?_
      simp [hkr e he, le_of_lt (hkr e he)]
    have hsplit : m.above k = share .asc k l ++
        (match r.upper with | none => [] | some b => m.above b) := by
      rw [hshare]
      refine inv.filter_asc (p := fun j => decide (k < j)) hm hG hl ?_ ?_
      · intro j hj a ha
        obtain rfl : k = a := Option.some.inj (hlower.symm.trans ha)
        simpa using hj
      · intro j b hb hlt
        simpa using (hr.2 b hb).trans hlt
    rw [scanLoop, hstep depth hdepth, hsplit, feed_append]
    cases hfed : (feed func seen (share .asc k l)).2 with
    | false => simp [scanResult, hfed]
    | true =>
        cases hb : r.upper with
        | none => simp [scanResult, hfed, Region.fence, hb, resume, feed]
        | some b =>
            have hkb : k < b := hr.2 b hb
            have hlt : (ahead h G (fun r => ∀ x ∈ r.upper, b < x)).card < n := by
              refine lt_of_lt_of_le (inv.ahead_lt ?_ hG hlevel ?_ ?_) hn
              · intro t ht x hx
                exact hkb.trans (ht x hx)
              · intro x hx
                exact hr.2 x hx
              · intro hall
                exact lt_irrefl b (hall b hb)
            have := ih _ hlt b (feed func seen (share .asc k l)).1 le_rfl hG hlevel hb
              fuel (by omega)
            simpa [scanResult, hfed, Region.fence, hb, resume] using this

/-- A descending scan feeds the map from its key down. -/
theorem TreeInv.scanLoop_desc (inv : TreeInv c entry h G root height) {m : OrderedMap K V}
    (hm : Abstracts h G m) (func : Callback K V) (n depth : Nat) (hdepth : height < depth)
    (first : Bool) (k : K) (seen : List (K × V))
    (hn : (ahead h G (fun r => ∀ a ∈ r.lower, a < k)).card ≤ n) (fuel : Nat) (hfuel : n < fuel) :
    scanLoop entry .desc func depth h fuel first k seen =
      .ok (feed func seen (m.upTo k).reverse).1 := by
  induction n using Nat.strong_induction_on generalizing k seen fuel first with
  | _ n ih =>
    obtain ⟨fuel, rfl⟩ : ∃ f, fuel = f + 1 := ⟨fuel - 1, by omega⟩
    obtain ⟨_, pid, r, l, hG, hl, hr, _, hstep⟩ := inv.scanStep .desc func first k
    have hlevel := inv.level_of_leaf hG hl
    have hk : r.Holds k := hr
    have hsplit : (m.upTo k).reverse = share .desc k l ++
        (match r.lower with | none => [] | some a => (m.upTo a).reverse) := by
      rw [inv.filter_desc hm hG hl hk, List.reverse_append, share]
      cases r.lower <;> simp
    rw [scanLoop, hstep depth hdepth, hsplit, feed_append]
    cases hfed : (feed func seen (share .desc k l)).2 with
    | false => simp [scanResult, hfed]
    | true =>
        cases ha : r.lower with
        | none => simp [scanResult, hfed, Region.fence, ha, resume, feed]
        | some a =>
            have hak : a < k := hk.1 a ha
            have hlt : (ahead h G (fun r => ∀ x ∈ r.lower, x < a)).card < n := by
              refine lt_of_lt_of_le (inv.ahead_lt ?_ hG hlevel ?_ ?_) hn
              · intro t ht x hx
                exact (ht x hx).trans hak
              · intro x hx
                exact hk.1 x hx
              · intro hall
                exact lt_irrefl a (hall a ha)
            have := ih _ hlt false a (feed func seen (share .desc k l)).1 le_rfl fuel
              (by omega)
            simpa [scanResult, hfed, Region.fence, ha, resume] using this

/-- The map a scan feeds to its callback, in scan order. -/
def OrderedMap.range (dir : Direction) (m : OrderedMap K V) (k : K) : List (K × V) :=
  match dir with
  | .asc => m.onward k
  | .desc => (m.upTo k).reverse

/-- A scan of a tree at rest feeds exactly the wanted range of the map. -/
theorem TreeInv.scan (inv : TreeInv c entry h G root height) {m : OrderedMap K V}
    (hm : Abstracts h G m) (dir : Direction) (func : Callback K V) (k : K) :
    ∃ bound, ∀ fuel, bound ≤ fuel →
      BTree.scan entry dir func fuel h k = .ok (feed func [] (OrderedMap.range dir m k)).1 := by
  cases dir with
  | desc =>
      refine ⟨max (height + 1) ((ahead h G (fun r => ∀ a ∈ r.lower, a < k)).card + 1), ?_⟩
      intro fuel hfuel
      exact inv.scanLoop_desc hm func _ fuel (by omega) true k [] le_rfl fuel (by omega)
  | asc =>
      obtain ⟨_, pid, r, l, hG, hl, hr, _, hstep⟩ := inv.scanStep .asc func true k
      have hlevel := inv.level_of_leaf hG hl
      have hk : r.Holds k := hr
      have hsplit : m.onward k = share .asc k l ++
          (match r.upper with | none => [] | some b => m.above b) := by
        refine inv.filter_asc (p := fun j => decide (k ≤ j)) hm hG hl ?_ ?_
        · intro j hj a ha
          exact lt_of_lt_of_le (hk.1 a ha) (by simpa using hj)
        · intro j b hb hlt
          simpa using (hk.2 b hb).trans (le_of_lt hlt)
      cases hb : r.upper with
      | none =>
          refine ⟨height + 1, fun fuel hfuel => ?_⟩
          obtain ⟨fuel, rfl⟩ : ∃ f, fuel = f + 1 := ⟨fuel - 1, by omega⟩
          rw [BTree.scan, scanLoop, hstep _ (by omega), OrderedMap.range, hsplit, hb,
            List.append_nil]
          cases hfed : (feed func [] (share .asc k l)).2 <;>
            simp [scanResult, hfed, Region.fence, hb, resume]
      | some b =>
          refine ⟨max (height + 1)
            ((ahead h G (fun r => ∀ x ∈ r.upper, b < x)).card + 2), fun fuel hfuel => ?_⟩
          obtain ⟨fuel, rfl⟩ : ∃ f, fuel = f + 1 := ⟨fuel - 1, by omega⟩
          rw [BTree.scan, scanLoop, hstep _ (by omega), OrderedMap.range, hsplit, hb, feed_append]
          cases hfed : (feed func [] (share .asc k l)).2 with
          | false => simp [scanResult, hfed]
          | true =>
              have := inv.scanLoop_asc hm func _ (fuel + 1) (by omega) b
                (feed func [] (share .asc k l)).1 le_rfl hG hlevel hb fuel (by omega)
              simpa [scanResult, hfed, Region.fence, hb, resume] using this

end Step

end ScaleStore.BTree
