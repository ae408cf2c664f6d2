/-
# Descents find the leaf of a key

Both descents of the source end at the leaf whose range covers the searched key,
whether they count levels down from the stored height or look at the node type.
An insert pass ends there too, or splits the first full page on its way; the
number of such splits is bounded by a potential on the full pages, so the
restart loop of `insert` ends.
-/

import ScaleStore.BTree.Merge
import Mathlib.Algebra.BigOperators.Group.Finset.Piecewise
import Mathlib.Algebra.Order.BigOperators.Group.Finset

namespace ScaleStore.BTree

universe u v

variable {K : Type u} {V : Type v} [LinearOrder K]
variable {c : Capacity} {entry root : PID} {h : Heap K V} {G : Layout K} {height : Nat}

/-- A search position in an inner node leads to a child page of the tree. -/
theorem InnerOK.child_at {n : Inner K} {r : Region K} {level : Nat} (hn : InnerOK c G n r level)
    {pos : Nat} (hpos : pos ≤ n.keys.length) :
    ∃ child, n.children[pos]? = some child ∧
      G child = some ⟨level, n.slotLower r.lower pos, n.slotUpper r.upper pos⟩ ∧
      n.Slot r.lower r.upper pos child (n.slotLower r.lower pos) (n.slotUpper r.upper pos) := by
  obtain ⟨child, hchild⟩ := hn.shape.child_of_le hpos
  have hslot : n.Slot r.lower r.upper pos child (n.slotLower r.lower pos)
      (n.slotUpper r.upper pos) := ⟨hchild, rfl, rfl⟩
  exact ⟨child, hchild, hn.child_region _ _ _ _ hslot, hslot⟩

/-- A search that never leaves the wanted range: it returns a position of the
node, and that position's range is wanted again. -/
structure Search.Sound [Inhabited K] (next : Inner K → Nat)
    (Wanted : FenceKey K → FenceKey K → Prop) : Prop where
  pos_le : ∀ n lower upper, Inner.Shape n lower upper → next n ≤ n.keys.length
  wanted : ∀ n lower upper, Inner.Shape n lower upper → Wanted lower upper →
    Wanted (n.slotLower lower (next n)) (n.slotUpper upper (next n))

section Sound

variable [Inhabited K]

theorem Search.sound_lowerBound (k : K) :
    Search.Sound (fun n => n.lowerBound k) (fun a b => InRange a b k) :=
  ⟨fun _ _ _ hn => (hn.lowerBound_cut k).le_count, fun _ _ _ hn hk => hn.inRange_slot hk⟩

theorem Search.sound_lowerBoundBF (k : K) :
    Search.Sound (fun n => n.lowerBoundBF k) (fun a b => InRange a b k) := by
  constructor
  · intro n lower upper hn
    rw [hn.lowerBoundBF_eq]
    exact (hn.lowerBound_cut k).le_count
  · intro n lower upper hn hk
    rw [hn.lowerBoundBF_eq]
    exact hn.inRange_slot hk

theorem Search.sound_upperBound (k : K) :
    Search.Sound (fun n => n.upperBound k) (fun a b => InRangeAbove a b k) :=
  ⟨fun _ _ _ hn => (hn.upperBound_cut k).le_count, fun _ _ _ hn hk => hn.inRangeAbove_slot hk⟩

/-- One level of a descent. -/
theorem TreeInv.descend_one (inv : TreeInv c entry h G root height) {next : Inner K → Nat}
    {Wanted : FenceKey K → FenceKey K → Prop} (hs : Search.Sound next Wanted) {cur : PID}
    {r : Region K} (hG : G cur = some r) (hr : Wanted r.lower r.upper) {level : Nat}
    (hlevel : r.level = level + 1) :
    ∃ n child r', h.page cur = .inner n ∧ n.children[next n]? = some child ∧
      G child = some r' ∧ r'.level = level ∧ Wanted r'.lower r'.upper ∧
      IsParent h G entry root cur child r' := by
  obtain ⟨n, hn, hok⟩ := inv.inner_page hG hlevel
  obtain ⟨child, hchild, hregion, hslot⟩ :=
    hok.child_at (hs.pos_le n r.lower r.upper hok.shape)
  refine ⟨n, child, _, hn, hchild, hregion, rfl, hs.wanted n _ _ hok.shape hr, ?_⟩
  exact Or.inr ⟨r, n, _, hG, hlevel, hn, hslot⟩

/-- The descent by stored height ends at the leaf of the key. -/
theorem TreeInv.descendHeight (inv : TreeInv c entry h G root height) (k : K) {levels : Nat}
    {cur : PID} {r : Region K} (hG : G cur = some r) (hlevel : r.level = levels)
    (hk : r.Holds k) :
    ∃ pid r' l, BTree.descendHeight h k levels cur = .ok pid ∧ G pid = some r' ∧
      h.page pid = .leaf l ∧ r'.Holds k := by
  induction levels generalizing cur r with
  | zero =>
      obtain ⟨l, hl, _⟩ := inv.leaf_page hG hlevel
      exact ⟨cur, r, l, rfl, hG, hl, hk⟩
  | succ levels ih =>
      obtain ⟨n, child, r', hn, hchild, hG', hlevel', hk', _⟩ :=
        inv.descend_one (Search.sound_lowerBoundBF k) hG hk hlevel
      obtain ⟨pid, r'', l, hrun, hrest⟩ := ih hG' hlevel' hk'
      refine ⟨pid, r'', l, ?_, hrest⟩
      simp only [BTree.descendHeight, hn, hchild]
      exact hrun

/-- The descent by node type ends at the leaf of the wanted range. -/
theorem TreeInv.descendType (inv : TreeInv c entry h G root height) {next : Inner K → Nat}
    {Wanted : FenceKey K → FenceKey K → Prop} (hs : Search.Sound next Wanted) {level : Nat}
    {parent cur : PID} {r : Region K} (hG : G cur = some r) (hlevel : r.level = level)
    (hr : Wanted r.lower r.upper) (hparent : IsParent h G entry root parent cur r) :
    ∃ parent' pid r' l,
      (∀ fuel, level < fuel → BTree.descendType h next fuel parent cur = .ok (parent', pid)) ∧
      G pid = some r' ∧ h.page pid = .leaf l ∧ Wanted r'.lower r'.upper ∧
      IsParent h G entry root parent' pid r' := by
  induction level generalizing parent cur r with
  | zero =>
      obtain ⟨l, hl, _⟩ := inv.leaf_page hG hlevel
      refine ⟨parent, cur, r, l, ?_, hG, hl, hr, hparent⟩
      intro fuel hfuel
      obtain ⟨fuel, rfl⟩ : ∃ f, fuel = f + 1 := ⟨fuel - 1, by omega⟩
      simp [BTree.descendType, hl]
  | succ level ih =>
      obtain ⟨n, child, r', hn, hchild, hG', hlevel', hr', hparent'⟩ :=
        inv.descend_one hs hG hr hlevel
      obtain ⟨parent'', pid, r'', l, hrun, hrest⟩ := ih hG' hlevel' hr' hparent'
      refine ⟨parent'', pid, r'', l, ?_, hrest⟩
      intro fuel hfuel
      obtain ⟨fuel, rfl⟩ : ∃ f, fuel = f + 1 := ⟨fuel - 1, by omega⟩
      simp only [BTree.descendType, hn, hchild]
      exact hrun fuel (by omega)

/-- The leaf of a key, from the entry page. -/
theorem TreeInv.leaf_of_key (inv : TreeInv c entry h G root height) (k : K) :
    ∃ pid r l, BTree.descendHeight h k height root = .ok pid ∧ G pid = some r ∧
      h.page pid = .leaf l ∧ r.Holds k :=
  inv.descendHeight k inv.root_region rfl ⟨by simp, by simp⟩

/-! ## One insert pass -/

/-- How a pass of `insert` can end: the key is in, or one full page was split. -/
inductive PassResult (c : Capacity) (entry : PID) (h : Heap K V) (G : Layout K) (root : PID)
    (height : Nat) (k : K) (v : V) : Heap K V × Bool → Prop
  | inserted (pid : PID) (r : Region K) (l : Leaf K V) (hG : G pid = some r)
      (hl : h.page pid = .leaf l) (hroom : l.count < c.leaf) (hk : r.Holds k) :
      PassResult c entry h G root height k v (h.set pid (.leaf (l.insert k v)), true)
  | split (parent cur : PID) (r : Region K) (sep : K) (left right : Page K V) (h' : Heap K V)
      (G' : Layout K) (root' : PID) (height' : Nat) (hG : G cur = some r)
      (hparent : IsParent h G entry root parent cur r)
      (hfull : (∃ l, h.page cur = .leaf l ∧ l.isFull c = true ∧ left = .leaf l.splitLeft ∧
          right = .leaf l.splitRight) ∨
        ∃ n, h.page cur = .inner n ∧ n.isFull c = true ∧ left = .inner n.splitLeft ∧
          right = .inner n.splitRight)
      (hinv : TreeInv c entry h' G' root' height')
      (hgrown : Grown entry parent root root' height height')
      (heff : SplitEffect h h' G G' parent cur r sep left right) :
      PassResult c entry h G root height k v (h', false)

theorem TreeInv.insertDescend (inv : TreeInv c entry h G root height) (k : K) (v : V)
    {levels : Nat} {parent cur : PID} {r : Region K} (hG : G cur = some r)
    (hlevel : r.level = levels) (hk : r.Holds k) (hparent : IsParent h G entry root parent cur r)
    (hroom : parent ≠ entry → HasRoom c h parent) :
    ∃ res, BTree.insertDescend c entry h k v levels parent cur = .ok res ∧
      PassResult c entry h G root height k v res := by
  induction levels generalizing parent cur r with
  | zero =>
      obtain ⟨l, hl, hok⟩ := inv.leaf_page hG hlevel
      by_cases hfull : l.isFull c = true
      · obtain ⟨h', G', root', height', hrun, hinv, hgrown, heff⟩ :=
          inv.splitLeaf hG hparent hroom hl hfull
        refine ⟨(h', false), ?_, ?_⟩
        · simp [BTree.insertDescend, insertAtLeaf, hl, hfull, hrun]
        · exact .split parent cur r _ _ _ h' G' root' height' hG hparent
            (Or.inl ⟨l, hl, hfull, rfl, rfl⟩) hinv hgrown heff
      · refine ⟨(h.set cur (.leaf (l.insert k v)), true), ?_, ?_⟩
        · simp [BTree.insertDescend, insertAtLeaf, hl, hfull]
        · refine .inserted cur r l hG hl ?_ hk
          have hne : l.count ≠ c.leaf := by simpa [Leaf.isFull] using hfull
          have := hok.count_le
          omega
  | succ levels ih =>
      obtain ⟨n, child, r', hn, hchild, hG', hlevel', hk', hparent'⟩ :=
        inv.descend_one (Search.sound_lowerBoundBF k) hG hk hlevel
      by_cases hfull : n.isFull c = true
      · obtain ⟨h', G', root', height', hrun, hinv, hgrown, heff⟩ :=
          inv.splitInner hG hparent hroom hn hfull
        refine ⟨(h', false), ?_, ?_⟩
        · simp [BTree.insertDescend, hn, hfull, hrun]
        · exact .split parent cur r _ _ _ h' G' root' height' hG hparent
            (Or.inr ⟨n, hn, hfull, rfl, rfl⟩) hinv hgrown heff
      · have hroom' : cur ≠ entry → HasRoom c h cur := by
          intro _ m hm
          rw [hn] at hm
          cases hm
          obtain ⟨lv, _, hok⟩ := inv.innerOK hG hn
          have hne : n.count ≠ c.inner - 1 := by simpa [Inner.isFull] using hfull
          have := hok.count_le
          omega
        obtain ⟨res, hrun, hres⟩ := ih hG' hlevel' hk' hparent' hroom'
        refine ⟨res, ?_, hres⟩
        simp only [BTree.insertDescend, hn, hfull, hchild]
        exact hrun

theorem TreeInv.insertPass (inv : TreeInv c entry h G root height) (k : K) (v : V) :
    ∃ res, BTree.insertPass c entry h k v = .ok res ∧
      PassResult c entry h G root height k v res := by
  simp only [BTree.insertPass, inv.entry_page]
  exact inv.insertDescend k v inv.root_region rfl ⟨by simp, by simp⟩ (Or.inl ⟨rfl, rfl⟩)
    (fun hne => absurd rfl hne)

/-! ## The restart loop ends -/

/-- Is the page one that the next insert on its path would split? -/
def Page.isFull (c : Capacity) : Page K V → Bool
  | .leaf l => l.isFull c
  | .inner n => n.isFull c
  | _ => false

/-- What a page adds to the potential: the weight of its level, if it is full. -/
def load (c : Capacity) (weight : Nat → Nat) (h : Heap K V) (G : Layout K) (q : PID) : Nat :=
  match G q with
  | some r => if (h.page q).isFull c then weight r.level else 0
  | none => 0

/-- The weights of all full pages of the tree. -/
def potential (c : Capacity) (weight : Nat → Nat) (h : Heap K V) (G : Layout K) : Nat :=
  ∑ q ∈ Finset.range h.next, load c weight h G q

omit [Inhabited K] in
theorem TreeInv.potential_eq (inv : TreeInv c entry h G root height) (weight : Nat → Nat)
    {bound : Nat} (hbound : h.next ≤ bound) :
    potential c weight h G = ∑ q ∈ Finset.range bound, load c weight h G q := by
  refine Finset.sum_subset (Finset.range_subset_range.mpr hbound) fun q _ hq => ?_
  have hnone : G q = none := by
    by_contra hsome
    obtain ⟨r, hr⟩ := Option.ne_none_iff_exists'.mp hsome
    exact hq (Finset.mem_range.mpr (inv.lt_next q r hr))
  simp [load, hnone]

omit [LinearOrder K] in
theorem Leaf.halves_not_full {l : Leaf K V} (hfull : l.isFull c = true) :
    l.splitLeft.isFull c = false ∧ l.splitRight.isFull c = false := by
  have hcap := c.two_le_leaf
  simp only [Leaf.isFull, Leaf.count, beq_iff_eq, beq_eq_false_iff_ne, Leaf.splitLeft,
    Leaf.splitRight, Leaf.splitCount, List.length_take, List.length_drop] at hfull ⊢
  omega

omit [LinearOrder K] in
theorem Inner.halves_not_full {n : Inner K} (hfull : n.isFull c = true) :
    n.splitLeft.isFull c = false ∧ n.splitRight.isFull c = false := by
  have hcap := c.five_le_inner
  simp only [Inner.isFull, Inner.count, beq_iff_eq, beq_eq_false_iff_ne, Inner.splitLeft,
    Inner.splitRight, Inner.splitCount, List.length_take, List.length_drop] at hfull ⊢
  omega

omit [Inhabited K] in
/-- A split takes the weight of the split page off and adds at most the weight
of its parent. -/
theorem SplitEffect.load_le {parent cur : PID} {r : Region K} {sep : K} {left right : Page K V}
    {h' : Heap K V} {G' : Layout K} (eff : SplitEffect h h' G G' parent cur r sep left right)
    (inv : TreeInv c entry h G root height) (hG : G cur = some r)
    (hparent : IsParent h G entry root parent cur r) (hfull : (h.page cur).isFull c = true)
    (hleft : left.isFull c = false) (hright : right.isFull c = false) (weight : Nat → Nat)
    (q : PID) :
    load c weight h' G' q + (if q = cur then weight r.level else 0) ≤
      load c weight h G q +
        (if q = parent then (if parent = entry then 0 else weight (r.level + 1)) else 0) := by
  have hcur_lt := inv.lt_next cur r hG
  have hpc : parent ≠ cur := by
    rcases hparent with ⟨rfl, _⟩ | ⟨s, n, i, hs, hlevel, _, _⟩
    · exact Ne.symm (inv.ne_entry hG)
    · rintro rfl
      rw [hG] at hs
      obtain rfl := Option.some.inj hs
      omega
  by_cases hqc : q = cur
  · subst hqc
    have hnew : load c weight h' G' q = 0 := by simp [load, eff.cur_region, eff.page_cur, hleft]
    have hold : load c weight h G q = weight r.level := by simp [load, hG, hfull]
    rw [hnew, hold, if_pos rfl, if_neg (Ne.symm hpc)]
    omega
  · rw [if_neg hqc]
    by_cases hqn : q = h.next
    · subst hqn
      simp [load, eff.new_region, eff.page_new, hright]
    · by_cases hqt : q = h.next + 1
      · subst hqt
        have hcap := c.five_le_inner
        have hnew : load c weight h' G' (h.next + 1) = 0 := by
          unfold load
          split
          · rename_i s hs
            rw [(eff.top_level s hs).2]
            have : (Inner.ofPair sep cur h.next).isFull c = false := by
              simp only [Inner.isFull, Inner.count, Inner.ofPair, List.length_cons,
                List.length_nil, beq_eq_false_iff_ne]
              omega
            simp [Page.isFull, this]
          · rfl
        omega
      · have hregion := eff.same_region q hqc hqn hqt
        by_cases hqp : q = parent
        · subst hqp
          rw [if_pos rfl]
          rcases hparent with ⟨rfl, _⟩ | ⟨s, n, i, hs, hlevel, _, _⟩
          · simp [load, hregion, inv.entry_free]
          · rw [if_neg (inv.ne_entry hs)]
            have hle : load c weight h' G' q ≤ weight (r.level + 1) := by
              simp only [load, hregion, hs, hlevel]
              split <;> omega
            omega
        · rw [if_neg hqp]
          simp [load, hregion, eff.same_page q hqc hqp hqn hqt]

omit [Inhabited K] in
/-- The potential through a split. -/
theorem SplitEffect.potential_le {parent cur : PID} {r : Region K} {sep : K}
    {left right : Page K V} {h' : Heap K V} {G' : Layout K} {root' : PID} {height' : Nat}
    (eff : SplitEffect h h' G G' parent cur r sep left right)
    (inv : TreeInv c entry h G root height) (inv' : TreeInv c entry h' G' root' height')
    (hG : G cur = some r) (hparent : IsParent h G entry root parent cur r)
    (hfull : (h.page cur).isFull c = true) (hleft : left.isFull c = false)
    (hright : right.isFull c = false) (weight : Nat → Nat) :
    potential c weight h' G' + weight r.level ≤
      potential c weight h G + (if parent = entry then 0 else weight (r.level + 1)) := by
  have hcur : cur < h'.next := (inv.lt_next cur r hG).trans eff.next_lt
  have hpar : parent < h'.next := by
    rcases hparent with ⟨rfl, _⟩ | ⟨s, n, i, hs, _⟩
    · exact inv.entry_lt.trans eff.next_lt
    · exact (inv.lt_next parent s hs).trans eff.next_lt
  have hsum := Finset.sum_le_sum fun q (_ : q ∈ Finset.range h'.next) =>
    eff.load_le inv hG hparent hfull hleft hright weight q
  rw [Finset.sum_add_distrib, Finset.sum_add_distrib, Finset.sum_ite_eq_of_mem' _ _ _
    (Finset.mem_range.mpr hcur),
    Finset.sum_ite_eq_of_mem' _ _ _ (Finset.mem_range.mpr hpar)] at hsum
  rw [inv'.potential_eq weight le_rfl, inv.potential_eq weight (le_of_lt eff.next_lt)]
  exact hsum

/-- Bindings after one more binding of `k`. -/
def BindsUpdate (h h' : Heap K V) (G G' : Layout K) (k : K) (v : V) : Prop :=
  ∀ j w, Binds h' G' j w ↔ (j = k ∧ w = v) ∨ (j ≠ k ∧ Binds h G j w)

/-- Binding a key in the leaf whose region holds it. -/
theorem TreeInv.insert_leaf (inv : TreeInv c entry h G root height) {pid : PID} {r : Region K}
    {l : Leaf K V} (hG : G pid = some r) (hl : h.page pid = .leaf l) {k : K} (hk : r.Holds k)
    (v : V)
    (hroom : (l.insert k v).count ≤ c.leaf) :
    TreeInv c entry (h.set pid (.leaf (l.insert k v))) G root height ∧
      BindsUpdate h (h.set pid (.leaf (l.insert k v))) G G k v := by
  have hok := inv.leafOK hG hl
  obtain ⟨hsorted, hmem, hlower, hupper, _⟩ := Leaf.insert_spec hok.sorted k v
  have hok' : LeafOK c (l.insert k v) r := by
    refine ⟨hsorted, hlower.trans hok.lower_eq, hupper.trans hok.upper_eq, ?_, hroom⟩
    intro e he
    rcases (hmem e).mp he with rfl | ⟨he, _⟩
    · exact hk
    · exact hok.mem_region e he
  refine ⟨inv.set_leaf hG (inv.level_of_leaf hG hl) hok', ?_⟩
  intro j w
  rw [inv.binds_set_leaf hG hl, hmem]
  by_cases hjk : j = k
  · subst hjk
    simp only [Prod.mk.injEq, true_and, ne_eq, not_true_eq_false, and_false, false_and, or_false]
    constructor
    · rintro (hw | ⟨hb, hnot⟩)
      · exact hw
      · exact absurd ((inv.binds_iff_mem hG hl hk w).mp hb) (hnot hk)
    · exact Or.inl
  · simp only [Prod.mk.injEq, hjk, false_and, false_or, ne_eq, not_false_eq_true, and_true,
      true_and]
    constructor
    · rintro (hw | ⟨hb, _⟩)
      · exact ⟨pid, r, l, hG, inv.level_of_leaf hG hl, hl, hw⟩
      · exact hb
    · intro hb
      by_cases hmem' : (j, w) ∈ l.entries
      · exact Or.inl hmem'
      · exact Or.inr ⟨hb, fun _ => hmem'⟩

/-- `insert` ends, with the key bound and everything else as it was. -/
theorem TreeInv.insert_of_potential (k : K) (v : V) (bound n : Nat) {h : Heap K V} {G : Layout K}
    {root : PID} {height : Nat} (inv : TreeInv c entry h G root height)
    (hheight : height + potential c (fun _ => 1) h G ≤ bound)
    (hn : potential c (fun level => bound + 1 - level) h G ≤ n) :
    ∃ h' G' root' height', (∀ fuel, n < fuel → BTree.insert c entry k v fuel h = .ok h') ∧
      TreeInv c entry h' G' root' height' ∧ BindsUpdate h h' G G' k v := by
  induction n using Nat.strong_induction_on generalizing h G root height with
  | _ n ih =>
    obtain ⟨res, hrun, hres⟩ := inv.insertPass k v
    cases hres with
    | inserted pid r l hG hl hroom hk =>
        have hcount := (Leaf.insert_spec (inv.leafOK hG hl).sorted k v).2.2.2.2
        obtain ⟨hinv, hupd⟩ := inv.insert_leaf hG hl hk v (by omega)
        refine ⟨_, G, root, height, ?_, hinv, hupd⟩
        intro fuel hfuel
        obtain ⟨fuel, rfl⟩ : ∃ f, fuel = f + 1 := ⟨fuel - 1, by omega⟩
        simp [BTree.insert, hrun]
    | split parent cur r sep left right h₁ G₁ root₁ height₁ hG hparent hfull hinv hgrown heff =>
        have hpage : (h.page cur).isFull c = true ∧ left.isFull c = false ∧
            right.isFull c = false := by
          rcases hfull with ⟨l, hl, hlf, rfl, rfl⟩ | ⟨m, hm, hmf, rfl, rfl⟩
          · exact ⟨by simpa [Page.isFull, hl] using hlf, Leaf.halves_not_full hlf⟩
          · exact ⟨by simpa [Page.isFull, hm] using hmf, Inner.halves_not_full hmf⟩
        have hone := heff.potential_le inv hinv hG hparent hpage.1 hpage.2.1 hpage.2.2 (fun _ => 1)
        have hpot := heff.potential_le inv hinv hG hparent hpage.1 hpage.2.1 hpage.2.2
          (fun level => bound + 1 - level)
        have hlevel := inv.level_le cur r hG
        have hheight₁ : height₁ + potential c (fun _ => 1) h₁ G₁ ≤ bound := by
          rcases hgrown with ⟨hne, _, rfl⟩ | ⟨heq, rfl⟩
          · rw [if_neg hne] at hone
            omega
          · rw [if_pos heq] at hone
            omega
        have hpot₁ : potential c (fun level => bound + 1 - level) h₁ G₁ < n := by
          split at hpot <;> omega
        have hbinds : ∀ j w, Binds h₁ G₁ j w ↔ Binds h G j w := by
          refine heff.binds_iff inv hG hparent fun e => ?_
          rcases hfull with ⟨l, hl, _, rfl, rfl⟩ | ⟨m, hm, _, rfl, rfl⟩
          · exact splitLeaf_entries hl e
          · simp [hm]
        obtain ⟨h', G', root', height', hins, hinv', hupd⟩ := ih _ hpot₁ hinv hheight₁ le_rfl
        refine ⟨h', G', root', height', ?_, hinv', ?_⟩
        · intro fuel hfuel
          obtain ⟨fuel, rfl⟩ : ∃ f, fuel = f + 1 := ⟨fuel - 1, by omega⟩
          simp only [BTree.insert, hrun]
          exact hins fuel (by omega)
        · intro j w
          rw [hupd j w, hbinds j w]

theorem TreeInv.insert (inv : TreeInv c entry h G root height) (k : K) (v : V) :
    ∃ h' G' root' height' bound, (∀ fuel, bound ≤ fuel → BTree.insert c entry k v fuel h = .ok h') ∧
      TreeInv c entry h' G' root' height' ∧ BindsUpdate h h' G G' k v := by
  obtain ⟨h', G', root', height', hrun, hinv, hupd⟩ :=
    inv.insert_of_potential k v _ _ le_rfl le_rfl
  exact ⟨h', G', root', height', _, fun fuel hfuel => hrun fuel hfuel, hinv, hupd⟩

end Sound

end ScaleStore.BTree
