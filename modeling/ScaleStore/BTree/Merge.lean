/-
# Merging a leaf with its right sibling

The merge in `remove` reshapes the tree at three pages: the leaf takes over the
sibling's entries and upper fence, the parent loses the separator between them,
and the sibling leaves the tree.  The bindings stay what they were.  The module
ends with the same statement about bindings for splits.
-/

import ScaleStore.BTree.Reshape

namespace ScaleStore.BTree

universe u v

variable {K : Type u} {V : Type v} [LinearOrder K]
variable {c : Capacity} {entry root : PID} {h : Heap K V} {G : Layout K} {height : Nat}

/-- The layout after `right` was merged into `cur`. -/
def mergeLayout (G : Layout K) (cur right : PID) (r s : Region K) : Layout K := fun q =>
  if q = cur then some ⟨0, r.lower, s.upper⟩ else if q = right then none else G q

/-- Two neighbouring leaves below one parent. -/
structure Siblings (h : Heap K V) (G : Layout K) (parent cur right : PID) (n : Inner K)
    (pos : Nat) (l m : Leaf K V) (p r s : Region K) : Prop where
  parent_region : G parent = some p
  parent_page : h.page parent = .inner n
  cur_region : G cur = some r
  cur_page : h.page cur = .leaf l
  right_region : G right = some s
  right_page : h.page right = .leaf m
  cur_slot : n.Slot p.lower p.upper pos cur r.lower r.upper
  right_slot : n.Slot p.lower p.upper (pos + 1) right s.lower s.upper

namespace Siblings

variable {parent cur right : PID} {n : Inner K} {pos : Nat} {l m : Leaf K V} {p r s : Region K}

/-- The leaf ends where its sibling starts. -/
theorem shared_fence (sib : Siblings h G parent cur right n pos l m p r s)
    (inv : TreeInv c entry h G root height) : ∃ x, r.upper = some x ∧ s.lower = some x := by
  obtain ⟨lv, _, hok⟩ := inv.innerOK sib.parent_region sib.parent_page
  have hpos : pos < n.keys.length := by
    have := hok.slot_le sib.right_slot
    omega
  have hx := List.getElem?_eq_getElem hpos
  refine ⟨n.keys[pos], ?_, ?_⟩
  · rw [← sib.cur_slot.upper_eq, Inner.slotUpper, if_pos hpos]
    exact hx
  · rw [← sib.right_slot.lower_eq, Inner.slotLower, if_neg (by omega)]
    exact hx

theorem level_cur (sib : Siblings h G parent cur right n pos l m p r s)
    (inv : TreeInv c entry h G root height) : r.level = 0 :=
  inv.level_of_leaf sib.cur_region sib.cur_page

theorem level_right (sib : Siblings h G parent cur right n pos l m p r s)
    (inv : TreeInv c entry h G root height) : s.level = 0 :=
  inv.level_of_leaf sib.right_region sib.right_page

theorem level_parent (sib : Siblings h G parent cur right n pos l m p r s)
    (inv : TreeInv c entry h G root height) : p.level = 1 := by
  have hp := inv.page_ok parent p sib.parent_region
  rw [sib.parent_page] at hp
  obtain ⟨t, ht, hlevel⟩ := hp.child sib.cur_slot
  rw [sib.cur_region] at ht
  obtain rfl := Option.some.inj ht
  have := sib.level_cur inv
  omega

theorem ne (sib : Siblings h G parent cur right n pos l m p r s)
    (inv : TreeInv c entry h G root height) : cur ≠ right ∧ parent ≠ cur ∧ parent ≠ right := by
  have hp := sib.level_parent inv
  refine ⟨?_, ?_, ?_⟩
  · rintro rfl
    obtain ⟨lv, _, hok⟩ := inv.innerOK sib.parent_region sib.parent_page
    have hreg := sib.cur_region.symm.trans sib.right_region
    obtain rfl := Option.some.inj hreg
    have := hok.shape.slotUpper_inj (hok.slot_le sib.cur_slot) (hok.slot_le sib.right_slot)
      (sib.cur_slot.upper_eq.trans sib.right_slot.upper_eq.symm)
    omega
  · rintro rfl
    have hreg := sib.parent_region.symm.trans sib.cur_region
    obtain rfl := Option.some.inj hreg
    have := sib.level_cur inv
    omega
  · rintro rfl
    have hreg := sib.parent_region.symm.trans sib.right_region
    obtain rfl := Option.some.inj hreg
    have := sib.level_right inv
    omega

/-- The keys of the merged region are those of the two. -/
theorem holds_iff (sib : Siblings h G parent cur right n pos l m p r s)
    (inv : TreeInv c entry h G root height) (k : K) :
    (⟨0, r.lower, s.upper⟩ : Region K).Holds k ↔ r.Holds k ∨ s.Holds k := by
  obtain ⟨x, hrx, hsx⟩ := sib.shared_fence inv
  obtain ⟨lv, _, hok⟩ := inv.innerOK sib.parent_region sib.parent_page
  -- the shared fence lies strictly inside both regions
  have hlow : ∀ a ∈ r.lower, a < x := by
    intro a ha
    have := hok.shape.slot_fenceLt (hok.slot_le sib.cur_slot)
    rw [sib.cur_slot.lower_eq, sib.cur_slot.upper_eq] at this
    exact this a ha x hrx
  have hup : ∀ b ∈ s.upper, x < b := by
    intro b hb
    have := hok.shape.slot_fenceLt (hok.slot_le sib.right_slot)
    rw [sib.right_slot.lower_eq, sib.right_slot.upper_eq] at this
    exact this x hsx b hb
  constructor
  · intro hk
    rcases le_or_gt k x with hle | hgt
    · refine Or.inl ⟨hk.1, fun b hb => ?_⟩
      obtain rfl : x = b := Option.some.inj (hrx.symm.trans hb)
      exact hle
    · refine Or.inr ⟨fun a ha => ?_, hk.2⟩
      obtain rfl : x = a := Option.some.inj (hsx.symm.trans ha)
      exact hgt
  · rintro (hk | hk)
    · exact ⟨hk.1, fun b hb => (hk.2 x hrx).trans (le_of_lt (hup b hb))⟩
    · exact ⟨fun a ha => (hlow a ha).trans (hk.1 x hsx), hk.2⟩

/-- The merged leaf is in order in the merged region. -/
theorem mergeRight_ok (sib : Siblings h G parent cur right n pos l m p r s)
    (inv : TreeInv c entry h G root height) (hfit : l.count + m.count ≤ c.leaf) :
    LeafOK c (l.mergeRight m) ⟨0, r.lower, s.upper⟩ := by
  have hl := inv.leafOK sib.cur_region sib.cur_page
  have hm := inv.leafOK sib.right_region sib.right_page
  obtain ⟨x, hrx, hsx⟩ := sib.shared_fence inv
  refine ⟨?_, hl.lower_eq, hm.upper_eq, ?_, ?_⟩
  · rw [Leaf.Sorted, Leaf.mergeRight]
    refine List.pairwise_append.mpr ⟨hl.sorted, hm.sorted, ?_⟩
    intro a ha b hb
    exact lt_of_le_of_lt ((hl.mem_region a ha).2 x hrx) ((hm.mem_region b hb).1 x hsx)
  · intro e he
    rw [sib.holds_iff inv]
    rcases List.mem_append.mp he with he | he
    · exact Or.inl (hl.mem_region e he)
    · exact Or.inr (hm.mem_region e he)
  · simpa [Leaf.count, Leaf.mergeRight] using hfit

omit [LinearOrder K] in
theorem mergeLayout_from {q : PID} {t : Region K}
    (hq : mergeLayout G cur right r s q = some t) :
    (q = cur ∧ t = ⟨0, r.lower, s.upper⟩) ∨ (q ≠ cur ∧ q ≠ right ∧ G q = some t) := by
  unfold mergeLayout at hq
  split at hq
  · rename_i heq
    exact Or.inl ⟨heq, (Option.some.inj hq).symm⟩
  · split at hq
    · cases hq
    · exact Or.inr ⟨‹_›, ‹_›, hq⟩

/-- A page other than the parent keeps its order through the merge. -/
theorem pageOK_mergeLayout (sib : Siblings h G parent cur right n pos l m p r s)
    (inv : TreeInv c entry h G root height) {q : PID} {t : Region K} (hqp : q ≠ parent)
    (hq : G q = some t) : PageOK c (mergeLayout G cur right r s) (h.page q) t := by
  refine (inv.page_ok q t hq).congr fun x i child a b hx hslot => ?_
  have hcur : child ≠ cur := by
    rintro rfl
    exact hqp (inv.parent_unique hq sib.parent_region hx sib.parent_page hslot sib.cur_slot)
  have hright : child ≠ right := by
    rintro rfl
    exact hqp (inv.parent_unique hq sib.parent_region hx sib.parent_page hslot sib.right_slot)
  rw [mergeLayout, if_neg hcur, if_neg hright]

end Siblings

section Merge

variable {parent cur right : PID} {n : Inner K} {pos : Nat} {l m : Leaf K V} {p r s : Region K}

/-- The parent is in order without the separator. -/
theorem TreeInv.merge_parent (inv : TreeInv c entry h G root height)
    (sib : Siblings h G parent cur right n pos l m p r s) (htwo : 2 ≤ n.count) :
    PageOK c (mergeLayout G cur right r s) (.inner (n.remove pos) : Page K V) p := by
  obtain ⟨lv, hlv, hok⟩ := inv.innerOK sib.parent_region sib.parent_page
  have hpos : pos < n.keys.length := by
    have := hok.slot_le sib.right_slot
    omega
  have hzero : lv = 0 := by
    have := sib.level_parent inv
    omega
  obtain ⟨hshape, hcount⟩ := Inner.remove_shape hok.shape hpos htwo
  refine .of_inner hlv ⟨hshape, ?_, ?_⟩
  · have := hok.count_le
    omega
  · intro i child a b hslot
    rcases Inner.remove_slot hok.shape hpos hslot with ⟨j, hj, hj', hold⟩ | ⟨hold, rfl⟩
    · have hchild := hok.child_region _ _ _ _ hold
      have hupper : ∀ {i' : Nat} {child' : PID} {a' b' : FenceKey K},
          n.Slot p.lower p.upper i' child' a' b' → child = child' → j = i' := by
        intro i' child' a' b' hslot' heq
        have hc := hok.child_region _ _ _ _ hslot'
        rw [← heq, hchild] at hc
        have hb : b = b' := by simpa using congrArg Region.upper (Option.some.inj hc)
        refine hok.shape.slotUpper_inj (hok.slot_le hold) (hok.slot_le hslot') ?_
        rw [hold.upper_eq, hslot'.upper_eq, hb]
      have hcur : child ≠ cur := fun heq => hj (hupper sib.cur_slot heq)
      have hright : child ≠ right := fun heq => hj' (hupper sib.right_slot heq)
      rw [mergeLayout, if_neg hcur, if_neg hright]
      exact hchild
    · have hc : child = cur := Option.some.inj (hold.child_eq.symm.trans sib.cur_slot.child_eq)
      have ha : a = r.lower := hold.lower_eq.symm.trans sib.cur_slot.lower_eq
      rw [hc, ha, sib.right_slot.upper_eq, mergeLayout, if_pos rfl, hzero]

/-- The merge of `remove` keeps the invariant. -/
theorem TreeInv.mergeInto (inv : TreeInv c entry h G root height)
    (sib : Siblings h G parent cur right n pos l m p r s) (htwo : 2 ≤ n.count)
    (hfit : l.count + m.count ≤ c.leaf) :
    TreeInv c entry (BTree.mergeInto h parent cur right n pos l m)
      (mergeLayout G cur right r s) root height := by
  obtain ⟨hcr, hpc, hpr⟩ := sib.ne inv
  have hpe := inv.ne_entry sib.parent_region
  have hce := inv.ne_entry sib.cur_region
  have hre := inv.ne_entry sib.right_region
  have hpage : ∀ q, q ≠ cur → q ≠ right → q ≠ parent →
      (BTree.mergeInto h parent cur right n pos l m).page q = h.page q := by
    intro q hq hqr hqp
    simp [BTree.mergeInto, hq, hqr, hqp]
  have hparent_page : (BTree.mergeInto h parent cur right n pos l m).page parent =
      .inner (n.remove pos) := by
    simp [BTree.mergeInto, hpr]
  have hcur_page : (BTree.mergeInto h parent cur right n pos l m).page cur =
      .leaf (l.mergeRight m) := by
    simp [BTree.mergeInto, hcr, Ne.symm hpc]
  have hroot : root ≠ cur ∧ root ≠ right := by
    have hh := inv.level_le _ _ sib.parent_region
    have hl := sib.level_parent inv
    constructor
    · rintro rfl
      have := inv.root_region.symm.trans sib.cur_region
      have := congrArg Region.level (Option.some.inj this)
      have := sib.level_cur inv
      simp_all
    · rintro rfl
      have := inv.root_region.symm.trans sib.right_region
      have := congrArg Region.level (Option.some.inj this)
      have := sib.level_right inv
      simp_all
  refine ⟨?_, ?_, ?_, ?_, ?_, ?_, ?_, ?_, inv.entry_lt⟩
  · rw [hpage entry (Ne.symm hce) (Ne.symm hre) (Ne.symm hpe)]
    exact inv.entry_page
  · rw [mergeLayout, if_neg hroot.1, if_neg hroot.2]
    exact inv.root_region
  · rw [mergeLayout, if_neg (Ne.symm hce), if_neg (Ne.symm hre)]
    exact inv.entry_free
  · intro q t hq
    rcases Siblings.mergeLayout_from hq with ⟨rfl, rfl⟩ | ⟨hqc, hqr, hold⟩
    · rw [hcur_page]
      exact .of_leaf rfl (sib.mergeRight_ok inv hfit)
    · by_cases hqp : q = parent
      · subst hqp
        rw [sib.parent_region] at hold
        obtain rfl := Option.some.inj hold
        rw [hparent_page]
        exact inv.merge_parent sib htwo
      · rw [hpage q hqc hqr hqp]
        exact sib.pageOK_mergeLayout inv hqp hold
  · intro q t hq
    rcases Siblings.mergeLayout_from hq with ⟨rfl, rfl⟩ | ⟨_, _, hold⟩
    · obtain ⟨k, hk⟩ := inv.inhabited _ _ sib.cur_region
      exact ⟨k, (sib.holds_iff inv k).mpr (Or.inl hk)⟩
    · exact inv.inhabited q t hold
  · intro q t hq
    rcases Siblings.mergeLayout_from hq with ⟨rfl, rfl⟩ | ⟨_, _, hold⟩
    · exact Nat.zero_le _
    · exact inv.level_le q t hold
  · -- a key of the merged region belonged to one of the two leaves
    have hclash : ∀ {q : PID} {t : Region K} {k : K}, q ≠ cur → q ≠ right → G q = some t →
        t.level = 0 → t.Holds k → ¬ (⟨0, r.lower, s.upper⟩ : Region K).Holds k := by
      intro q t k hqc hqr hq ht hk hmerged
      rcases (sib.holds_iff inv k).mp hmerged with hr | hs
      · exact hqc (inv.unique q cur t r k hq sib.cur_region
          (ht.trans (sib.level_cur inv).symm) hk hr)
      · exact hqr (inv.unique q right t s k hq sib.right_region
          (ht.trans (sib.level_right inv).symm) hk hs)
    intro q q' t t' k hq hq' hl hk hk'
    rcases Siblings.mergeLayout_from hq with ⟨rfl, rfl⟩ | ⟨hqc, hqr, hold⟩ <;>
      rcases Siblings.mergeLayout_from hq' with ⟨rfl, rfl⟩ | ⟨hqc', hqr', hold'⟩
    · rfl
    · exact absurd hk (hclash hqc' hqr' hold' hl.symm hk')
    · exact absurd hk' (hclash hqc hqr hold hl hk)
    · exact inv.unique q q' t t' k hold hold' hl hk hk'
  · intro q t hq
    rcases Siblings.mergeLayout_from hq with ⟨rfl, _⟩ | ⟨_, _, hold⟩
    · exact inv.lt_next _ _ sib.cur_region
    · exact inv.lt_next q t hold

/-- The merge moves entries, it binds and unbinds nothing. -/
theorem TreeInv.binds_mergeInto (inv : TreeInv c entry h G root height)
    (sib : Siblings h G parent cur right n pos l m p r s) (k : K) (v : V) :
    Binds (BTree.mergeInto h parent cur right n pos l m) (mergeLayout G cur right r s) k v ↔
      Binds h G k v := by
  obtain ⟨hcr, hpc, hpr⟩ := sib.ne inv
  have hpl := sib.level_parent inv
  constructor
  · rintro ⟨q, t, x, hq, ht, hx, hmem⟩
    rcases Siblings.mergeLayout_from hq with ⟨rfl, rfl⟩ | ⟨hqc, hqr, hold⟩
    · have hpage : (BTree.mergeInto h parent q right n pos l m).page q =
          .leaf (l.mergeRight m) := by
        simp [BTree.mergeInto, hcr, Ne.symm hpc]
      rw [hpage] at hx
      cases hx
      rcases List.mem_append.mp hmem with hmem | hmem
      · exact ⟨q, r, l, sib.cur_region, sib.level_cur inv, sib.cur_page, hmem⟩
      · exact ⟨right, s, m, sib.right_region, sib.level_right inv, sib.right_page, hmem⟩
    · have hqp : q ≠ parent := by
        rintro rfl
        rw [sib.parent_region] at hold
        obtain rfl := Option.some.inj hold
        omega
      have hpage : (BTree.mergeInto h parent cur right n pos l m).page q = h.page q := by
        simp [BTree.mergeInto, hqc, hqr, hqp]
      exact ⟨q, t, x, hold, ht, hpage ▸ hx, hmem⟩
  · rintro ⟨q, t, x, hq, ht, hx, hmem⟩
    have hmerged : ∀ e, e ∈ l.entries ∨ e ∈ m.entries →
        ∃ pid r' y, mergeLayout G cur right r s pid = some r' ∧ r'.level = 0 ∧
          (BTree.mergeInto h parent cur right n pos l m).page pid = .leaf y ∧ e ∈ y.entries := by
      intro e he
      refine ⟨cur, ⟨0, r.lower, s.upper⟩, l.mergeRight m, by simp [mergeLayout], rfl, ?_,
        List.mem_append.mpr he⟩
      simp [BTree.mergeInto, hcr, Ne.symm hpc]
    by_cases hqc : q = cur
    · subst hqc
      rw [sib.cur_page] at hx
      cases hx
      exact hmerged _ (Or.inl hmem)
    · by_cases hqr : q = right
      · subst hqr
        rw [sib.right_page] at hx
        cases hx
        exact hmerged _ (Or.inr hmem)
      · have hqp : q ≠ parent := by
          rintro rfl
          rw [sib.parent_region] at hq
          obtain rfl := Option.some.inj hq
          omega
        refine ⟨q, t, x, by rw [mergeLayout, if_neg hqc, if_neg hqr]; exact hq, ht, ?_, hmem⟩
        simpa [BTree.mergeInto, hqc, hqr, hqp] using hx

end Merge

/-! ## Splits and bindings -/

section Split

variable {cur parent : PID} {r : Region K} {sep : K} {left right : Page K V} {h' : Heap K V}
  {G' : Layout K}

/-- A split whose halves have the entries of the page keeps all bindings. -/
theorem SplitEffect.binds_iff (eff : SplitEffect h h' G G' parent cur r sep left right)
    (inv : TreeInv c entry h G root height) (hG : G cur = some r)
    (hparent : IsParent h G entry root parent cur r)
    (hentries : ∀ e, (∃ x, h.page cur = .leaf x ∧ e ∈ x.entries) ↔
      (∃ x, left = .leaf x ∧ e ∈ x.entries) ∨ ∃ x, right = .leaf x ∧ e ∈ x.entries)
    (k : K) (v : V) :
    Binds h' G' k v ↔ Binds h G k v := by
  have hcur_lt := inv.lt_next cur r hG
  have hplevel : ∀ t, G parent = some t → t.level ≠ 0 := by
    intro t ht
    rcases hparent with ⟨rfl, _⟩ | ⟨s, n, i, hs, hlevel, _, _⟩
    · rw [inv.entry_free] at ht
      cases ht
    · rw [hs] at ht
      obtain rfl := Option.some.inj ht
      omega
  have hp_lt : parent < h.next := by
    rcases hparent with ⟨rfl, _⟩ | ⟨s, n, i, hs, hlevel, _, _⟩
    · exact inv.entry_lt
    · exact inv.lt_next parent s hs
  constructor
  · rintro ⟨q, t, x, hq, ht, hx, hmem⟩
    by_cases hqc : q = cur
    · subst hqc
      rw [eff.cur_region] at hq
      obtain rfl := Option.some.inj hq
      obtain ⟨y, hy, hymem⟩ := (hentries (k, v)).mpr (Or.inl ⟨x, eff.page_cur ▸ hx, hmem⟩)
      exact ⟨q, r, y, hG, ht, hy, hymem⟩
    · by_cases hqn : q = h.next
      · subst hqn
        rw [eff.new_region] at hq
        obtain rfl := Option.some.inj hq
        obtain ⟨y, hy, hymem⟩ := (hentries (k, v)).mpr (Or.inr ⟨x, eff.page_new ▸ hx, hmem⟩)
        exact ⟨cur, r, y, hG, ht, hy, hymem⟩
      · by_cases hqt : q = h.next + 1
        · subst hqt
          have := (eff.top_level t hq).1
          omega
        · rw [eff.same_region q hqc hqn hqt] at hq
          have hqp : q ≠ parent := by
            rintro rfl
            exact hplevel t hq ht
          rw [eff.same_page q hqc hqp hqn hqt] at hx
          exact ⟨q, t, x, hq, ht, hx, hmem⟩
  · rintro ⟨q, t, x, hq, ht, hx, hmem⟩
    by_cases hqc : q = cur
    · subst hqc
      rw [hG] at hq
      obtain rfl := Option.some.inj hq
      rcases (hentries (k, v)).mp ⟨x, hx, hmem⟩ with ⟨y, hy, hymem⟩ | ⟨y, hy, hymem⟩
      · exact ⟨q, _, y, eff.cur_region, ht, eff.page_cur.trans hy, hymem⟩
      · exact ⟨h.next, _, y, eff.new_region, ht, eff.page_new.trans hy, hymem⟩
    · have hq_lt := inv.lt_next q t hq
      have hqn : q ≠ h.next := Nat.ne_of_lt hq_lt
      have hqt : q ≠ h.next + 1 := Nat.ne_of_lt (Nat.lt_succ_of_lt hq_lt)
      have hqp : q ≠ parent := by
        rintro rfl
        exact hplevel t hq ht
      refine ⟨q, t, x, ?_, ht, ?_, hmem⟩
      · rw [eff.same_region q hqc hqn hqt]
        exact hq
      · rw [eff.same_page q hqc hqp hqn hqt]
        exact hx

variable [Inhabited K]

omit [LinearOrder K] in
/-- The halves of a leaf have its entries. -/
theorem splitLeaf_entries {l : Leaf K V} (hl : h.page cur = .leaf l) (e : K × V) :
    (∃ x, h.page cur = .leaf x ∧ e ∈ x.entries) ↔
      (∃ x, (.leaf l.splitLeft : Page K V) = .leaf x ∧ e ∈ x.entries) ∨
        ∃ x, (.leaf l.splitRight : Page K V) = .leaf x ∧ e ∈ x.entries := by
  have happ : l.splitLeft.entries ++ l.splitRight.entries = l.entries := by
    simp [Leaf.splitLeft, Leaf.splitRight]
  simp [hl, ← happ]

end Split

end ScaleStore.BTree
