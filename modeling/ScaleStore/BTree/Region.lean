/-
# The structural invariant, region by region

A *layout* says which pages belong to the tree and gives each of them its level
and the key range it is responsible for.  The invariant is local: a leaf keeps
its keys in its own range and carries that range as fence keys, an inner node
gives each child the range between the separators around it, and two pages of
one level never share a key.  That the tree hangs together (every key of every
level is reached from the root) follows from it by descent.

Splits and merges change the layout at two or three pages, so each comes with a
statement of exactly which pages and which regions are new.
-/

import ScaleStore.BTree.Tree

namespace ScaleStore.BTree

universe u v

/-- Level (leaves are at 0) and key range `(lower, upper]` of a page. -/
structure Region (K : Type u) where
  level : Nat
  lower : FenceKey K
  upper : FenceKey K

/-- The pages of the tree with their regions. -/
abbrev Layout (K : Type u) := PID → Option (Region K)

variable {K : Type u} {V : Type v} [LinearOrder K]

def Region.Holds (r : Region K) (k : K) : Prop := InRange r.lower r.upper k

/-- A leaf that is in order inside its region. -/
structure LeafOK (c : Capacity) (l : Leaf K V) (r : Region K) : Prop where
  sorted : l.Sorted
  lower_eq : l.lower = r.lower
  upper_eq : l.upper = r.upper
  mem_region : ∀ e ∈ l.entries, r.Holds e.1
  count_le : l.count ≤ c.leaf

/-- An inner node whose children have the regions its separators give them. -/
structure InnerOK (c : Capacity) (G : Layout K) (n : Inner K) (r : Region K) (level : Nat) :
    Prop where
  shape : n.Shape r.lower r.upper
  count_le : n.count ≤ c.inner - 1
  child_region : ∀ i child a b, n.Slot r.lower r.upper i child a b →
    G child = some ⟨level, a, b⟩

/-- The page of a region is a leaf at level 0 and an inner node above. -/
def PageOK (c : Capacity) (G : Layout K) (p : Page K V) (r : Region K) : Prop :=
  match r.level, p with
  | 0, .leaf l => LeafOK c l r
  | level + 1, .inner n => InnerOK c G n r level
  | _, _ => False

structure TreeInv (c : Capacity) (entry : PID) (h : Heap K V) (G : Layout K) (root : PID)
    (height : Nat) : Prop where
  entry_page : h.page entry = .entry root height
  root_region : G root = some ⟨height, none, none⟩
  entry_free : G entry = none
  page_ok : ∀ pid r, G pid = some r → PageOK c G (h.page pid) r
  /-- No region is empty. -/
  inhabited : ∀ pid r, G pid = some r → ∃ k, r.Holds k
  level_le : ∀ pid r, G pid = some r → r.level ≤ height
  unique : ∀ p q r s k, G p = some r → G q = some s → r.level = s.level → r.Holds k →
    s.Holds k → p = q
  lt_next : ∀ pid r, G pid = some r → pid < h.next
  entry_lt : entry < h.next

/-- `k` is bound to `v` in some leaf of the tree. -/
def Binds (h : Heap K V) (G : Layout K) (k : K) (v : V) : Prop :=
  ∃ pid r l, G pid = some r ∧ r.level = 0 ∧ h.page pid = .leaf l ∧ (k, v) ∈ l.entries

/-- `parent` points to `cur`: it is the entry page and `cur` the root, or `cur`
sits in one of its slots. -/
def IsParent (h : Heap K V) (G : Layout K) (entry root parent cur : PID) (r : Region K) : Prop :=
  (parent = entry ∧ cur = root) ∨
    ∃ s n i, G parent = some s ∧ s.level = r.level + 1 ∧ h.page parent = .inner n ∧
      n.Slot s.lower s.upper i cur r.lower r.upper

section Basic

variable {c : Capacity} {entry root : PID} {h : Heap K V} {G : Layout K} {height : Nat}

theorem PageOK.leaf {p : Page K V} {r : Region K} (hp : PageOK c G p r) (hr : r.level = 0) :
    ∃ l, p = .leaf l ∧ LeafOK c l r := by
  unfold PageOK at hp
  cases p <;> simp_all

theorem PageOK.inner {p : Page K V} {r : Region K} (hp : PageOK c G p r) {level : Nat}
    (hr : r.level = level + 1) : ∃ n, p = .inner n ∧ InnerOK c G n r level := by
  unfold PageOK at hp
  cases p <;> simp_all

theorem PageOK.of_leaf {l : Leaf K V} {r : Region K} (hr : r.level = 0) (hl : LeafOK c l r) :
    PageOK c G (.leaf l) r := by
  simpa [PageOK, hr] using hl

theorem PageOK.of_inner {n : Inner K} {r : Region K} {level : Nat} (hr : r.level = level + 1)
    (hn : InnerOK c G n r level) : PageOK c G (.inner n : Page K V) r := by
  simpa [PageOK, hr] using hn

/-- A child of a page in order is a page of the level below, with the slot's range. -/
theorem PageOK.child {n : Inner K} {r : Region K} (hp : PageOK c G (.inner n : Page K V) r)
    {i : Nat}
    {child : PID} {a b : FenceKey K} (hslot : n.Slot r.lower r.upper i child a b) :
    ∃ t, G child = some t ∧ t.level + 1 = r.level := by
  rcases Nat.eq_zero_or_pos r.level with hr | hr
  · obtain ⟨l, hl, _⟩ := hp.leaf hr
    cases hl
  · obtain ⟨m, hm, hok⟩ := hp.inner (show r.level = (r.level - 1) + 1 by omega)
    cases hm
    exact ⟨_, hok.child_region i child a b hslot, by simp only; omega⟩

/-- A page stays in order when its children keep their regions. -/
theorem PageOK.congr {G' : Layout K} {p : Page K V} {r : Region K} (hp : PageOK c G p r)
    (hsame : ∀ n i child a b, p = .inner n → n.Slot r.lower r.upper i child a b →
      G' child = G child) : PageOK c G' p r := by
  rcases Nat.eq_zero_or_pos r.level with hr | hr
  · obtain ⟨l, rfl, hl⟩ := hp.leaf hr
    exact .of_leaf hr hl
  · obtain ⟨level, hlevel⟩ : ∃ level, r.level = level + 1 := ⟨r.level - 1, by omega⟩
    obtain ⟨n, rfl, hn⟩ := hp.inner hlevel
    refine .of_inner hlevel ⟨hn.shape, hn.count_le, fun i child a b hslot => ?_⟩
    rw [hsame n i child a b rfl hslot]
    exact hn.child_region i child a b hslot

theorem TreeInv.leaf_page (inv : TreeInv c entry h G root height) {pid : PID} {r : Region K}
    (hG : G pid = some r) (hr : r.level = 0) : ∃ l, h.page pid = .leaf l ∧ LeafOK c l r :=
  (inv.page_ok pid r hG).leaf hr

theorem TreeInv.inner_page (inv : TreeInv c entry h G root height) {pid : PID} {r : Region K}
    (hG : G pid = some r) {level : Nat} (hr : r.level = level + 1) :
    ∃ n, h.page pid = .inner n ∧ InnerOK c G n r level :=
  (inv.page_ok pid r hG).inner hr

theorem TreeInv.innerOK (inv : TreeInv c entry h G root height) {pid : PID} {r : Region K}
    (hG : G pid = some r) {n : Inner K} (hn : h.page pid = .inner n) :
    ∃ level, r.level = level + 1 ∧ InnerOK c G n r level := by
  have hp := inv.page_ok pid r hG
  rcases Nat.eq_zero_or_pos r.level with hr | hr
  · obtain ⟨l, hl, _⟩ := hp.leaf hr
    rw [hn] at hl
    cases hl
  · obtain ⟨m, hm, hok⟩ := hp.inner (show r.level = (r.level - 1) + 1 by omega)
    rw [hn] at hm
    cases hm
    exact ⟨_, by omega, hok⟩

theorem TreeInv.level_of_leaf (inv : TreeInv c entry h G root height) {pid : PID} {r : Region K}
    (hG : G pid = some r) {l : Leaf K V} (hl : h.page pid = .leaf l) : r.level = 0 := by
  by_contra hr
  obtain ⟨n, hn, _⟩ := inv.inner_page hG (show r.level = (r.level - 1) + 1 by omega)
  rw [hl] at hn
  cases hn

theorem TreeInv.leafOK (inv : TreeInv c entry h G root height) {pid : PID} {r : Region K}
    (hG : G pid = some r) {l : Leaf K V} (hl : h.page pid = .leaf l) : LeafOK c l r := by
  obtain ⟨l', hl', hok⟩ := inv.leaf_page hG (inv.level_of_leaf hG hl)
  rw [hl] at hl'
  cases hl'
  exact hok

theorem TreeInv.ne_entry (inv : TreeInv c entry h G root height) {pid : PID} {r : Region K}
    (hG : G pid = some r) : pid ≠ entry := by
  rintro rfl
  rw [inv.entry_free] at hG
  cases hG

/-- A slot is a page of the level below, with the slot's range. -/
theorem InnerOK.slot_le {n : Inner K} {r : Region K} {level : Nat} (hn : InnerOK c G n r level)
    {i : Nat} {child : PID} {a b : FenceKey K} (hslot : n.Slot r.lower r.upper i child a b) :
    i ≤ n.keys.length := by
  have := hslot.lt_length
  rw [hn.shape.length_children] at this
  omega

/-- A page of the tree hangs below at most one inner node. -/
theorem TreeInv.parent_unique (inv : TreeInv c entry h G root height) {p q cur : PID}
    {r s : Region K} (hp : G p = some r) (hq : G q = some s) {n m : Inner K}
    (hn : h.page p = .inner n) (hm : h.page q = .inner m) {i j : Nat} {a b a' b' : FenceKey K}
    (hslot : n.Slot r.lower r.upper i cur a b) (hslot' : m.Slot s.lower s.upper j cur a' b') :
    p = q := by
  obtain ⟨lv, hlv, hnok⟩ := inv.innerOK hp hn
  obtain ⟨lv', hlv', hmok⟩ := inv.innerOK hq hm
  have hc := hnok.child_region _ _ _ _ hslot
  have hc' := hmok.child_region _ _ _ _ hslot'
  rw [hc] at hc'
  obtain ⟨rfl, rfl, rfl⟩ : lv = lv' ∧ a = a' ∧ b = b' := by simpa using hc'
  obtain ⟨k, hk⟩ := inv.inhabited _ _ hc
  refine inv.unique p q r s k hp hq (by omega) ?_ ?_
  · refine hnok.shape.inRange_of_slot (hnok.slot_le hslot) ?_
    rw [hslot.lower_eq, hslot.upper_eq]
    exact hk
  · refine hmok.shape.inRange_of_slot (hmok.slot_le hslot') ?_
    rw [hslot'.lower_eq, hslot'.upper_eq]
    exact hk

end Basic

end ScaleStore.BTree
