/-
# The structural invariant, read from the root

`TreeInv` speaks about pages through a layout.  Here the same invariant is read
off the heap alone, by descending from the root: depth, order, separators,
fences and counts of every node.  It holds of every heap between two passes of
`insert` and after every `remove`, and no pass ever splits a page below a full
parent.
-/

import ScaleStore.BTree.Refinement

namespace ScaleStore.BTree

universe u v

variable {K : Type u} {V : Type v}

/-- The leaves `levels` below a page, from left to right. -/
def leavesBelow (h : Heap K V) : Nat → PID → List (Leaf K V)
  | 0, pid =>
      match h.page pid with
      | .leaf l => [l]
      | _ => []
  | levels + 1, pid =>
      match h.page pid with
      | .inner n => n.children.flatMap (leavesBelow h levels)
      | _ => []

/-- The fences of a row of leaves meet, starting at `lower` and ending at `upper`. -/
def Fenced (lower : FenceKey K) : List (Leaf K V) → FenceKey K → Prop
  | [], upper => lower = upper
  | l :: leaves, upper => l.lower = lower ∧ Fenced l.upper leaves upper

variable [LinearOrder K]

/-- The subtree below a page that covers `(lower, upper]`, with `levels` levels of
inner nodes above its leaves. -/
def Structured (c : Capacity) (h : Heap K V) : Nat → PID → FenceKey K → FenceKey K → Prop
  | 0, pid, lower, upper =>
      ∃ l, h.page pid = .leaf l ∧ l.keys.Pairwise (· < ·) ∧ l.count ≤ c.leaf ∧
        l.lower = lower ∧ l.upper = upper
  | levels + 1, pid, lower, upper =>
      ∃ n, h.page pid = .inner n ∧ n.keys.Pairwise (· < ·) ∧ 1 ≤ n.count ∧
        n.count ≤ c.inner - 1 ∧ n.children.length = n.count + 1 ∧
        ∀ i child, n.children[i]? = some child →
          (∀ l ∈ leavesBelow h levels child, ∀ k ∈ l.keys,
            InRange (n.slotLower lower i) (n.slotUpper upper i) k) ∧
          Structured c h levels child (n.slotLower lower i) (n.slotUpper upper i)

/-- The whole tree: every leaf at the depth the entry page states, and the fences
of neighbouring leaves meet. -/
def StructuredTree (c : Capacity) (entry : PID) (h : Heap K V) : Prop :=
  ∃ root height, h.page entry = .entry root height ∧ Structured c h height root none none ∧
    leavesBelow h height root ≠ [] ∧ Fenced none (leavesBelow h height root) none

section Rows

omit [LinearOrder K]

theorem Fenced.append {a b d : FenceKey K} {xs ys : List (Leaf K V)} (hxs : Fenced a xs b)
    (hys : Fenced b ys d) : Fenced a (xs ++ ys) d := by
  induction xs generalizing a with
  | nil =>
      obtain rfl : a = b := hxs
      exact hys
  | cons l xs ih => exact ⟨hxs.1, ih hxs.2⟩

/-- Rows of neighbouring slots join at the separator between them. -/
theorem Fenced.take_children {n : Inner K} {lower upper : FenceKey K}
    (hlength : n.children.length = n.keys.length + 1) {leaves : PID → List (Leaf K V)}
    (hrow : ∀ i child, n.children[i]? = some child →
      Fenced (n.slotLower lower i) (leaves child) (n.slotUpper upper i)) {i : Nat}
    (hi : i ≤ n.keys.length) :
    Fenced lower ((n.children.take i).flatMap leaves) (n.slotLower lower i) := by
  induction i with
  | zero => simp [Fenced, Inner.slotLower]
  | succ i ih =>
      have hlt : i < n.children.length := by omega
      have hchild := List.getElem?_eq_getElem hlt
      have hjoin : n.slotUpper upper i = n.slotLower lower (i + 1) := by
        simp [Inner.slotUpper, Inner.slotLower, show i < n.keys.length by omega]
      have hnext := hrow i _ hchild
      rw [hjoin] at hnext
      rw [List.take_add_one, hchild, List.flatMap_append]
      refine (ih (by omega)).append ?_
      simpa using hnext

theorem Fenced.children {n : Inner K} {lower upper : FenceKey K}
    (hlength : n.children.length = n.keys.length + 1) {leaves : PID → List (Leaf K V)}
    (hrow : ∀ i child, n.children[i]? = some child →
      Fenced (n.slotLower lower i) (leaves child) (n.slotUpper upper i)) :
    Fenced lower (n.children.flatMap leaves) upper := by
  have hlt : n.keys.length < n.children.length := by omega
  have hlast := hrow n.keys.length _ (List.getElem?_eq_getElem hlt)
  have hend : n.slotUpper upper n.keys.length = upper := by simp [Inner.slotUpper]
  have hsplit : n.children = n.children.take n.keys.length ++ [n.children[n.keys.length]] := by
    rw [List.take_append_getElem, List.take_of_length_le (by omega)]
  rw [hend] at hlast
  rw [hsplit, List.flatMap_append]
  refine (Fenced.take_children hlength hrow le_rfl).append ?_
  simpa using hlast

end Rows

section Invariant

variable {c : Capacity} {entry root : PID} {h : Heap K V} {G : Layout K} {height : Nat}

/-- What a page's region says about the leaves below it. -/
theorem TreeInv.leavesBelow (inv : TreeInv c entry h G root height) {levels : Nat} {pid : PID}
    {r : Region K} (hG : G pid = some r) (hlevel : r.level = levels) :
    BTree.leavesBelow h levels pid ≠ [] ∧ Fenced r.lower (BTree.leavesBelow h levels pid) r.upper ∧
      ∀ l ∈ BTree.leavesBelow h levels pid, ∀ k ∈ l.keys, r.Holds k := by
  induction levels generalizing pid r with
  | zero =>
      obtain ⟨l, hl, hok⟩ := inv.leaf_page hG hlevel
      simp only [BTree.leavesBelow, hl]
      refine ⟨by simp, ⟨hok.lower_eq, hok.upper_eq⟩, ?_⟩
      intro l' hl' k hk
      obtain rfl := List.mem_singleton.mp hl'
      obtain ⟨e, he, rfl⟩ := List.mem_map.mp hk
      exact hok.mem_region e he
  | succ levels ih =>
      obtain ⟨n, hn, hok⟩ := inv.inner_page hG hlevel
      have hslots : ∀ i child, n.children[i]? = some child →
          G child = some ⟨levels, n.slotLower r.lower i, n.slotUpper r.upper i⟩ :=
        fun i child hchild => hok.child_region i child _ _ ⟨hchild, rfl, rfl⟩
      simp only [BTree.leavesBelow, hn]
      refine ⟨?_, ?_, ?_⟩
      · obtain ⟨child, hchild⟩ := hok.shape.child_of_le (Nat.zero_le _)
        intro hnil
        exact (ih (hslots 0 child hchild) rfl).1
          (List.flatMap_eq_nil_iff.mp hnil child (List.mem_of_getElem? hchild))
      · apply Fenced.children hok.shape.length_children
        intro i child hchild
        exact (ih (hslots i child hchild) rfl).2.1
      · intro l hl k hk
        obtain ⟨child, hmem, hl⟩ := List.mem_flatMap.mp hl
        obtain ⟨i, hchild⟩ := List.mem_iff_getElem?.mp hmem
        have hi := hok.slot_le (⟨hchild, rfl, rfl⟩ : n.Slot r.lower r.upper i child _ _)
        exact hok.shape.inRange_of_slot hi ((ih (hslots i child hchild) rfl).2.2 l hl k hk)

/-- The layout invariant gives the structure of every subtree. -/
theorem TreeInv.structured (inv : TreeInv c entry h G root height) {levels : Nat} {pid : PID}
    {r : Region K} (hG : G pid = some r) (hlevel : r.level = levels) :
    Structured c h levels pid r.lower r.upper := by
  induction levels generalizing pid r with
  | zero =>
      obtain ⟨l, hl, hok⟩ := inv.leaf_page hG hlevel
      exact ⟨l, hl, hok.sorted.keys, hok.count_le, hok.lower_eq, hok.upper_eq⟩
  | succ levels ih =>
      obtain ⟨n, hn, hok⟩ := inv.inner_page hG hlevel
      refine ⟨n, hn, hok.shape.sorted, hok.shape.keys_pos, hok.count_le,
        hok.shape.length_children, ?_⟩
      intro i child hchild
      have hregion := hok.child_region i child _ _ ⟨hchild, rfl, rfl⟩
      exact ⟨(inv.leavesBelow hregion rfl).2.2, ih hregion rfl⟩

theorem TreeInv.structuredTree (inv : TreeInv c entry h G root height) :
    StructuredTree c entry h := by
  obtain ⟨hne, hfenced, _⟩ := inv.leavesBelow inv.root_region rfl
  exact ⟨root, height, inv.entry_page, inv.structured inv.root_region rfl, hne, hfenced⟩

end Invariant

/-! ## Updates on a fresh tree -/

variable [Inhabited K]

/-- The two calls that change the structure. -/
inductive Update (K : Type u) (V : Type v)
  | insert (k : K) (v : V)
  | remove (k : K)

omit [LinearOrder K] [Inhabited K] in
def Update.op : Update K V → Op K V
  | .insert k v => .insert k v
  | .remove k => .remove k

/-- The page that a pass of `insert` splits, behind its parent. -/
def splitSite (c : Capacity) (h : Heap K V) (k : K) : Nat → PID → PID → Option (PID × PID)
  | 0, parent, cur =>
      match h.page cur with
      | .leaf l => if l.isFull c then some (parent, cur) else none
      | _ => none
  | levels + 1, parent, cur =>
      match h.page cur with
      | .inner n =>
          if n.isFull c then some (parent, cur)
          else match n.children[n.lowerBoundBF k]? with
            | some child => splitSite c h k levels cur child
            | none => none
      | _ => none

/-- The heaps that arise during such calls: after a pass of `insert`, whether it
inserted or split, and after a `remove`. -/
inductive Arises (c : Capacity) : Heap K V → Prop
  | create : Arises c create
  | insertPass {h h' : Heap K V} (hh : Arises c h) (k : K) (v : V) (done : Bool)
      (hrun : insertPass c entryPage h k v = .ok (h', done)) : Arises c h'
  | remove {h h' : Heap K V} (hh : Arises c h) (k : K) (fuel : Nat) (wasBound : Bool)
      (hrun : remove c entryPage h k fuel = .ok (h', wasBound)) : Arises c h'

section Updates

variable {c : Capacity} {entry root : PID} {h : Heap K V} {G : Layout K} {height : Nat}

/-- Every heap that arises is a tree in order. -/
theorem Arises.treeInv (hh : Arises c h) :
    ∃ G root height, TreeInv c entryPage h G root height := by
  induction hh with
  | create =>
      obtain ⟨G, inv, _⟩ := create_inv (K := K) (V := V) c
      exact ⟨G, 1, 0, inv⟩
  | insertPass _ k v done hrun ih =>
      obtain ⟨G, root, height, inv⟩ := ih
      obtain ⟨res, hrun', hres⟩ := inv.insertPass k v
      rw [hrun] at hrun'
      obtain rfl := Except.ok.inj hrun'
      cases hres with
      | inserted pid r l hG hl hroom hk =>
          have hcount := (Leaf.insert_spec (inv.leafOK hG hl).sorted k v).2.2.2.2
          exact ⟨G, root, height, (inv.insert_leaf hG hl hk v (by omega)).1⟩
      | split _ _ _ _ _ _ _ G' root' height' _ _ _ hinv => exact ⟨G', root', height', hinv⟩
  | remove _ k fuel wasBound hrun ih =>
      obtain ⟨G, root, height, inv⟩ := ih
      obtain ⟨h', G', b, hrun', hinv, _⟩ := inv.remove k
      have henough := hrun' (max fuel (height + 1)) (by omega)
      rw [remove_mono hrun (Nat.le_max_left fuel (height + 1))] at henough
      obtain ⟨rfl, rfl⟩ := Prod.mk.inj (Except.ok.inj henough)
      exact ⟨G', root, height, hinv⟩

/-- Eager splits leave room: where a pass splits, the parent is not full. -/
theorem TreeInv.splitSite_hasRoom (inv : TreeInv c entry h G root height) {k : K} {levels : Nat}
    {parent cur p q : PID} {r : Region K} (hG : G cur = some r) (hlevel : r.level = levels)
    (hk : r.Holds k) (hroom : parent ≠ entry → ∃ n, h.page parent = .inner n ∧ n.isFull c = false)
    (hsite : splitSite c h k levels parent cur = some (p, q)) :
    p ≠ entry → ∃ n, h.page p = .inner n ∧ n.isFull c = false := by
  induction levels generalizing parent cur r with
  | zero =>
      obtain ⟨l, hl, _⟩ := inv.leaf_page hG hlevel
      simp only [splitSite, hl] at hsite
      split at hsite
      · obtain ⟨rfl, rfl⟩ := Prod.mk.inj (Option.some.inj hsite)
        exact hroom
      · cases hsite
  | succ levels ih =>
      obtain ⟨n, child, r', hn, hchild, hG', hlevel', hk', _⟩ :=
        inv.descend_one (Search.sound_lowerBoundBF k) hG hk hlevel
      simp only [splitSite, hn, hchild] at hsite
      split at hsite
      · obtain ⟨rfl, rfl⟩ := Prod.mk.inj (Option.some.inj hsite)
        exact hroom
      · rename_i hfull
        refine ih hG' hlevel' hk' ?_ hsite
        intro _
        exact ⟨n, hn, by simpa using hfull⟩

/-- One update answers without raising and keeps the invariant. -/
theorem TreeInv.exec_update (inv : TreeInv c entry h G root height) (u : Update K V) :
    ∃ h' G' root' height' a bound,
      (∀ fuel, bound ≤ fuel → exec c entry fuel h u.op = some (h', a)) ∧ a ≠ .raised ∧
      TreeInv c entry h' G' root' height' := by
  cases u with
  | insert k v =>
      obtain ⟨h', G', root', height', bound, hrun, hinv, _⟩ := inv.insert k v
      refine ⟨h', G', root', height', .done, bound, ?_, by simp, hinv⟩
      intro fuel hfuel
      simp [Update.op, exec, outcome, hrun fuel hfuel]
  | remove k =>
      obtain ⟨h', G', b, hrun, hinv, _⟩ := inv.remove k
      refine ⟨h', G', root, height, .removed b, height + 1, ?_, by simp, hinv⟩
      intro fuel hfuel
      simp [Update.op, exec, outcome, hrun fuel hfuel]

theorem TreeInv.run_updates (inv : TreeInv c entry h G root height) (us : List (Update K V)) :
    ∃ h' G' root' height' as bound,
      (∀ fuel, bound ≤ fuel → run c entry fuel h (us.map Update.op) = some (h', as)) ∧
      .raised ∉ as ∧ TreeInv c entry h' G' root' height' := by
  induction us generalizing h G root height with
  | nil => exact ⟨h, G, root, height, [], 0, fun _ _ => rfl, by simp, inv⟩
  | cons u us ih =>
      obtain ⟨h₁, G₁, root₁, height₁, a, bound₁, hexec, ha, inv₁⟩ := inv.exec_update u
      obtain ⟨h', G', root', height', as, bound₂, hrun, has, inv'⟩ := ih inv₁
      refine ⟨h', G', root', height', a :: as, max bound₁ bound₂, ?_, ?_, inv'⟩
      · intro fuel hfuel
        rw [List.map_cons, run, hexec fuel (by omega)]
        simp only [hrun fuel (by omega)]
      · simpa [eq_comm] using ⟨ha, has⟩

end Updates

/-- Any sequence of `insert` and `remove` calls on a new tree ends without a
failed `ensure` in a tree in order; and at every pass on the way the tree is in
order and the page the pass splits, if any, hangs below the entry page or below
an inner node that is not full. -/
theorem updates_keep_structure (c : Capacity) :
    (∀ us : List (Update K V), ∃ h answers bound,
      (∀ fuel, bound ≤ fuel →
        run c entryPage fuel create (us.map Update.op) = some (h, answers)) ∧
      .raised ∉ answers ∧ StructuredTree c entryPage h) ∧
    ∀ h : Heap K V, Arises c h → StructuredTree c entryPage h ∧
      (∀ k v, ∃ res, insertPass c entryPage h k v = .ok res) ∧
      ∀ root height, h.page entryPage = .entry root height → ∀ k parent cur,
        splitSite c h k height entryPage root = some (parent, cur) → parent ≠ entryPage →
          ∃ n, h.page parent = .inner n ∧ n.isFull c = false := by
  constructor
  · intro us
    obtain ⟨G, inv, _⟩ := create_inv (K := K) (V := V) c
    obtain ⟨h, _, _, _, answers, bound, hrun, hanswers, inv'⟩ := inv.run_updates us
    exact ⟨h, answers, bound, hrun, hanswers, inv'.structuredTree⟩
  · intro h hh
    obtain ⟨G, root, height, inv⟩ := hh.treeInv
    refine ⟨inv.structuredTree, ?_, ?_⟩
    · intro k v
      obtain ⟨res, hrun, _⟩ := inv.insertPass k v
      exact ⟨res, hrun⟩
    · intro root' height' hentry k parent cur hsite
      rw [inv.entry_page] at hentry
      obtain ⟨rfl, rfl⟩ := Page.entry.inj hentry
      exact inv.splitSite_hasRoom inv.root_region rfl ⟨by simp, by simp⟩
        (fun hne => absurd rfl hne) hsite

end ScaleStore.BTree
