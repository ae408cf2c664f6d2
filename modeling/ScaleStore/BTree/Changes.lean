/-
# Changes under latches

The five instructions that write pages, from a worker that holds what it takes: each
is one of the changes of the sequential tree, it keeps to the pages held and to new
ones, and it does to the map what the call is to do, or nothing.
-/

import ScaleStore.BTree.Rules

namespace ScaleStore.BTree

/-! ## What a split writes -/

section Split

variable {K V : Type} [LinearOrder K] [Inhabited K] {c : Capacity} {entry : PID} {h h' : Heap K V}
  {parent cur left right : PID} {sep : K}

theorem publish_page (hrun : publish c entry h parent sep left right = .ok h') :
    h.next ≤ h'.next ∧
      ∀ q, q ≠ parent → (h.next ≤ q → h'.next ≤ q) → h'.page q = h.page q := by
  unfold publish makeRoot at hrun
  split at hrun
  · rename_i hparent
    split at hrun
    · cases hrun
      refine ⟨by simp, fun q hq hold => ?_⟩
      have hne : q ≠ h.next := by
        rintro rfl
        simpa using hold le_rfl
      simp [hparent ▸ hq, hne]
    · cases hrun
  · split at hrun
    · split at hrun
      · cases hrun
        exact ⟨le_rfl, fun q hq _ => by simp [hq]⟩
      · cases hrun
    · cases hrun

/-- A split keeps to the page, to its parent and to new pages. -/
theorem splitPage_page (hrun : splitPage c entry h parent cur = .ok h') :
    h.next ≤ h'.next ∧
      ∀ q, q ≠ cur → q ≠ parent → (h.next ≤ q → h'.next ≤ q) → h'.page q = h.page q := by
  -- the right half goes to the next page, in both kinds of node
  have hhalves : ∀ {lp rp : Page K V} {sep : K},
      publish c entry ((h.alloc rp).set cur lp) parent sep cur h.next = .ok h' →
      h.next ≤ h'.next ∧
        ∀ q, q ≠ cur → q ≠ parent → (h.next ≤ q → h'.next ≤ q) → h'.page q = h.page q := by
    intro lp rp sep hpublish
    obtain ⟨hnext, hpage⟩ := publish_page hpublish
    have hlt : h.next < h'.next := by simpa using hnext
    refine ⟨le_of_lt hlt, fun q hq hqp hold => ?_⟩
    have hne : q ≠ h.next := by
      rintro rfl
      exact absurd (hold le_rfl) (not_le.mpr hlt)
    rw [hpage q hqp fun hle => hold (Nat.le_of_succ_le hle)]
    simp [hq, hne]
  unfold splitPage at hrun
  split at hrun
  · unfold BTree.splitLeaf at hrun
    split at hrun
    · exact hhalves hrun
    · cases hrun
  · exact hhalves hrun
  · cases hrun

end Split

section Changes

variable {T K V : Type} [LinearOrder K] [Inhabited K] {c : Capacity} {t : T} {m : Pages T K V}
  {g : Ghost T K V} {pid parent cur right : PID} {r : Region K} {l : Leaf K V} {k : K}

/-- A full page is split, below a page with room that is held as well. -/
theorem Consistent.split (hinv : Consistent c m g) (hparent : m.holder parent = some t)
    (hcur : m.holder cur = some t)
    (hleads : Leads parent (m.heap.page parent) (g.layout parent) cur r)
    (hroom : parent ≠ entryPage → HasRoom c m.heap parent)
    (hfull : (m.heap.page cur).isFull c = true) :
    ∃ h' g', splitPage c entryPage m.heap parent cur = .ok h' ∧ Writes c t m g h' g' ∧
      g'.map = g.map := by
  obtain ⟨root, height, inv⟩ := hinv.tree
  obtain ⟨hG, hparent'⟩ := inv.leads hleads
  -- what is common to both kinds of node
  have hold : ∀ {q : PID}, q < m.heap.next → q ≠ m.heap.next ∧ q ≠ m.heap.next + 1 :=
    fun hlt => ⟨Nat.ne_of_lt hlt, Nat.ne_of_lt (Nat.lt_succ_of_lt hlt)⟩
  have hwrites : ∀ {h' : Heap K V} {G' : Layout K} {root' : PID} {height' : Nat} {sep : K}
      {lp rp : Page K V}, splitPage c entryPage m.heap parent cur = .ok h' →
      TreeInv c entryPage h' G' root' height' →
      SplitEffect m.heap h' g.layout G' parent cur r sep lp rp →
      (∀ e, (∃ x, m.heap.page cur = .leaf x ∧ e ∈ x.entries) ↔
        (∃ x, lp = .leaf x ∧ e ∈ x.entries) ∨ ∃ x, rp = .leaf x ∧ e ∈ x.entries) →
      Writes c t m g h' { g with layout := G' } := by
    intro h' G' root' height' sep lp rp hrun hinv' heff hentries
    obtain ⟨hnext, hpage⟩ := splitPage_page hrun
    refine ⟨⟨root', height', hinv'⟩, fun j w => ?_, rfl, hnext, fun q hq hkeep => ⟨?_, ?_⟩,
      fun q s hs hlevel => ?_⟩
    · rw [heff.binds_iff inv hG hparent' hentries]
      exact hinv.abstracts j w
    · refine hpage q ?_ ?_ hkeep
      · rintro rfl
        exact hq hcur
      · rintro rfl
        exact hq hparent
    · have hqc : q ≠ cur := by
        rintro rfl
        exact hq hcur
      show G' q = g.layout q
      by_cases hlt : q < m.heap.next
      · exact heff.same_region q hqc (hold hlt).1 (hold hlt).2
      · have hnone : g.layout q = none := by
          by_contra hsome
          obtain ⟨s, hs⟩ := Option.ne_none_iff_exists'.mp hsome
          exact hlt (inv.lt_next q s hs)
        have hnone' : G' q = none := by
          by_contra hsome
          obtain ⟨s, hs⟩ := Option.ne_none_iff_exists'.mp hsome
          exact absurd (hkeep (not_lt.mp hlt)) (not_le.mpr (hinv'.lt_next q s hs))
        rw [hnone, hnone']
    · by_cases hqc : q = cur
      · subst hqc
        obtain rfl := Option.some.inj (hG.symm.trans hs)
        exact ⟨_, heff.cur_region, rfl⟩
      · obtain ⟨hnew, htop⟩ := hold (inv.lt_next q s hs)
        exact ⟨s, (heff.same_region q hqc hnew htop).trans hs, rfl⟩
  cases hpage : m.heap.page cur with
  | leaf l =>
    have hleaf : l.isFull c = true := by simpa [hpage, Page.isFull] using hfull
    obtain ⟨h', G', root', height', hrun, hinv', -, heff⟩ :=
      inv.splitLeaf hG hparent' hroom hpage hleaf
    have hsplit : splitPage c entryPage m.heap parent cur = .ok h' := by
      simp [splitPage, hpage, hrun]
    exact ⟨h', _, hsplit, hwrites hsplit hinv' heff (splitLeaf_entries hpage), rfl⟩
  | inner n =>
    have hinner : n.isFull c = true := by simpa [hpage, Page.isFull] using hfull
    obtain ⟨h', G', root', height', hrun, hinv', -, heff⟩ :=
      inv.splitInner hG hparent' hroom hpage hinner
    have hsplit : splitPage c entryPage m.heap parent cur = .ok h' := by
      simp [splitPage, hpage, hrun]
    exact ⟨h', _, hsplit, hwrites hsplit hinv' heff (by simp [hpage]), rfl⟩
  | unmapped => simp [hpage, Page.isFull] at hfull
  | entry root' height' => simp [hpage, Page.isFull] at hfull

/-! ## Leaves -/

omit [Inhabited K] in
theorem writes_set_leaf (hheld : m.holder pid = some t) {l' : Leaf K V} {x : OrderedMap K V}
    (htree : ∃ root height, TreeInv c entryPage (m.heap.set pid (.leaf l')) g.layout root height)
    (habs : Abstracts (m.heap.set pid (.leaf l')) g.layout x) :
    Writes c t m g (m.heap.set pid (.leaf l')) { g with map := x } := by
  refine ⟨htree, habs, rfl, le_rfl, fun q hq _ => ⟨?_, rfl⟩, fun q s hs _ => ⟨s, hs, rfl⟩⟩
  have hne : q ≠ pid := by
    rintro rfl
    exact hq hheld
  simp [hne]

theorem Consistent.insert (hinv : Consistent c m g) (hheld : m.holder pid = some t)
    (hG : g.layout pid = some r) (hk : r.Holds k) (hl : m.heap.page pid = .leaf l)
    (hroom : l.count < c.leaf) (v : V) :
    Writes c t m g (m.heap.set pid (.leaf (l.insert k v))) { g with map := g.map.insert k v } := by
  obtain ⟨root, height, inv⟩ := hinv.tree
  have hcount := (Leaf.insert_spec (inv.leafOK hG hl).sorted k v).2.2.2.2
  obtain ⟨inv', hupd⟩ := inv.insert_leaf hG hl hk v (by omega)
  exact writes_set_leaf hheld ⟨root, height, inv'⟩ (hinv.abstracts.insert hupd)

theorem Consistent.remove (hinv : Consistent c m g) (hheld : m.holder pid = some t)
    (hG : g.layout pid = some r) (hk : r.Holds k) (hl : m.heap.page pid = .leaf l) :
    Writes c t m g (m.heap.set pid (.leaf (l.remove k).1)) { g with map := g.map.erase k } ∧
      (l.remove k).2 = (g.map.find k).isSome := by
  obtain ⟨root, height, inv⟩ := hinv.tree
  obtain ⟨inv', herase, hres⟩ := inv.remove_leaf hG hl hk
  refine ⟨writes_set_leaf hheld ⟨root, height, inv'⟩ (hinv.abstracts.erase herase), ?_⟩
  rw [Bool.eq_iff_iff, hres, Option.isSome_iff_exists]
  exact exists_congr fun v => by rw [g.map.find_eq_some_iff, hinv.abstracts k v]

/-- The callback changes the payload of a bound key, and finds no other. -/
theorem Consistent.update (hinv : Consistent c m g) (hheld : m.holder pid = some t)
    (hG : g.layout pid = some r) (hk : r.Holds k) (hl : m.heap.page pid = .leaf l)
    (callback : V → V) :
    (∃ v l', g.map.find k = some v ∧ l.update k callback = some l' ∧
        Writes c t m g (m.heap.set pid (.leaf l')) { g with map := g.map.insert k (callback v) }) ∨
      (g.map.find k = none ∧ l.update k callback = none) := by
  obtain ⟨root, height, inv⟩ := hinv.tree
  have hbinds := inv.binds_iff_mem hG hl hk
  have hok := inv.leafOK hG hl
  cases hf : l.find k with
  | none =>
    have hnone := (Leaf.find_eq_none_iff hok.sorted).mp hf
    exact .inr ⟨hinv.abstracts.find_none fun v hb => hnone v ((hbinds v).mp hb),
      by simp [Leaf.update, hf]⟩
  | some pos =>
    obtain ⟨v, hv, hmem⟩ := Leaf.find_some_payload hf
    have hlt : pos < l.entries.length := (List.getElem?_eq_some_iff.mp hv).1
    have hne : l.count ≠ 0 := Nat.ne_of_gt (Nat.lt_of_le_of_lt (Nat.zero_le _) hlt)
    -- overwriting the payload is the upsert of a present key
    have hins : l.insert k (callback v) = { l with
        entries := l.entries.take pos ++ (k, callback v) :: l.entries.drop (pos + 1) } := by
      simp [Leaf.insert, hf, hne]
    have hupdate : l.update k callback = some (l.insert k (callback v)) := by
      simp [Leaf.update, hf, hv, hins]
    have hcount : (l.insert k (callback v)).count ≤ c.leaf := by
      have := hok.count_le
      rw [hins]
      simp only [Leaf.count, List.length_append, List.length_cons, List.length_take,
        List.length_drop] at this ⊢
      omega
    obtain ⟨inv', hupd⟩ := inv.insert_leaf hG hl hk (callback v) hcount
    exact .inl ⟨v, _, hinv.abstracts.find_some ((hbinds v).mpr hmem), hupdate,
      writes_set_leaf hheld ⟨root, height, inv'⟩ (hinv.abstracts.insert hupd)⟩

/-! ## The merge -/

/-- Where `remove` looks for the right sibling of its leaf. -/
theorem Consistent.siblings (hinv : Consistent c m g) {n : Inner K}
    (hleads : Leads parent (m.heap.page parent) (g.layout parent) cur r) (hk : r.Holds k)
    (hn : m.heap.page parent = .inner n) (hl : m.heap.page cur = .leaf l) :
    n.children[n.lowerBound k]? = some cur ∧
      (n.lowerBound k + 1 < n.count → ∃ right s q l', n.children[n.lowerBound k + 1]? = some right ∧
        Siblings m.heap g.layout parent cur right n (n.lowerBound k) l l' q r s) := by
  obtain ⟨root, height, inv⟩ := hinv.tree
  obtain ⟨hG, -⟩ := inv.leads hleads
  rcases hleads with ⟨-, height', hpage, -⟩ | ⟨s, n', i, hs, hn', hlevel, hslot⟩
  · rw [hn] at hpage
    cases hpage
  · rw [hn] at hn'
    cases hn'
    obtain ⟨level, -, hok⟩ := inv.innerOK hs hn
    have hpos : n.lowerBound k = i := by
      refine hok.shape.lowerBound_eq_of_inRange (hok.slot_le hslot) ?_
      rw [hslot.lower_eq, hslot.upper_eq]
      exact hk
    rw [hpos]
    refine ⟨hslot.child_eq, fun hlt => ?_⟩
    obtain ⟨right, t', l', hright, -, sib⟩ := inv.siblings hG hl hs hn hslot hlt
    exact ⟨right, t', s, l', hright, sib⟩

omit [Inhabited K] in
theorem Consistent.merge (hinv : Consistent c m g) {n : Inner K} {pos : Nat} {l' : Leaf K V}
    {q s : Region K} (hparent : m.holder parent = some t) (hcur : m.holder cur = some t)
    (hright : m.holder right = some t)
    (sib : Siblings m.heap g.layout parent cur right n pos l l' q r s) (htwo : 2 ≤ n.count)
    (hfit : l.count + l'.count < c.leaf) (hk : r.Holds k) :
    ∃ g', Writes c t m g (mergeInto m.heap parent cur right n pos l l') g' ∧ g'.map = g.map ∧
      ∃ r', g'.layout cur = some r' ∧ r'.Holds k := by
  obtain ⟨root, height, inv⟩ := hinv.tree
  have inv' := inv.mergeInto sib htwo hfit.le
  have hlayout : mergeLayout g.layout cur right r s cur = some ⟨0, r.lower, s.upper⟩ := by
    simp [mergeLayout]
  refine ⟨{ g with layout := mergeLayout g.layout cur right r s }, ⟨⟨root, height, inv'⟩,
    fun j w => ?_, rfl, le_rfl, fun p hp _ => ?_, fun p u hu hlevel => ?_⟩, rfl, _, hlayout,
    (sib.holds_iff inv k).mpr (.inl hk)⟩
  · rw [inv.binds_mergeInto sib]
    exact hinv.abstracts j w
  · have hpc : p ≠ cur := by
      rintro rfl
      exact hp hcur
    have hpr : p ≠ right := by
      rintro rfl
      exact hp hright
    have hpp : p ≠ parent := by
      rintro rfl
      exact hp hparent
    exact ⟨by simp [mergeInto, hpc, hpr, hpp], by simp [mergeLayout, hpc, hpr]⟩
  · -- the two leaves are at level 0
    have hpc : p ≠ cur := by
      rintro rfl
      obtain rfl := Option.some.inj (sib.cur_region.symm.trans hu)
      have := sib.level_cur inv
      omega
    have hpr : p ≠ right := by
      rintro rfl
      obtain rfl := Option.some.inj (sib.right_region.symm.trans hu)
      have := sib.level_right inv
      omega
    exact ⟨u, by simp [mergeLayout, hpc, hpr, hu], rfl⟩

end Changes

end ScaleStore.BTree
