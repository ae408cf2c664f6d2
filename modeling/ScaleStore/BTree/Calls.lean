/-
# What the point operations do to the bindings

`remove`, with and without the merge, and the two kinds of lookup, each from any
tree that satisfies the invariant.
-/

import ScaleStore.BTree.Descent

namespace ScaleStore.BTree

universe u v

variable {K : Type u} {V : Type v} [LinearOrder K] [Inhabited K]
variable {c : Capacity} {entry root : PID} {h : Heap K V} {G : Layout K} {height : Nat}

/-! ## remove -/

/-- Bindings after `k` was unbound. -/
def BindsErase (h h' : Heap K V) (G G' : Layout K) (k : K) : Prop :=
  ∀ j w, Binds h' G' j w ↔ j ≠ k ∧ Binds h G j w

/-- Removing a key from the leaf whose region holds it. -/
theorem TreeInv.remove_leaf (inv : TreeInv c entry h G root height) {pid : PID} {r : Region K}
    {l : Leaf K V} (hG : G pid = some r) (hl : h.page pid = .leaf l) {k : K} (hk : r.Holds k) :
    TreeInv c entry (h.set pid (.leaf (l.remove k).1)) G root height ∧
      BindsErase h (h.set pid (.leaf (l.remove k).1)) G G k ∧
      ((l.remove k).2 = true ↔ ∃ v, Binds h G k v) := by
  have hok := inv.leafOK hG hl
  have hbinds := inv.binds_iff_mem hG hl hk
  obtain ⟨hsorted, hmem, hres, hlower, hupper, hcount⟩ := Leaf.remove_spec hok.sorted k
  have hok' : LeafOK c (l.remove k).1 r := by
    refine ⟨hsorted, hlower.trans hok.lower_eq, hupper.trans hok.upper_eq, ?_,
      hcount.trans hok.count_le⟩
    intro e he
    exact hok.mem_region e ((hmem e).mp he).1
  refine ⟨inv.set_leaf hG (inv.level_of_leaf hG hl) hok', ?_, ?_⟩
  · intro j w
    rw [inv.binds_set_leaf hG hl, hmem]
    constructor
    · rintro (⟨hw, hne⟩ | ⟨hb, hnot⟩)
      · exact ⟨hne, pid, r, l, hG, inv.level_of_leaf hG hl, hl, hw⟩
      · refine ⟨?_, hb⟩
        rintro rfl
        exact hnot hk ((hbinds w).mp hb)
    · rintro ⟨hne, hb⟩
      by_cases hw : (j, w) ∈ l.entries
      · exact Or.inl ⟨hw, hne⟩
      · exact Or.inr ⟨hb, fun _ => hw⟩
  · rw [hres]
    exact exists_congr fun v => (hbinds v).symm

omit [Inhabited K] in
/-- The right sibling a merge looks at. -/
theorem TreeInv.siblings (inv : TreeInv c entry h G root height) {parent cur : PID}
    {r s : Region K} {l : Leaf K V} {n : Inner K} {pos : Nat} (hG : G cur = some r)
    (hl : h.page cur = .leaf l) (hs : G parent = some s) (hn : h.page parent = .inner n)
    (hslot : n.Slot s.lower s.upper pos cur r.lower r.upper) (hpos : pos + 1 < n.count) :
    ∃ right t m, n.children[pos + 1]? = some right ∧ h.page right = .leaf m ∧
      Siblings h G parent cur right n pos l m s r t := by
  obtain ⟨lv, hlv, hok⟩ := inv.innerOK hs hn
  obtain ⟨right, hright, hregion, hrslot⟩ := hok.child_at (show pos + 1 ≤ n.keys.length by
    exact Nat.le_of_lt hpos)
  have hzero : lv = 0 := by
    have hc := hok.child_region _ _ _ _ hslot
    rw [hG] at hc
    have hrl := congrArg Region.level (Option.some.inj hc)
    have := inv.level_of_leaf hG hl
    simp only at hrl
    omega
  obtain ⟨m, hm, _⟩ := inv.leaf_page hregion hzero
  exact ⟨right, _, m, hright, hm, ⟨hs, hn, hG, hl, hregion, hm, hslot, hrslot⟩⟩

theorem TreeInv.mergeAndRemove (inv : TreeInv c entry h G root height) {parent cur : PID}
    {r : Region K} {l : Leaf K V} (hG : G cur = some r) (hl : h.page cur = .leaf l) {k : K}
    (hk : r.Holds k) (hparent : IsParent h G entry root parent cur r) (hne : parent ≠ entry) :
    ∃ h' G' b, BTree.mergeAndRemove c h k parent cur l = .ok (h', b) ∧
      TreeInv c entry h' G' root height ∧ BindsErase h h' G G' k ∧
      (b = true ↔ ∃ v, Binds h G k v) := by
  obtain ⟨hinv, herase, hres⟩ := inv.remove_leaf hG hl hk
  rcases hparent with ⟨heq, _⟩ | ⟨s, n, i, hs, _, hn, hslot⟩
  · exact absurd heq hne
  · obtain ⟨lv, hlv, hok⟩ := inv.innerOK hs hn
    have hpos : n.lowerBound k = i := by
      refine hok.shape.lowerBound_eq_of_inRange (hok.slot_le hslot) ?_
      rw [hslot.lower_eq, hslot.upper_eq]
      exact hk
    by_cases hcond : 2 ≤ n.count ∧ i + 1 < n.count
    · obtain ⟨right, t, m, hright, hm, sib⟩ := inv.siblings hG hl hs hn hslot hcond.2
      by_cases hfit : c.leaf ≤ l.count + m.count
      · refine ⟨_, G, _, ?_, hinv, herase, hres⟩
        simp only [BTree.mergeAndRemove, hn, hpos, if_pos hcond, hright, hm, if_pos hfit]
      · have hinv' := inv.mergeInto sib hcond.1 (by omega)
        have hbinds := inv.binds_mergeInto sib
        obtain ⟨hcr, hpc, _⟩ := sib.ne inv
        have hcur : mergeLayout G cur right r t cur = some ⟨0, r.lower, t.upper⟩ := by
          simp [mergeLayout]
        have hpage : (BTree.mergeInto h parent cur right n i l m).page cur =
            .leaf (l.mergeRight m) := by
          simp [BTree.mergeInto, hcr, Ne.symm hpc]
        obtain ⟨hinv'', herase', hres'⟩ := hinv'.remove_leaf hcur hpage
          ((sib.holds_iff inv k).mpr (Or.inl hk))
        refine ⟨_, mergeLayout G cur right r t, ((l.mergeRight m).remove k).2, ?_, hinv'', ?_, ?_⟩
        · simp only [BTree.mergeAndRemove, hn, hpos, if_pos hcond, hright, hm, if_neg hfit]
        · intro j w
          rw [herase' j w, hbinds j w]
        · rw [hres']
          exact exists_congr fun v => hbinds k v
    · refine ⟨_, G, _, ?_, hinv, herase, hres⟩
      simp only [BTree.mergeAndRemove, hn, hpos, if_neg hcond]

/-- `remove` unbinds the key, says whether it was bound, and keeps the rest. -/
theorem TreeInv.remove (inv : TreeInv c entry h G root height) (k : K) :
    ∃ h' G' b, (∀ fuel, height < fuel → BTree.remove c entry h k fuel = .ok (h', b)) ∧
      TreeInv c entry h' G' root height ∧ BindsErase h h' G G' k ∧
      (b = true ↔ ∃ v, Binds h G k v) := by
  obtain ⟨parent, pid, r, l, hrun, hG, hl, hk, hparent⟩ :=
    inv.descendType (Search.sound_lowerBound k) inv.root_region rfl ⟨by simp, by simp⟩
      (Or.inl ⟨rfl, rfl⟩)
  by_cases hmerge : l.isUnderflow c = true ∧ parent ≠ entry
  · obtain ⟨h', G', b, hrem, hrest⟩ := inv.mergeAndRemove hG hl hk hparent hmerge.2
    refine ⟨h', G', b, ?_, hrest⟩
    intro fuel hfuel
    simp only [BTree.remove, inv.entry_page, hrun fuel hfuel, hl, if_pos hmerge, hrem]
  · obtain ⟨hinv, herase, hres⟩ := inv.remove_leaf hG hl hk
    refine ⟨_, G, _, ?_, hinv, herase, hres⟩
    intro fuel hfuel
    simp only [BTree.remove, inv.entry_page, hrun fuel hfuel, hl, if_neg hmerge]

/-! ## lookup -/

/-- `locate` finds the leaf and the position of a bound key, and raises for an
unbound one. -/
theorem TreeInv.locate (inv : TreeInv c entry h G root height) (k : K) :
    (∃ cur l pos r v, BTree.locate entry h k = .ok (cur, l, pos) ∧ G cur = some r ∧
        h.page cur = .leaf l ∧ r.Holds k ∧ l.find k = some pos ∧ l.entries[pos]? = some (k, v) ∧
        Binds h G k v) ∨
      (BTree.locate entry h k = .error .ensure ∧ ∀ v, ¬ Binds h G k v) := by
  obtain ⟨pid, r, l, hrun, hG, hl, hk⟩ := inv.leaf_of_key k
  have hbinds := inv.binds_iff_mem hG hl hk
  cases hf : l.find k with
  | some pos =>
      obtain ⟨v, hv, hmem⟩ := Leaf.find_some_payload hf
      refine Or.inl ⟨pid, l, pos, r, v, ?_, hG, hl, hk, hf, hv, (hbinds v).mpr hmem⟩
      simp [BTree.locate, inv.entry_page, hrun, hl, hf]
  | none =>
      refine Or.inr ⟨by simp [BTree.locate, inv.entry_page, hrun, hl, hf], ?_⟩
      intro v hb
      exact (Leaf.find_eq_none_iff (inv.leafOK hG hl).sorted).mp hf v ((hbinds v).mp hb)

/-- `lookup` returns the value of a bound key and raises for an unbound one. -/
theorem TreeInv.lookup (inv : TreeInv c entry h G root height) (k : K) :
    (∃ v, BTree.lookup entry h k = .ok v ∧ Binds h G k v) ∨
      (BTree.lookup entry h k = .error .ensure ∧ ∀ v, ¬ Binds h G k v) := by
  rcases inv.locate k with ⟨cur, l, pos, r, v, hrun, _, _, _, _, hv, hb⟩ | ⟨hrun, hb⟩
  · exact Or.inl ⟨v, by simp [BTree.lookup, hrun, hv], hb⟩
  · exact Or.inr ⟨by simp [BTree.lookup, hrun], hb⟩

/-- `lookupAndUpdate` rewrites the value of a bound key and raises for an
unbound one. -/
theorem TreeInv.lookupAndUpdate (inv : TreeInv c entry h G root height) (k : K) (f : V → V) :
    (∃ v h', BTree.lookupAndUpdate entry h k f = .ok h' ∧ Binds h G k v ∧
        TreeInv c entry h' G root height ∧ BindsUpdate h h' G G k (f v)) ∨
      (BTree.lookupAndUpdate entry h k f = .error .ensure ∧ ∀ v, ¬ Binds h G k v) := by
  rcases inv.locate k with ⟨cur, l, pos, r, v, hrun, hG, hl, hk, hf, hv, hb⟩ | ⟨hrun, hb⟩
  · have hlt : pos < l.entries.length := (List.getElem?_eq_some_iff.mp hv).1
    -- overwriting the payload is the upsert of a present key
    have hins : l.insert k (f v) = { l with
        entries := l.entries.take pos ++ (k, f v) :: l.entries.drop (pos + 1) } := by
      have hne : l.count ≠ 0 := Nat.ne_of_gt (Nat.lt_of_le_of_lt (Nat.zero_le _) hlt)
      simp [Leaf.insert, hf, hne]
    have hcount : (l.insert k (f v)).count ≤ c.leaf := by
      have := (inv.leafOK hG hl).count_le
      rw [hins]
      simp only [Leaf.count, List.length_append, List.length_cons, List.length_take,
        List.length_drop] at this ⊢
      omega
    obtain ⟨hinv, hupd⟩ := inv.insert_leaf hG hl hk (f v) hcount
    refine Or.inl ⟨v, _, ?_, hb, hinv, hupd⟩
    simp [BTree.lookupAndUpdate, hrun, hv, hins]
  · exact Or.inr ⟨by simp [BTree.lookupAndUpdate, hrun], hb⟩

/-! ## Budgets do not change results -/

theorem insert_mono {k : K} {v : V} {fuel fuel' : Nat} {h' : Heap K V}
    (hrun : insert c entry k v fuel h = .ok h') (hle : fuel ≤ fuel') :
    insert c entry k v fuel' h = .ok h' := by
  induction fuel generalizing h fuel' with
  | zero => simp [insert] at hrun
  | succ fuel ih =>
      obtain ⟨fuel', rfl⟩ : ∃ f, fuel' = f + 1 := ⟨fuel' - 1, by omega⟩
      simp only [insert] at hrun ⊢
      split at hrun
      · exact hrun
      · exact ih hrun (by omega)
      · cases hrun

omit [LinearOrder K] [Inhabited K] in
theorem descendType_mono {next : Inner K → Nat} {fuel fuel' : Nat}
    {parent cur : PID} {res : PID × PID} (hrun : descendType h next fuel parent cur = .ok res)
    (hle : fuel ≤ fuel') : descendType h next fuel' parent cur = .ok res := by
  induction fuel generalizing parent cur fuel' with
  | zero => simp [descendType] at hrun
  | succ fuel ih =>
      obtain ⟨fuel', rfl⟩ : ∃ f, fuel' = f + 1 := ⟨fuel' - 1, by omega⟩
      simp only [descendType] at hrun ⊢
      split at hrun
      · split at hrun
        · exact ih hrun (by omega)
        · cases hrun
      · exact hrun
      · cases hrun

theorem remove_mono {k : K} {fuel fuel' : Nat} {res : Heap K V × Bool}
    (hrun : remove c entry h k fuel = .ok res) (hle : fuel ≤ fuel') :
    remove c entry h k fuel' = .ok res := by
  simp only [remove] at hrun ⊢
  split at hrun
  · split at hrun
    · rename_i hdesc
      simp only [descendType_mono hdesc hle]
      exact hrun
    · cases hrun
  · cases hrun

end ScaleStore.BTree
