/-
# Splits and merges keep the invariant

The three ways a page of the tree changes: a leaf is rewritten in place, a page
is split and its right half handed to the parent (or a new root is put above),
and a leaf swallows its right sibling.  Each theorem also says which pages and
regions are untouched, because callers that remember a page from before the
change rely on that.
-/

import ScaleStore.BTree.Region

namespace ScaleStore.BTree

universe u v

variable {K : Type u} {V : Type v} [LinearOrder K]
variable {c : Capacity} {entry root : PID} {h : Heap K V} {G : Layout K} {height : Nat}

/-! ## Rewriting a leaf -/

/-- Writing a leaf that is still in order keeps the invariant and the layout. -/
theorem TreeInv.set_leaf (inv : TreeInv c entry h G root height) {pid : PID} {r : Region K}
    (hG : G pid = some r) (hr : r.level = 0) {l : Leaf K V} (hl : LeafOK c l r) :
    TreeInv c entry (h.set pid (.leaf l)) G root height := by
  have hne := inv.ne_entry hG
  refine ⟨?_, inv.root_region, inv.entry_free, ?_, inv.inhabited, inv.level_le, inv.unique,
    inv.lt_next, inv.entry_lt⟩
  · rw [Heap.set_page, if_neg (Ne.symm hne)]
    exact inv.entry_page
  · intro q s hq
    rw [Heap.set_page]
    split
    · rename_i heq
      subst heq
      obtain rfl : r = s := by simpa [hG] using hq
      exact .of_leaf hr hl
    · exact inv.page_ok q s hq

/-- The bindings after a leaf was rewritten: those of the other leaves and the
new ones. -/
theorem TreeInv.binds_set_leaf (inv : TreeInv c entry h G root height) {pid : PID} {r : Region K}
    (hG : G pid = some r) {l l' : Leaf K V} (hpage : h.page pid = .leaf l) (k : K) (v : V) :
    Binds (h.set pid (.leaf l')) G k v ↔
      (k, v) ∈ l'.entries ∨ Binds h G k v ∧ (r.Holds k → (k, v) ∉ l.entries) := by
  have hr := inv.level_of_leaf hG hpage
  constructor
  · rintro ⟨q, s, m, hq, hs, hm, hmem⟩
    rw [Heap.set_page] at hm
    split at hm
    · cases hm
      exact Or.inl hmem
    · rename_i hne
      refine Or.inr ⟨⟨q, s, m, hq, hs, hm, hmem⟩, fun hk _ => hne ?_⟩
      exact inv.unique q pid s r k hq hG (by omega) ((inv.leafOK hq hm).mem_region _ hmem) hk
  · rintro (hmem | ⟨⟨q, s, m, hq, hs, hm, hmem⟩, hnot⟩)
    · exact ⟨pid, r, l', hG, hr, by simp, hmem⟩
    · refine ⟨q, s, m, hq, hs, ?_, hmem⟩
      rw [Heap.set_page, if_neg]
      · exact hm
      · rintro rfl
        rw [hpage] at hm
        cases hm
        exact hnot ((inv.leafOK hG hpage).mem_region _ hmem) hmem

/-- A key in the region of a leaf is bound exactly by that leaf. -/
theorem TreeInv.binds_iff_mem (inv : TreeInv c entry h G root height) {pid : PID} {r : Region K}
    (hG : G pid = some r) {l : Leaf K V} (hpage : h.page pid = .leaf l) {k : K} (hk : r.Holds k)
    (v : V) : Binds h G k v ↔ (k, v) ∈ l.entries := by
  have hr := inv.level_of_leaf hG hpage
  constructor
  · rintro ⟨q, s, m, hq, hs, hm, hmem⟩
    obtain rfl : q = pid := inv.unique q pid s r k hq hG (by omega)
      ((inv.leafOK hq hm).mem_region _ hmem) hk
    rw [hpage] at hm
    cases hm
    exact hmem
  · intro hmem
    exact ⟨pid, r, l, hG, hr, hpage, hmem⟩

/-! ## Splitting a page -/

/-- What a published split of `cur` at `sep` changes. -/
structure SplitEffect (h h' : Heap K V) (G G' : Layout K) (parent cur : PID) (r : Region K)
    (sep : K) (left right : Page K V) : Prop where
  cur_region : G' cur = some ⟨r.level, r.lower, some sep⟩
  new_region : G' h.next = some ⟨r.level, some sep, r.upper⟩
  same_region : ∀ q, q ≠ cur → q ≠ h.next → q ≠ h.next + 1 → G' q = G q
  top_level : ∀ s, G' (h.next + 1) = some s → s.level = r.level + 1 ∧
    h'.page (h.next + 1) = .inner (Inner.ofPair sep cur h.next)
  page_cur : h'.page cur = left
  page_new : h'.page h.next = right
  same_page : ∀ q, q ≠ cur → q ≠ parent → q ≠ h.next → q ≠ h.next + 1 → h'.page q = h.page q
  next_lt : h.next < h'.next

variable [Inhabited K]

/-- The layout after a split, before a new root is counted in. -/
def splitLayout (G : Layout K) (cur new : PID) (r : Region K) (sep : K) : Layout K := fun q =>
  if q = cur then some ⟨r.level, r.lower, some sep⟩
  else if q = new then some ⟨r.level, some sep, r.upper⟩
  else G q

section Split

variable {cur : PID} {r : Region K} {sep : K}

omit [Inhabited K] in
theorem holds_left {k : K} (hsep : r.Holds sep)
    (hk : (⟨r.level, r.lower, some sep⟩ : Region K).Holds k) : r.Holds k :=
  ⟨hk.1, fun b hb => (hk.2 sep rfl).trans (hsep.2 b hb)⟩

omit [Inhabited K] in
theorem holds_right {k : K} (hsep : r.Holds sep)
    (hk : (⟨r.level, some sep, r.upper⟩ : Region K).Holds k) : r.Holds k :=
  ⟨fun a ha => (hsep.1 a ha).trans (hk.1 sep rfl), hk.2⟩

omit [Inhabited K] in
/-- Every region of the new layout lies in the old region of the page it was
made from. -/
theorem splitLayout_from {new : PID} (hG : G cur = some r)
    (hsep : r.Holds sep) {q : PID} {s : Region K}
    (hq : splitLayout G cur new r sep q = some s) :
    ∃ q' s', G q' = some s' ∧ s.level = s'.level ∧ (∀ k, s.Holds k → s'.Holds k) ∧
      (q = q' ∨ q = new ∧ q' = cur ∧ s = ⟨r.level, some sep, r.upper⟩) := by
  unfold splitLayout at hq
  split at hq
  · rename_i heq
    obtain rfl := Option.some.inj hq
    exact ⟨cur, r, hG, rfl, fun k hk => holds_left hsep hk, Or.inl heq⟩
  · split at hq
    · rename_i hne heq
      obtain rfl := Option.some.inj hq
      exact ⟨cur, r, hG, rfl, fun k hk => holds_right hsep hk, Or.inr ⟨heq, rfl, rfl⟩⟩
    · exact ⟨q, s, hq, rfl, fun _ hk => hk, Or.inl rfl⟩

omit [Inhabited K] in
theorem splitLayout_unique (inv : TreeInv c entry h G root height) (hG : G cur = some r)
    (hsep : r.Holds sep) {p q : PID} {s t : Region K} {k : K}
    (hp : splitLayout G cur h.next r sep p = some s)
    (hq : splitLayout G cur h.next r sep q = some t)
    (hlevel : s.level = t.level) (hs : s.Holds k) (ht : t.Holds k) : p = q := by
  obtain ⟨p', s', hp', hsl, hsk, hpc⟩ := splitLayout_from hG hsep hp
  obtain ⟨q', t', hq', htl, htk, hqc⟩ := splitLayout_from hG hsep hq
  have hpq := inv.unique p' q' s' t' k hp' hq' (by omega) (hsk k hs) (htk k ht)
  -- a key of the right half cannot lie in the left one
  have hclash : ∀ {x : Region K}, splitLayout G cur h.next r sep cur = some x → x.Holds k →
      (⟨r.level, some sep, r.upper⟩ : Region K).Holds k → False := by
    intro x hx hxk hk
    obtain rfl : (⟨r.level, r.lower, some sep⟩ : Region K) = x := by simpa [splitLayout] using hx
    exact absurd (hk.1 sep rfl) (not_lt.mpr (hxk.2 sep rfl))
  rcases hpc with rfl | ⟨rfl, rfl, rfl⟩ <;> rcases hqc with rfl | ⟨rfl, hq'', rfl⟩
  · exact hpq
  · subst hpq
    subst hq''
    exact (hclash hp hs ht).elim
  · subst hpq
    exact (hclash hq ht hs).elim
  · rfl

omit [Inhabited K] in
/-- The pages other than the parent are in order after a split: none of them
has the page that was split as a child. -/
theorem splitLayout_page_ok (inv : TreeInv c entry h G root height) (hG : G cur = some r)
    {parent : PID} {h' : Heap K V} {left right : Page K V}
    (hleft : PageOK c G left ⟨r.level, r.lower, some sep⟩)
    (hright : PageOK c G right ⟨r.level, some sep, r.upper⟩)
    (hpcur : h'.page cur = left) (hpnew : h'.page h.next = right)
    (hsame : ∀ q, q ≠ cur → q ≠ parent → q < h.next → h'.page q = h.page q)
    (hother : ∀ q t m k a b, q ≠ parent → G q = some t → h.page q = .inner m →
      ¬ m.Slot t.lower t.upper k cur a b) {q : PID} {t : Region K} (hqp : q ≠ parent)
    (hq : splitLayout G cur h.next r sep q = some t) :
    PageOK c (splitLayout G cur h.next r sep) (h'.page q) t := by
  have hkeep : ∀ {p : Page K V} {s : Region K}, PageOK c G p s →
      (∀ m i a b, p = .inner m → ¬ m.Slot s.lower s.upper i cur a b) →
      PageOK c (splitLayout G cur h.next r sep) p s := by
    intro p s hp hchild
    refine hp.congr fun m i child a b hpm hslot => ?_
    have hne : child ≠ cur := by
      rintro rfl
      exact hchild m i a b hpm hslot
    subst hpm
    obtain ⟨u, hu, _⟩ := hp.child hslot
    rw [splitLayout, if_neg hne, if_neg (Nat.ne_of_lt (inv.lt_next child u hu))]
  -- the two halves lie at the level of the page itself, so it is not below them
  have hhalf : ∀ {p : Page K V} {a b : FenceKey K}, PageOK c G p ⟨r.level, a, b⟩ →
      ∀ m i a' b', p = .inner m → ¬ m.Slot a b i cur a' b' := by
    intro p a b hp m i a' b' hpm hslot
    subst hpm
    obtain ⟨u, hu, hlevel⟩ := hp.child hslot
    rw [hG] at hu
    obtain rfl := Option.some.inj hu
    simp only at hlevel
    omega
  unfold splitLayout at hq
  split at hq
  · rename_i heq
    obtain rfl := Option.some.inj hq
    rw [heq, hpcur]
    exact hkeep hleft (hhalf hleft)
  · split at hq
    · rename_i heq
      obtain rfl := Option.some.inj hq
      rw [heq, hpnew]
      exact hkeep hright (hhalf hright)
    · rename_i hqc hqn
      rw [hsame q hqc hqp (inv.lt_next q t hq)]
      exact hkeep (inv.page_ok q t hq) (fun m i a b hm => hother q t m i a b hqp hq hm)

omit [Inhabited K] in
theorem splitLayout_inhabited (inv : TreeInv c entry h G root height)
    (hsep : r.Holds sep)
    (hright : ∃ k, (⟨r.level, some sep, r.upper⟩ : Region K).Holds k) {q : PID} {s : Region K}
    (hq : splitLayout G cur h.next r sep q = some s) : ∃ k, s.Holds k := by
  unfold splitLayout at hq
  split at hq
  · obtain rfl := Option.some.inj hq
    exact ⟨sep, hsep.1, by simp⟩
  · split at hq
    · obtain rfl := Option.some.inj hq
      exact hright
    · exact inv.inhabited q s hq

omit [Inhabited K] in
theorem splitLayout_lt (inv : TreeInv c entry h G root height) (hG : G cur = some r)
    (hsep : r.Holds sep) {q : PID} {s : Region K}
    (hq : splitLayout G cur h.next r sep q = some s) : q < h.next + 1 := by
  obtain ⟨q', t', hq', _, _, hcase⟩ := splitLayout_from hG hsep hq
  rcases hcase with rfl | ⟨rfl, _⟩
  · exact Nat.lt_succ_of_lt (inv.lt_next q t' hq')
  · exact Nat.lt_succ_self _

/-- Publishing a split below an inner node that has room. -/
theorem TreeInv.publish_inner (inv : TreeInv c entry h G root height) (hG : G cur = some r)
    {parent : PID} {s : Region K} (hparent : G parent = some s) (hlevel : s.level = r.level + 1)
    {n : Inner K} (hn : h.page parent = .inner n) {i : Nat}
    (hslot : n.Slot s.lower s.upper i cur r.lower r.upper) (hroom : n.count < c.inner - 1)
    (hsep : r.Holds sep) (hright : ∃ k, (⟨r.level, some sep, r.upper⟩ : Region K).Holds k)
    {left right : Page K V} (hleft : PageOK c G left ⟨r.level, r.lower, some sep⟩)
    (hrightok : PageOK c G right ⟨r.level, some sep, r.upper⟩) :
    ∃ h' G', publish c entry ((h.alloc right).set cur left) parent sep cur h.next = .ok h' ∧
      TreeInv c entry h' G' root height ∧
      SplitEffect h h' G G' parent cur r sep left right := by
  have hcur_lt := inv.lt_next cur r hG
  have hpar_lt := inv.lt_next parent s hparent
  have hentry_lt := inv.entry_lt
  have hpne := inv.ne_entry hparent
  have hcne := inv.ne_entry hG
  have hpc : parent ≠ cur := by
    rintro rfl
    rw [hG] at hparent
    obtain rfl := Option.some.inj hparent
    omega
  obtain ⟨lv, hlv, hnok⟩ := inv.innerOK hparent hn
  have hi := hnok.slot_le hslot
  -- the separator falls into the slot of the page that was split
  have hpos : n.lowerBound sep = i := by
    refine hnok.shape.lowerBound_eq_of_inRange hi ?_
    rw [hslot.lower_eq, hslot.upper_eq]
    exact hsep
  have hsep_lt : ∀ b ∈ r.upper, sep < b := by
    obtain ⟨k, hk⟩ := hright
    intro b hb
    exact lt_of_lt_of_le (hk.1 sep rfl) (hk.2 b hb)
  obtain ⟨hshape, hcount⟩ : (n.insert sep h.next).Shape s.lower s.upper ∧
      (n.insert sep h.next).count = n.count + 1 := Inner.insert_shape hnok.shape
    (by rw [hpos, hslot.lower_eq]; exact hsep.1) (by rw [hpos, hslot.upper_eq]; exact hsep_lt)
  set G' := splitLayout G cur h.next r sep with hG'
  set h₁ := (h.alloc right).set cur left with hh₁
  have hG'cur : G' cur = some ⟨r.level, r.lower, some sep⟩ := by simp [hG', splitLayout]
  have hG'new : G' h.next = some ⟨r.level, some sep, r.upper⟩ := by
    simp [hG', splitLayout, Nat.ne_of_gt hcur_lt]
  have hG'same : ∀ q, q ≠ cur → q ≠ h.next → G' q = G q := by
    intro q hq hq'
    simp [hG', splitLayout, hq, hq']
  have hpage₁ : ∀ q, q ≠ cur → q ≠ h.next → h₁.page q = h.page q := by
    intro q hq hq'
    simp [hh₁, hq, hq']
  have hpar₁ : h₁.page parent = .inner n := by
    rw [hpage₁ parent hpc (Nat.ne_of_lt hpar_lt)]
    exact hn
  have hnext : (h₁.set parent (.inner (n.insert sep h.next))).next = h.next + 1 := by simp [hh₁]
  have hpage_cur : (h₁.set parent (.inner (n.insert sep h.next))).page cur = left := by
    simp [hh₁, Ne.symm hpc]
  have hpage_new : (h₁.set parent (.inner (n.insert sep h.next))).page h.next = right := by
    simp [hh₁, Nat.ne_of_gt hpar_lt, Nat.ne_of_gt hcur_lt]
  have hpage_same : ∀ q, q ≠ cur → q ≠ parent → q ≠ h.next →
      (h₁.set parent (.inner (n.insert sep h.next))).page q = h.page q := by
    intro q hq hqp hqn
    rw [Heap.set_page, if_neg hqp]
    exact hpage₁ q hq hqn
  refine ⟨h₁.set parent (.inner (n.insert sep h.next)), G', ?_, ?_, ?_⟩
  · simp [publish, hpne, hpar₁, hroom]
  · refine ⟨?_, ?_, ?_, ?_, ?_, ?_, ?_, ?_, ?_⟩
    · rw [hpage_same _ (Ne.symm hcne) (Ne.symm hpne) (Nat.ne_of_lt hentry_lt)]
      exact inv.entry_page
    · -- the root is not the page that was split: it has no parent
      have hrc : root ≠ cur := by
        rintro rfl
        rw [inv.root_region] at hG
        obtain rfl := Option.some.inj hG
        have := inv.level_le parent s hparent
        simp only at hlevel
        omega
      rw [hG'same root hrc (Nat.ne_of_lt (inv.lt_next _ _ inv.root_region))]
      exact inv.root_region
    · rw [hG'same entry (Ne.symm hcne) (Nat.ne_of_lt hentry_lt)]
      exact inv.entry_free
    · intro q t hq
      by_cases hqp : q = parent
      · subst hqp
        rw [hG'same q hpc (Nat.ne_of_lt hpar_lt), hparent] at hq
        obtain rfl := Option.some.inj hq
        rw [Heap.set_page, if_pos rfl]
        refine .of_inner hlv ⟨hshape, by omega, ?_⟩
        intro j child a b hj
        have hrl : r.level = lv := by omega
        rcases Inner.insert_slot hnok.shape hj with ⟨j', hj', hold⟩ | ⟨rfl, hold⟩ | ⟨rfl, rfl, rfl⟩
        · have hchild := hnok.child_region _ _ _ _ hold
          have hne : child ≠ cur := by
            rintro rfl
            have hc := hnok.child_region _ _ _ _ hslot
            rw [hchild] at hc
            have hu : b = r.upper := by simpa using (congrArg Region.upper (Option.some.inj hc))
            refine hj' ?_
            rw [hpos]
            refine hnok.shape.slotUpper_inj (hnok.slot_le hold) hi ?_
            rw [hold.upper_eq, hslot.upper_eq, hu]
          rw [hG'same child hne (Nat.ne_of_lt (inv.lt_next _ _ hchild))]
          exact hchild
        · rw [hpos] at hold
          have hcc : cur = child := by
            have hold_child := hold.child_eq
            rw [hslot.child_eq] at hold_child
            exact Option.some.inj hold_child
          have ha : a = r.lower := by
            rw [← hold.lower_eq]
            exact hslot.lower_eq
          rw [← hcc, ha, hG'cur, hrl]
        · rw [hG'new, hpos, hslot.upper_eq, hrl]
      · refine splitLayout_page_ok inv hG hleft hrightok hpage_cur hpage_new ?_ ?_ hqp hq
        · intro x hx hxp hlt
          exact hpage_same x hx hxp (Nat.ne_of_lt hlt)
        · intro x t m k a b hxp hx hm hs
          exact hxp (inv.parent_unique hx hparent hm hn hs hslot)
    · intro q t hq
      exact splitLayout_inhabited inv hsep hright hq
    · intro q t hq
      obtain ⟨q', t', hq', hl, _⟩ := splitLayout_from hG hsep hq
      rw [hl]
      exact inv.level_le q' t' hq'
    · intro p q s' t k hp hq hl hs ht
      exact splitLayout_unique inv hG hsep hp hq hl hs ht
    · intro q t hq
      rw [hnext]
      exact splitLayout_lt inv hG hsep hq
    · rw [hnext]
      exact Nat.lt_succ_of_lt hentry_lt
  · refine ⟨hG'cur, hG'new, fun q hq hq' _ => hG'same q hq hq', ?_, hpage_cur, hpage_new,
      fun q hq hqp hqn _ => hpage_same q hq hqp hqn, ?_⟩
    · intro t ht
      exact absurd (splitLayout_lt inv hG hsep ht) (Nat.lt_irrefl _)
    · rw [hnext]
      exact Nat.lt_succ_self _

omit [LinearOrder K] [Inhabited K] in
/-- The two slots of a root that `makeRoot` builds. -/
theorem ofPair_slot {left right child : PID} {i : Nat} {a b : FenceKey K}
    (hslot : (Inner.ofPair sep left right).Slot none none i child a b) :
    (child = left ∧ a = none ∧ b = some sep) ∨ (child = right ∧ a = some sep ∧ b = none) := by
  have hi := hslot.lt_length
  obtain ⟨hc, ha, hb⟩ := hslot
  simp only [Inner.ofPair, List.length_cons, List.length_nil] at hi
  obtain rfl | rfl : i = 0 ∨ i = 1 := by omega
  · left
    simp_all [Inner.ofPair, Inner.slotLower, Inner.slotUpper]
  · right
    simp_all [Inner.ofPair, Inner.slotLower, Inner.slotUpper]

/-- The layout after the root was split: one more page, one level higher. -/
def rootLayout (G : Layout K) (root new : PID) (height : Nat) (sep : K) : Layout K := fun q =>
  if q = new + 1 then some ⟨height + 1, none, none⟩
  else splitLayout G root new ⟨height, none, none⟩ sep q

/-- Publishing a split of the root. -/
theorem TreeInv.publish_root (inv : TreeInv c entry h G root height)
    (hright : ∃ k, (⟨height, some sep, none⟩ : Region K).Holds k) {left right : Page K V}
    (hleft : PageOK c G left ⟨height, none, some sep⟩)
    (hrightok : PageOK c G right ⟨height, some sep, none⟩) :
    ∃ h' G', publish c entry ((h.alloc right).set root left) entry sep root h.next = .ok h' ∧
      TreeInv c entry h' G' (h.next + 1) (height + 1) ∧
      SplitEffect h h' G G' entry root ⟨height, none, none⟩ sep left right := by
  have hG := inv.root_region
  have hcur_lt := inv.lt_next root _ hG
  have hentry_lt := inv.entry_lt
  have hcne := inv.ne_entry hG
  have hsep : (⟨height, none, none⟩ : Region K).Holds sep := ⟨by simp, by simp⟩
  set h₁ := (h.alloc right).set root left with hh₁
  have hentry₁ : h₁.page entry = .entry root height := by
    simp [hh₁, Ne.symm hcne, Nat.ne_of_lt hentry_lt, inv.entry_page]
  have hnext₁ : h₁.next = h.next + 1 := by simp [hh₁]
  set h₂ := (h₁.alloc (.inner (Inner.ofPair sep root h.next))).set entry
    (.entry h₁.next (height + 1)) with hh₂
  have hnext : h₂.next = h.next + 1 + 1 := by simp [hh₂, hnext₁]
  have hentry₂ : h₂.page entry = .entry (h.next + 1) (height + 1) := by simp [hh₂, hnext₁]
  have hpage_top : h₂.page (h.next + 1) = .inner (Inner.ofPair sep root h.next) := by
    have : h.next + 1 ≠ entry := Nat.ne_of_gt (Nat.lt_succ_of_lt hentry_lt)
    simp [hh₂, hnext₁, this]
  have hpage_cur : h₂.page root = left := by
    have : root ≠ h.next + 1 := Nat.ne_of_lt (Nat.lt_succ_of_lt hcur_lt)
    simp [hh₂, hh₁, hcne, this]
  have hpage_new : h₂.page h.next = right := by
    simp [hh₂, hh₁, Nat.ne_of_gt hcur_lt, Nat.ne_of_gt hentry_lt]
  have hpage_same : ∀ q, q ≠ root → q ≠ entry → q ≠ h.next → q ≠ h.next + 1 →
      h₂.page q = h.page q := by
    intro q hq hqe hqn hqt
    simp [hh₂, hh₁, hq, hqe, hqn, hqt]
  set G₁ := splitLayout G root h.next ⟨height, none, none⟩ sep with hG₁
  set G' := rootLayout G root h.next height sep with hG'
  have hG'top : G' (h.next + 1) = some ⟨height + 1, none, none⟩ := by simp [hG', rootLayout]
  have hG'same : ∀ q, q ≠ h.next + 1 → G' q = G₁ q := by
    intro q hq
    simp [hG', rootLayout, hq, hG₁]
  have hmono : ∀ q t, G₁ q = some t → G' q = some t := by
    intro q t hq
    rw [hG'same q (Nat.ne_of_lt (splitLayout_lt inv hG hsep hq))]
    exact hq
  have hG'cur : G' root = some ⟨height, none, some sep⟩ :=
    hmono _ _ (by simp [hG₁, splitLayout])
  have hG'new : G' h.next = some ⟨height, some sep, none⟩ :=
    hmono _ _ (by simp [hG₁, splitLayout, Nat.ne_of_gt hcur_lt])
  -- every region of the new layout is the top one or comes from the split
  have hcases : ∀ q t, G' q = some t →
      (q = h.next + 1 ∧ t = ⟨height + 1, none, none⟩) ∨ (q ≠ h.next + 1 ∧ G₁ q = some t) := by
    intro q t hq
    by_cases hqt : q = h.next + 1
    · subst hqt
      rw [hG'top] at hq
      exact Or.inl ⟨rfl, (Option.some.inj hq).symm⟩
    · rw [hG'same q hqt] at hq
      exact Or.inr ⟨hqt, hq⟩
  have hlevel : ∀ q t, G₁ q = some t → t.level ≤ height := by
    intro q t hq
    obtain ⟨q', t', hq', hl, _⟩ := splitLayout_from hG hsep hq
    rw [hl]
    exact inv.level_le q' t' hq'
  refine ⟨h₂, G', ?_, ?_, ?_⟩
  · simp [publish, makeRoot, hentry₁, hh₂]
  · refine ⟨hentry₂, hG'top, ?_, ?_, ?_, ?_, ?_, ?_, ?_⟩
    · rw [hG'same entry (Nat.ne_of_lt (Nat.lt_succ_of_lt hentry_lt)), hG₁, splitLayout,
        if_neg (Ne.symm hcne), if_neg (Nat.ne_of_lt hentry_lt)]
      exact inv.entry_free
    · intro q t hq
      rcases hcases q t hq with ⟨rfl, rfl⟩ | ⟨hqt, hq₁⟩
      · rw [hpage_top]
        refine .of_inner rfl ⟨⟨by simp [Inner.ofPair], by simp [Inner.ofPair],
          by simp [Inner.ofPair], by simp, by simp⟩, ?_, ?_⟩
        · have := c.five_le_inner
          simp only [Inner.count, Inner.ofPair, List.length_cons, List.length_nil]
          omega
        · intro i child a b hslot
          rcases ofPair_slot hslot with ⟨rfl, rfl, rfl⟩ | ⟨rfl, rfl, rfl⟩
          · exact hG'cur
          · exact hG'new
      · have hqe : q ≠ entry := by
          rintro rfl
          rw [hG₁, splitLayout, if_neg (Ne.symm hcne), if_neg (Nat.ne_of_lt hentry_lt),
            inv.entry_free] at hq₁
          cases hq₁
        have hok : PageOK c G₁ (h₂.page q) t := by
          refine splitLayout_page_ok inv hG hleft hrightok hpage_cur hpage_new ?_ ?_ hqe hq₁
          · intro x hx hxe hlt
            exact hpage_same x hx hxe (Nat.ne_of_lt hlt) (Nat.ne_of_lt (Nat.lt_succ_of_lt hlt))
          · -- nothing lies above the root
            intro x u m k a b _ hx hm hs
            have hp := inv.page_ok x u hx
            rw [hm] at hp
            obtain ⟨w, hw, hwl⟩ := hp.child hs
            rw [hG] at hw
            obtain rfl := Option.some.inj hw
            have := inv.level_le x u hx
            simp only at hwl
            omega
        refine hok.congr fun m i child a b hm hslot => ?_
        rw [hm] at hok
        obtain ⟨w, hw, _⟩ := hok.child hslot
        rw [hw]
        exact hmono child w hw
    · intro q t hq
      rcases hcases q t hq with ⟨rfl, rfl⟩ | ⟨_, hq₁⟩
      · exact ⟨sep, by simp, by simp⟩
      · exact splitLayout_inhabited inv hsep hright hq₁
    · intro q t hq
      rcases hcases q t hq with ⟨rfl, rfl⟩ | ⟨_, hq₁⟩
      · exact le_rfl
      · exact Nat.le_succ_of_le (hlevel q t hq₁)
    · intro p q s t k hp hq hl hs ht
      rcases hcases p s hp with ⟨rfl, rfl⟩ | ⟨_, hp₁⟩ <;>
        rcases hcases q t hq with ⟨rfl, rfl⟩ | ⟨_, hq₁⟩
      · rfl
      · have := hlevel q t hq₁
        simp only at hl
        omega
      · have := hlevel p s hp₁
        simp only at hl
        omega
      · exact splitLayout_unique inv hG hsep hp₁ hq₁ hl hs ht
    · intro q t hq
      rw [hnext]
      rcases hcases q t hq with ⟨rfl, rfl⟩ | ⟨_, hq₁⟩
      · exact Nat.lt_succ_self _
      · exact Nat.lt_succ_of_lt (splitLayout_lt inv hG hsep hq₁)
    · rw [hnext]
      exact Nat.lt_succ_of_lt (Nat.lt_succ_of_lt hentry_lt)
  · refine ⟨hG'cur, hG'new, ?_, ?_, hpage_cur, hpage_new, hpage_same, ?_⟩
    · intro q hq hqn hqt
      rw [hG'same q hqt, hG₁, splitLayout, if_neg hq, if_neg hqn]
    · intro t ht
      rw [hG'top] at ht
      obtain rfl := Option.some.inj ht
      exact ⟨rfl, hpage_top⟩
    · rw [hnext]
      exact Nat.lt_succ_of_lt (Nat.lt_succ_self _)

/-- The parent has room for one more separator; the entry page always has. -/
def HasRoom (c : Capacity) (h : Heap K V) (parent : PID) : Prop :=
  ∀ n, h.page parent = .inner n → n.count < c.inner - 1

/-- How the root and the height follow a split: only a split below the entry
page moves them. -/
def Grown (entry parent root root' : PID) (height height' : Nat) : Prop :=
  (parent ≠ entry ∧ root' = root ∧ height' = height) ∨ (parent = entry ∧ height' = height + 1)

/-- A split that is published at the page's parent. -/
theorem TreeInv.publish (inv : TreeInv c entry h G root height) (hG : G cur = some r)
    {parent : PID} (hparent : IsParent h G entry root parent cur r)
    (hroom : parent ≠ entry → HasRoom c h parent) (hsep : r.Holds sep)
    (hright : ∃ k, (⟨r.level, some sep, r.upper⟩ : Region K).Holds k)
    {left right : Page K V} (hleft : PageOK c G left ⟨r.level, r.lower, some sep⟩)
    (hrightok : PageOK c G right ⟨r.level, some sep, r.upper⟩) :
    ∃ h' G' root' height',
      BTree.publish c entry ((h.alloc right).set cur left) parent sep cur h.next = .ok h' ∧
      TreeInv c entry h' G' root' height' ∧ Grown entry parent root root' height height' ∧
      SplitEffect h h' G G' parent cur r sep left right := by
  rcases hparent with ⟨rfl, rfl⟩ | ⟨s, n, i, hs, hlevel, hn, hslot⟩
  · rw [inv.root_region] at hG
    obtain rfl := Option.some.inj hG
    obtain ⟨h', G', hrun, hinv, heff⟩ := inv.publish_root hright hleft hrightok
    exact ⟨h', G', _, _, hrun, hinv, Or.inr ⟨rfl, rfl⟩, heff⟩
  · have hne := inv.ne_entry hs
    obtain ⟨h', G', hrun, hinv, heff⟩ := inv.publish_inner hG hs hlevel hn hslot
      (hroom hne n hn) hsep hright hleft hrightok
    exact ⟨h', G', _, _, hrun, hinv, Or.inl ⟨hne, rfl, rfl⟩, heff⟩

/-- `splitLeaf` keeps the invariant. -/
theorem TreeInv.splitLeaf (inv : TreeInv c entry h G root height) (hG : G cur = some r)
    {parent : PID} (hparent : IsParent h G entry root parent cur r)
    (hroom : parent ≠ entry → HasRoom c h parent) {l : Leaf K V} (hl : h.page cur = .leaf l)
    (hfull : l.isFull c = true) :
    ∃ h' G' root' height', BTree.splitLeaf c entry h parent cur l = .ok h' ∧
      TreeInv c entry h' G' root' height' ∧ Grown entry parent root root' height height' ∧
      SplitEffect h h' G G' parent cur r l.splitKey (.leaf l.splitLeft) (.leaf l.splitRight) := by
  have hr := inv.level_of_leaf hG hl
  have hok := inv.leafOK hG hl
  have hcap := c.two_le_leaf
  have hcount : l.count = c.leaf := by simpa [Leaf.isFull] using hfull
  obtain ⟨hsl, hsr, hle, hgt, ⟨p, hp⟩, happ⟩ := Leaf.split_spec hok.sorted (by omega)
  have hmem_left : ∀ e ∈ l.splitLeft.entries, e ∈ l.entries := by
    intro e he
    rw [← happ]
    exact List.mem_append_left _ he
  have hmem_right : ∀ e ∈ l.splitRight.entries, e ∈ l.entries := by
    intro e he
    rw [← happ]
    exact List.mem_append_right _ he
  have hlen : l.splitLeft.count + l.splitRight.count = l.count := by
    have := congrArg List.length happ
    simpa [Leaf.count] using this
  have hsep : r.Holds l.splitKey := hok.mem_region _ (hmem_left _ hp)
  have hright_pos : 0 < l.splitRight.count := by
    simp only [Leaf.count, Leaf.splitRight, List.length_drop, Leaf.splitCount] at hcount ⊢
    omega
  obtain ⟨e, he⟩ := List.exists_mem_of_length_pos hright_pos
  have hright : ∃ k, (⟨r.level, some l.splitKey, r.upper⟩ : Region K).Holds k := by
    refine ⟨e.1, ?_, (hok.mem_region e (hmem_right e he)).2⟩
    intro a ha
    obtain rfl : l.splitKey = a := by simpa using ha
    exact hgt e he
  have hleftok : LeafOK c l.splitLeft ⟨r.level, r.lower, some l.splitKey⟩ := by
    refine ⟨hsl, hok.lower_eq, rfl, ?_, by omega⟩
    intro x hx
    refine ⟨(hok.mem_region x (hmem_left x hx)).1, ?_⟩
    intro b hb
    obtain rfl : l.splitKey = b := by simpa using hb
    exact hle x hx
  have hrightok : LeafOK c l.splitRight ⟨r.level, some l.splitKey, r.upper⟩ := by
    refine ⟨hsr, rfl, hok.upper_eq, ?_, by omega⟩
    intro x hx
    refine ⟨?_, (hok.mem_region x (hmem_right x hx)).2⟩
    intro a ha
    obtain rfl : l.splitKey = a := by simpa using ha
    exact hgt x hx
  rw [BTree.splitLeaf, if_pos hcount]
  exact inv.publish hG hparent hroom hsep hright (.of_leaf hr hleftok) (.of_leaf hr hrightok)

/-- `splitInner` keeps the invariant. -/
theorem TreeInv.splitInner (inv : TreeInv c entry h G root height) (hG : G cur = some r)
    {parent : PID} (hparent : IsParent h G entry root parent cur r)
    (hroom : parent ≠ entry → HasRoom c h parent) {n : Inner K} (hn : h.page cur = .inner n)
    (hfull : n.isFull c = true) :
    ∃ h' G' root' height', BTree.splitInner c entry h parent cur n = .ok h' ∧
      TreeInv c entry h' G' root' height' ∧ Grown entry parent root root' height height' ∧
      SplitEffect h h' G G' parent cur r n.splitKey (.inner n.splitLeft) (.inner n.splitRight) := by
  obtain ⟨lv, hlv, hok⟩ := inv.innerOK hG hn
  have hcap := c.five_le_inner
  have hcount : n.count = c.inner - 1 := by simpa [Inner.isFull] using hfull
  have hfour : 4 ≤ n.count := by omega
  have hmem := Inner.splitKey_eq hfour
  have hkey : n.splitKey ∈ n.keys := List.mem_of_getElem? hmem
  have hsep : r.Holds n.splitKey :=
    ⟨hok.shape.lower_lt _ hkey, fun b hb => le_of_lt (hok.shape.lt_upper _ hkey b hb)⟩
  have hleft_shape := Inner.splitLeft_shape hok.shape hfour
  have hright_shape := Inner.splitRight_shape hok.shape hfour
  -- the first separator of the right half lies above the one that moves up
  have hright : ∃ k, (⟨r.level, some n.splitKey, r.upper⟩ : Region K).Holds k := by
    obtain ⟨k, hk⟩ := List.exists_mem_of_length_pos hright_shape.keys_pos
    refine ⟨k, hright_shape.lower_lt k hk, ?_⟩
    intro b hb
    exact le_of_lt (hright_shape.lt_upper k hk b hb)
  have hleft_count : n.splitLeft.count ≤ c.inner - 1 := by
    simp only [Inner.count, Inner.splitLeft, List.length_take] at hcount ⊢
    omega
  have hright_count : n.splitRight.count ≤ c.inner - 1 := by
    simp only [Inner.count, Inner.splitRight, List.length_drop] at hcount ⊢
    omega
  refine inv.publish hG hparent hroom hsep hright (.of_inner hlv ⟨hleft_shape, hleft_count, ?_⟩)
    (.of_inner hlv ⟨hright_shape, hright_count, ?_⟩)
  · intro i child a b hslot
    exact hok.child_region _ _ _ _ (Inner.splitLeft_slot hfour hslot)
  · intro i child a b hslot
    exact hok.child_region _ _ _ _ (Inner.splitRight_slot hfour hslot)

end Split

end ScaleStore.BTree
