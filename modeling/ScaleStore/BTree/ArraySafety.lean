/-
# The tree stays inside its arrays

A descent goes from a page to the child whose range has the key, and comes to a leaf
whose range has it.  So every operation finds the nodes sound, and leaves them so.

`lookup`, and `lookup_opt` with a variable for the payload, read a payload before the
position is compared with `count`.  A full leaf whose keys are all below the one that
is looked up has no such payload.
-/

import ScaleStore.BTree.ArrayRegions

namespace ScaleStore.BTree.Arrays

open ScaleStore.Search (Cut)

variable {K V : Type} [LinearOrder K] {c : ArraySizes} {garbage : Garbage K V} {h : Heap K V}
  {G : Homes K} {root parent cur p q : PID} {height levels fuel : Nat} {r s : Home K}
  {n : BTreeInner K} {i : Nat} {k : K} {v : V}

/-! ## Descents -/

/-- A search in inner nodes leads to a child whose range fits if that of the node does. -/
def Guides (c : ArraySizes) (next : BTreeInner K → Traced Nat)
    (fits : FenceKey K → FenceKey K → Prop) : Prop :=
  ∀ n lower upper, n.Sound c lower upper → fits lower upper →
    (next n).Safe ∧ (next n).value ≤ n.count ∧
      fits (n.slotLower lower (next n).value) (n.slotUpper upper (next n).value)

theorem guides_lowerBound (k : K) :
    Guides c (fun n => lowerBound c.inner n.keys n.count k) (InRange · · k) := by
  intro n lower upper hn hk
  have hcut := hn.lowerBound_cut hk
  rw [value_lowerBound]
  exact ⟨safe_lowerBound k c.inner_pos hn.count_lt.le, hcut.le_count,
    BTreeInner.inRange_slot hcut hk⟩

theorem guides_lowerBoundBF (k : K) :
    Guides c (fun n => lowerBoundBF c.inner n.keys n.count k) (InRange · · k) := by
  intro n lower upper hn hk
  have hcut := hn.lowerBoundBF_cut hk
  rw [value_lowerBoundBF]
  exact ⟨safe_lowerBoundBF k c.inner_pos hn.count_lt.le, hcut.le_count,
    BTreeInner.inRange_slot hcut hk⟩

theorem guides_upperBound (k : K) :
    Guides c (fun n => upperBound c.inner n.keys n.count k) (InRangeAbove · · k) := by
  intro n lower upper hn hk
  have hcut := hn.upperBound_cut hk
  rw [value_upperBound]
  exact ⟨safe_upperBound k c.inner_pos hn.count_lt.le, hcut.le_count,
    BTreeInner.inRangeAbove_slot hcut hk⟩

section Step

variable {next : BTreeInner K → Traced Nat} {fits : FenceKey K → FenceKey K → Prop}

theorem Guides.step (hguides : Guides c next fits) (inv : TreeInv c h G root height)
    (hG : G cur = some r) (hn : h.page cur = .inner n) (hfits : fits r.lower r.upper) :
    (next n).Safe ∧ (next n).value < c.inner ∧ ∃ t, r.level = t.level + 1 ∧
      fits t.lower t.upper ∧ Hangs h G cur (n.children (next n).value) t r n (next n).value := by
  obtain ⟨level, _, hsound, _⟩ := inv.of_inner hG hn
  obtain ⟨hsafe, hle, hslot⟩ := hguides n _ _ hsound hfits
  obtain ⟨level, hlevel, hh⟩ := inv.hangs hG hn hle
  exact ⟨hsafe, hle.trans_lt hsound.count_lt, _, hlevel, hslot, hh⟩

/-- `cur` is the root, or it is found through its parent. -/
def Linked (h : Heap K V) (G : Homes K) (root : PID) (room : BTreeInner K → Prop) (parent cur : PID)
    (r : Home K) : Prop :=
  (parent = entryPage ∧ cur = root) ∨ ∃ s n i, Hangs h G parent cur r s n i ∧ room n

theorem descendType_spec (fuel : Nat) (hguides : Guides c next fits)
    (inv : TreeInv c h G root height)
    (hG : G cur = some r) (hfits : fits r.lower r.upper)
    (hlink : Linked h G root (fun _ => True) parent cur r) :
    (descendType c h next fuel parent cur).Safe ∧
      ∀ p q, (descendType c h next fuel parent cur).value = some (p, q) →
        ∃ t l, G q = some t ∧ h.page q = .leaf l ∧ fits t.lower t.upper ∧
          Linked h G root (fun _ => True) p q t := by
  induction fuel generalizing parent cur r with
  | zero => exact ⟨Traced.safe_pure _, fun p q hv => nomatch hv⟩
  | succ fuel ih =>
      unfold descendType
      rcases Nat.eq_zero_or_pos r.level with hlevel | hlevel
      · obtain ⟨l, hl, _⟩ := (inv.page_ok cur r hG).leaf hlevel
        rw [hl]
        refine ⟨Traced.safe_pure _, fun p q hv => ?_⟩
        obtain ⟨rfl, rfl⟩ := Prod.mk.inj (Option.some.inj hv)
        exact ⟨r, l, hG, hl, hfits, hlink⟩
      · obtain ⟨n, hn, _⟩ := (inv.page_ok cur r hG).inner (show r.level = r.level - 1 + 1 by omega)
        rw [hn]
        obtain ⟨hsafe, hlt, t, _, hfits', hh⟩ := hguides.step inv hG hn hfits
        obtain ⟨hsafe', hspec⟩ := ih hh.home hfits' (.inr ⟨r, n, _, hh, trivial⟩)
        simp only [Traced.safe_bind, Traced.value_bind, safe_readCell]
        exact ⟨⟨hsafe, hlt, hsafe'⟩, hspec⟩

end Step

theorem descendHeight_spec (inv : TreeInv c h G root height) (hG : G cur = some r)
    (hk : InRange r.lower r.upper k) (hlevel : r.level = levels) :
    (descendHeight c h k levels cur).Safe ∧
      ∃ q t, (descendHeight c h k levels cur).value = some q ∧ G q = some t ∧ t.level = 0 ∧
        InRange t.lower t.upper k := by
  induction levels generalizing cur r with
  | zero => exact ⟨Traced.safe_pure _, cur, r, rfl, hG, hlevel, hk⟩
  | succ levels ih =>
      unfold descendHeight
      obtain ⟨n, hn, _⟩ := (inv.page_ok cur r hG).inner hlevel
      rw [hn]
      obtain ⟨hsafe, hlt, t, hlevel', hk', hh⟩ := (guides_lowerBoundBF k).step inv hG hn hk
      obtain ⟨hsafe', hspec⟩ := ih hh.home hk' (by omega)
      simp only [Traced.safe_bind, Traced.value_bind, safe_readCell]
      exact ⟨⟨hsafe, hlt, hsafe'⟩, hspec⟩

/-- The leaf that is found for a key. -/
theorem findLeaf_spec (inv : TreeInv c h G root height) (k : K) :
    (findLeaf c h k).Safe ∧ ∃ q l t, (findLeaf c h k).value = some (q, l) ∧ G q = some t ∧
      h.page q = .leaf l ∧ t.level = 0 ∧ l.Sound c t.lower t.upper ∧ InRange t.lower t.upper k := by
  obtain ⟨hsafe, q, t, hvalue, hG, hlevel, hk⟩ :=
    descendHeight_spec (k := k) inv inv.root_home ⟨nofun, nofun⟩ rfl
  obtain ⟨l, hl, hsound⟩ := (inv.page_ok q t hG).leaf hlevel
  unfold findLeaf
  rw [inv.entry_page]
  simp only [Traced.safe_bind, Traced.value_bind, hvalue, hl]
  exact ⟨⟨hsafe, Traced.safe_pure _⟩, q, l, t, rfl, hG, hl, hlevel, hsound, hk⟩

/-- The descent of an insertion: the node below the parent is a leaf or is full, and all above it
have room. -/
theorem insertDescend_spec (inv : TreeInv c h G root height) (hG : G cur = some r)
    (hk : InRange r.lower r.upper k) (hlevel : r.level = levels)
    (hlink : Linked h G root (fun n => n.count < c.inner - 1) parent cur r) :
    (insertDescend c h k levels parent cur).Safe ∧
      ∃ bottom p q t, (insertDescend c h k levels parent cur).value = some (bottom, p, q) ∧
        G q = some t ∧ InRange t.lower t.upper k ∧
        Linked h G root (fun n => n.count < c.inner - 1) p q t ∧
        (bottom = true → t.level = 0) ∧
        (bottom = false → ∃ n, h.page q = .inner n ∧ n.isFull c = true) := by
  induction levels generalizing parent cur r with
  | zero =>
      exact ⟨Traced.safe_pure _, true, parent, cur, r, rfl, hG, hk, hlink, fun _ => hlevel, nofun⟩
  | succ levels ih =>
      unfold insertDescend
      obtain ⟨n, hn, hsound, _⟩ := (inv.page_ok cur r hG).inner hlevel
      rw [hn]
      cases hfull : n.isFull c with
      | true =>
          simp only [hfull, if_true]
          exact ⟨Traced.safe_pure _, false, parent, cur, r, rfl, hG, hk, hlink, nofun,
            fun _ => ⟨n, hn, hfull⟩⟩
      | false =>
          obtain ⟨hsafe, hlt, t, hlevel', hk', hh⟩ := (guides_lowerBoundBF k).step inv hG hn hk
          have hroom : n.count < c.inner - 1 := by
            have := hsound.count_le
            have : n.count ≠ c.inner - 1 := by simpa [BTreeInner.isFull] using hfull
            omega
          obtain ⟨hsafe', hspec⟩ := ih hh.home hk' (by omega) (.inr ⟨r, n, _, hh, hroom⟩)
          simp only [hfull, Bool.false_eq_true, if_false, Traced.safe_bind, Traced.value_bind,
            safe_readCell]
          exact ⟨⟨hsafe, hlt, hsafe'⟩, hspec⟩

/-! ## Lookups -/

/-- A lookup finds a payload wherever it ends up in the leaf. -/
def LookupFits (c : ArraySizes) (h : Heap K V) (k : K) : Prop :=
  match (findLeaf c h k).value with
  | some (_, l) => l.count = c.leaf ∨ c.leaf = 1 → k ≤ l.keys (c.leaf - 1)
  | none => True

theorem lookup_safe_iff (inv : TreeInv c h G root height) :
    (lookup c h k).Safe ↔ LookupFits c h k := by
  obtain ⟨hsafe, q, l, t, hvalue, _, _, _, hsound, _⟩ := findLeaf_spec inv k
  unfold lookup LookupFits
  simp only [Traced.safe_bind, hvalue, value_lowerBound, safe_readCell,
    hsound.lowerBound_lt_iff k, Traced.safe_ite, Traced.safe_pure, implies_true, and_true]
  exact ⟨fun hs => hs.2.2.1, fun hfits => ⟨hsafe, hsound.safe_lowerBound, hfits, hsound.safe_holds⟩⟩

theorem lookup_opt_safe (inv : TreeInv c h G root height) : (lookup_opt c h k).Safe := by
  obtain ⟨hsafe, q, l, t, hvalue, _, _, _, hsound, _⟩ := findLeaf_spec inv k
  unfold lookup_opt
  simp only [Traced.safe_bind, hvalue, value_lowerBound, safe_readCell, Traced.safe_ite,
    Traced.safe_pure, implies_true, and_true, BTreeLeaf.value_holds, decide_eq_true_eq]
  exact ⟨hsafe, hsound.safe_lowerBound, hsound.safe_holds, fun hfound =>
    hfound.1.trans_le hsound.count_le⟩

theorem lookupAndUpdate_spec (inv : TreeInv c h G root height) (callback : V → V) :
    (lookupAndUpdate c h k callback).Safe ∧
      TreeInv c (lookupAndUpdate c h k callback).value.1 G root height := by
  obtain ⟨hsafe, q, l, t, hvalue, hG, _, hlevel, hsound, _⟩ := findLeaf_spec inv k
  unfold lookupAndUpdate
  simp only [Traced.safe_bind, Traced.value_bind, hvalue, value_lowerBound, BTreeLeaf.value_holds]
  by_cases hfound : Search.lowerBound l.keys l.count k < l.count ∧
      l.keys (Search.lowerBound l.keys l.count k) = k
  · have hlt := hfound.1.trans_le hsound.count_le
    simp only [hfound, and_self, decide_true, if_true, Traced.safe_bind, safe_readCell,
      safe_writeCell, Traced.safe_pure, hlt, and_true]
    exact ⟨⟨hsafe, hsound.safe_lowerBound, hsound.safe_holds⟩,
      inv.set_leaf hG hlevel ⟨hsound.count_le, hsound.sorted, hsound.mem⟩⟩
  · simp only [hfound, decide_false, Bool.false_eq_true, if_false, Traced.safe_pure, and_true]
    exact ⟨⟨hsafe, hsound.safe_lowerBound, hsound.safe_holds⟩, inv⟩

/-! ## Insertions -/

/-- A tree whose pages are all in order. -/
def Heap.Sound (c : ArraySizes) (h : Heap K V) : Prop :=
  ∃ G root height, TreeInv c h G root height

section Insert

variable {l : BTreeLeaf K V} {left right : Page K V} {sep : K}

theorem publish_entry_safe_iff (hpage : h.page entryPage = .entry root height) :
    (publish c garbage h entryPage cur p sep).Safe ↔ 2 ≤ c.inner := by
  rw [publish, if_pos rfl, hpage]
  simp only [Traced.safe_bind, BTreeInner.makeRoot_safe_iff, Traced.safe_pure, and_true]

/-- The parent has room, or there is a new root. -/
theorem publish_spec (garbage : Garbage K V) (inv : TreeInv c h G root height) (hG : G cur = some r)
    (hlink : Linked h G root (fun n => n.count < c.inner - 1) parent cur r)
    (hcut : ∀ owner, Cut c G (splitHomes G cur h.next owner r sep) cur h.next r sep left right) :
    ((publish c garbage ((h.alloc right).set cur left) parent cur h.next sep).Safe ↔
        (parent = entryPage → 2 ≤ c.inner)) ∧
      ((publish c garbage ((h.alloc right).set cur left) parent cur h.next sep).Safe →
        (publish c garbage ((h.alloc right).set cur left) parent cur h.next sep
          ).value.1.Sound c) := by
  rcases hlink with ⟨rfl, rfl⟩ | ⟨s, n, i, hh, hroom⟩
  · obtain rfl := Option.some.inj (inv.root_home.symm.trans hG)
    have hpage : ((h.alloc right).set cur left).page entryPage = .entry cur height := by
      rw [Heap.set_page_of_ne _ _ (inv.ne_entry hG).symm, Heap.alloc_page_of_ne _ _ inv.entry_lt.ne]
      exact inv.entry_page
    have hiff : (publish c garbage ((h.alloc right).set cur left) entryPage cur h.next sep).Safe ↔
        2 ≤ c.inner := publish_entry_safe_iff hpage
    refine ⟨hiff.trans ⟨fun htwo _ => htwo, fun htwo => htwo rfl⟩, fun hsafe => ?_⟩
    obtain ⟨_, G', inv'⟩ := inv.publish_root garbage (hiff.mp hsafe) (hcut _)
    exact ⟨G', _, _, inv'⟩
  · obtain ⟨hsafe, inv'⟩ := inv.publish_inner garbage hh hroom (hcut _)
    exact ⟨⟨fun _ heq => absurd heq (inv.ne_entry hh.parent_home), fun _ => hsafe⟩,
      fun _ => ⟨_, _, _, inv'⟩⟩

theorem splitLeaf_spec (garbage : Garbage K V) (inv : TreeInv c h G root height)
    (hG : G cur = some r)
    (hlink : Linked h G root (fun n => n.count < c.inner - 1) parent cur r)
    (hl : h.page cur = .leaf l) (hfull : l.isFull c = true) :
    ((splitLeaf c garbage h parent cur l).Safe ↔ 2 ≤ c.leaf ∧ (parent = entryPage → 2 ≤ c.inner)) ∧
      ((splitLeaf c garbage h parent cur l).Safe →
        (splitLeaf c garbage h parent cur l).value.1.Sound c) := by
  have hcount : l.count = c.leaf := by simpa [BTreeLeaf.isFull] using hfull
  have hiff := BTreeLeaf.split_safe_iff (garbage.leaf h.next) hcount
  unfold splitLeaf
  rw [Traced.safe_bind, Traced.value_bind, hiff]
  by_cases htwo : 2 ≤ c.leaf
  · obtain ⟨hsafe, hspec⟩ := publish_spec garbage inv hG hlink fun owner =>
      (inv.cut_leaf hG (garbage.leaf h.next) hl hfull htwo _).2
    exact ⟨and_congr_right fun _ => hsafe, fun hs => hspec hs.2⟩
  · exact ⟨iff_of_false (fun hs => htwo hs.1) (fun hs => htwo hs.1), fun hs => absurd hs.1 htwo⟩

theorem splitInner_spec (garbage : Garbage K V) (inv : TreeInv c h G root height)
    (hG : G cur = some r)
    (hlink : Linked h G root (fun n => n.count < c.inner - 1) parent cur r)
    (hn : h.page cur = .inner n) (hfull : n.isFull c = true) :
    ((splitInner c garbage h parent cur n).Safe ↔ 3 ≤ c.inner) ∧
      ((splitInner c garbage h parent cur n).Safe →
        (splitInner c garbage h parent cur n).value.1.Sound c) := by
  have hcount : n.count = c.inner - 1 := by simpa [BTreeInner.isFull] using hfull
  have hiff := BTreeInner.split_safe_iff (garbage.inner h.next) hcount
  unfold splitInner
  rw [Traced.safe_bind, Traced.value_bind, hiff]
  by_cases hthree : 3 ≤ c.inner
  · obtain ⟨hsafe, hspec⟩ := publish_spec garbage inv hG hlink fun owner =>
      (inv.cut_inner hG (garbage.inner h.next) hn hfull hthree owner).2
    exact ⟨⟨fun hs => hs.1, fun _ => ⟨hthree, hsafe.mpr fun _ => by omega⟩⟩, fun hs => hspec hs.2⟩
  · exact ⟨iff_of_false (fun hs => hthree hs.1) hthree, fun hs => absurd hs.1 hthree⟩

theorem insertTarget_spec (inv : TreeInv c h G root height) (k : K) :
    (insertTarget c h k).Safe ∧
      ∃ bottom p q t, (insertTarget c h k).value = some (bottom, p, q) ∧
        G q = some t ∧ InRange t.lower t.upper k ∧
        Linked h G root (fun n => n.count < c.inner - 1) p q t ∧
        (bottom = true → t.level = 0) ∧
        (bottom = false → ∃ n, h.page q = .inner n ∧ n.isFull c = true) := by
  unfold insertTarget
  rw [inv.entry_page]
  exact insertDescend_spec inv inv.root_home ⟨nofun, nofun⟩ rfl (.inl ⟨rfl, rfl⟩)

/-- The arrays are large enough for the split that an insertion comes to. -/
def InsertFits (c : ArraySizes) (h : Heap K V) (k : K) : Prop :=
  match (insertTarget c h k).value with
  | some (false, _, _) => 3 ≤ c.inner
  | some (true, parent, cur) =>
      match h.page cur with
      | .leaf l => l.isFull c = true → 2 ≤ c.leaf ∧ (parent = entryPage → 2 ≤ c.inner)
      | _ => True
  | none => True

theorem insertRound_spec (garbage : Garbage K V) (inv : TreeInv c h G root height) (k : K) (v : V) :
    ((insertRound c garbage h k v).Safe ↔ InsertFits c h k) ∧
      ((insertRound c garbage h k v).Safe → (insertRound c garbage h k v).value.1.Sound c) := by
  obtain ⟨hsafe, bottom, p, q, t, hvalue, hG, hk, hlink, hleaf, hinner⟩ := insertTarget_spec inv k
  unfold insertRound InsertFits
  rw [Traced.safe_bind, Traced.value_bind, hvalue]
  cases bottom with
  | false =>
      obtain ⟨n, hn, hfull⟩ := hinner rfl
      obtain ⟨hiff, hsound⟩ := splitInner_spec garbage inv hG hlink hn hfull
      simp only [hn]
      exact ⟨(and_iff_right hsafe).trans hiff, fun hs => hsound hs.2⟩
  | true =>
      obtain ⟨l, hl, hsound⟩ := (inv.page_ok q t hG).leaf (hleaf rfl)
      simp only [hl]
      cases hfull : l.isFull c with
      | true =>
          obtain ⟨hiff, hsound'⟩ := splitLeaf_spec garbage inv hG hlink hl hfull
          simp only [if_true]
          exact ⟨(and_iff_right hsafe).trans (hiff.trans ⟨fun hs _ => hs, fun hs => hs trivial⟩),
            fun hs => hsound' hs.2⟩
      | false =>
          have hroom : l.count < c.leaf := by
            have := hsound.count_le
            have : l.count ≠ c.leaf := by simpa [BTreeLeaf.isFull] using hfull
            omega
          obtain ⟨hsafe', hsound'⟩ := hsound.insert (p := v) hroom hk
          simp only [Bool.false_eq_true, if_false, Traced.safe_bind, Traced.value_bind,
            Traced.safe_pure, and_true]
          exact ⟨iff_of_true ⟨hsafe, hsafe'⟩ (fun hfalse => by cases hfalse),
            fun _ => ⟨G, root, height, inv.set_leaf hG (hleaf rfl) hsound'⟩⟩

end Insert

/-! ## Removals -/

section Remove

variable {l right : BTreeLeaf K V} {t : Home K}

theorem removeFrom_spec (inv : TreeInv c h G root height) (hG : G cur = some r)
    (hl : h.page cur = .leaf l) :
    (removeFrom c h k cur l).Safe ∧ (removeFrom c h k cur l).value.1.Sound c := by
  obtain ⟨hlevel, hsound⟩ := inv.of_leaf hG hl
  obtain ⟨hsafe, hsound'⟩ := hsound.remove (k := k)
  exact ⟨Traced.safe_bind.mpr ⟨hsafe, Traced.safe_pure _⟩,
    G, root, height, inv.set_leaf hG hlevel hsound'⟩

/-- The leaf and its neighbour fit into one another, also with regard to their ranges. -/
theorem merge_sound (inv : TreeInv c h G root height) (hh : Hangs h G parent cur r s n i)
    (hh' : Hangs h G parent q t s n (i + 1)) (hl : h.page cur = .leaf l)
    (hright : h.page q = .leaf right) (hfit : l.count + right.count < c.leaf) :
    (l.merge c right).Safe ∧ (l.merge c right).value.Sound c r.lower t.upper := by
  obtain ⟨_, hlower, hupper, _⟩ := inv.hangs_home hh
  obtain ⟨_, hlower', hupper', _⟩ := inv.hangs_home hh'
  obtain ⟨_, _, hn, _⟩ := inv.of_inner hh.parent_home hh.parent_page
  obtain ⟨_, hsound⟩ := inv.of_leaf hh.home hl
  obtain ⟨_, hsound'⟩ := inv.of_leaf hh'.home hright
  have hlt : i < n.count := hh'.le_count
  rw [hupper, BTreeInner.slotUpper, if_pos hlt] at hsound
  rw [hlower', BTreeInner.slotLower, if_neg (Nat.succ_ne_zero i)] at hsound'
  refine hsound.merge hsound' hfit (fun a ha => ?_) fun b hb => ?_
  · rw [hlower, BTreeInner.slotLower] at ha
    split at ha
    · exact hn.lower_lt i hlt a ha
    · obtain rfl := Option.some.inj ha
      exact hn.sorted _ _ (by omega) hlt
  · rw [hupper', BTreeInner.slotUpper] at hb
    split at hb
    · obtain rfl := Option.some.inj hb
      exact hn.sorted _ _ (by omega) ‹_›
    · exact hn.lt_upper i hlt b hb

theorem mergeAndRemove_spec (inv : TreeInv c h G root height) (hh : Hangs h G parent cur r s n i)
    (hk : InRange r.lower r.upper k) (hl : h.page cur = .leaf l) :
    (mergeAndRemove c h k parent cur l).Safe ∧
      (mergeAndRemove c h k parent cur l).value.1.Sound c := by
  obtain ⟨_, hlower, hupper, _⟩ := inv.hangs_home hh
  obtain ⟨level, hslevel, hn, _⟩ := inv.of_inner hh.parent_home hh.parent_page
  obtain ⟨hrlevel, _⟩ := inv.of_leaf hh.home hl
  have hsearch : Search.lowerBound n.keys n.count k = i := by
    rw [hlower, hupper] at hk
    exact (hn.lowerBound_cut (hn.inRange_of_slot hh.le_count hk)).unique
      (hn.cut_of_inRange hh.le_count hk)
  have hcut : (lowerBound c.inner n.keys n.count k).Safe :=
    safe_lowerBound k c.inner_pos hn.count_lt.le
  have hremove := removeFrom_spec (k := k) inv hh.home hl
  unfold mergeAndRemove
  simp only [hh.parent_page, Traced.safe_bind, Traced.value_bind, value_lowerBound, hsearch]
  by_cases hmerge : 2 ≤ n.count ∧ i + 1 < n.count
  · obtain ⟨level, hslevel', hh'⟩ := inv.hangs hh.parent_home hh.parent_page hmerge.2.le
    obtain ⟨right, hright, _⟩ := (inv.page_ok _ _ hh'.home).leaf
      (show level = 0 by have := (inv.hangs_home hh).1; omega)
    simp only [hmerge, and_self, if_true, Traced.safe_bind, Traced.value_bind, safe_readCell,
      hright]
    by_cases hfit : l.count + right.count ≥ c.leaf
    · simp only [hfit, if_true]
      exact ⟨⟨hcut, hmerge.2.trans hn.count_lt, hremove.1⟩, hremove.2⟩
    · obtain ⟨hsafe, hmerged⟩ := merge_sound inv hh hh' hl hright (not_le.mp hfit)
      obtain ⟨hsafe', hremoved⟩ := BTreeInner.remove_spec hn.count_lt (Nat.lt_of_succ_lt hmerge.2)
      obtain ⟨hsafe'', hsound⟩ := hmerged.remove (k := k)
      have inv' := inv.merge hh hh' hrlevel hremoved hmerge.1 hsound
      simp only [hfit, if_false, Traced.safe_bind, Traced.value_bind]
      exact ⟨⟨hcut, hmerge.2.trans hn.count_lt, hsafe, hsafe',
        Traced.safe_bind.mpr ⟨hsafe'', Traced.safe_pure _⟩⟩, _, root, height, inv'⟩
  · simp only [hmerge, if_false]
    exact ⟨⟨hcut, hremove.1⟩, hremove.2⟩

theorem removeRound_spec (inv : TreeInv c h G root height) (k : K) (fuel : Nat) :
    (removeRound c h k fuel).Safe ∧ (removeRound c h k fuel).value.1.Sound c := by
  obtain ⟨hsafe, hspec⟩ := descendType_spec fuel (guides_lowerBound k) inv inv.root_home
    ⟨nofun, nofun⟩ (.inl ⟨rfl, rfl⟩)
  unfold removeRound
  rw [inv.entry_page]
  simp only [Traced.safe_bind, Traced.value_bind]
  cases hvalue : (descendType c h (fun n => lowerBound c.inner n.keys n.count k) fuel entryPage
      root).value with
  | none => exact ⟨⟨hsafe, Traced.safe_pure _⟩, G, root, height, inv⟩
  | some found =>
      obtain ⟨p, q⟩ := found
      obtain ⟨t, l, hG, hl, hk, hlink⟩ := hspec p q hvalue
      simp only [hl]
      split
      case isTrue hcond =>
        rcases hlink with ⟨heq, _⟩ | ⟨s, n, i, hh, _⟩
        · exact absurd heq hcond.2
        · have hmerge := mergeAndRemove_spec inv hh hk hl
          exact ⟨⟨hsafe, hmerge.1⟩, hmerge.2⟩
      case isFalse =>
        have hremove := removeFrom_spec (k := k) inv hG hl
        exact ⟨⟨hsafe, hremove.1⟩, hremove.2⟩

end Remove

/-! ## Scans -/

section Scan

variable {l : BTreeLeaf K V} {lower upper : FenceKey K} {func : Callback K V} {rounds it : Nat}
  {seen : List (K × V)}

omit [LinearOrder K] in
theorem visit_safe (hit : it < c.leaf) : (visit c l it seen).Safe := by
  simp only [visit, Traced.safe_bind, safe_readCell, Traced.safe_pure, and_true]
  exact ⟨hit, hit⟩

omit [LinearOrder K] in
theorem ascLoop_safe (hcount : l.count ≤ c.leaf) (hit : it ≤ l.count) :
    (ascLoop c func l rounds it seen).Safe := by
  induction rounds generalizing it seen with
  | zero => exact Traced.safe_pure _
  | succ rounds ih =>
      simp only [ascLoop, Traced.safe_ite, Traced.safe_bind, Traced.safe_pure, implies_true,
        true_and, and_true]
      intro hne
      exact ⟨visit_safe (by omega), fun _ => ih (by omega)⟩

omit [LinearOrder K] in
theorem descLoop_safe (hit : it < c.leaf) : (descLoop c func l it seen).Safe := by
  induction it generalizing seen with
  | zero => exact Traced.safe_bind.mpr ⟨visit_safe hit, Traced.safe_pure _⟩
  | succ it ih =>
      simp only [descLoop, Traced.safe_ite, Traced.safe_bind, Traced.safe_pure, implies_true,
        and_true]
      exact ⟨visit_safe hit, fun _ => ih (by omega)⟩

theorem ascScan_safe (hl : l.Sound c lower upper) : (ascScan c k func l seen).Safe := by
  simp only [ascScan, Traced.safe_ite, Traced.safe_bind, Traced.safe_pure, implies_true, true_and,
    and_true, value_lowerBound]
  exact fun hcount => ⟨hl.safe_lowerBound, ascLoop_safe hl.count_le (hl.cut hcount).le_count⟩

theorem descScan_safe (hl : l.Sound c lower upper) : (descScan c k func l seen).Safe := by
  simp only [descScan, Traced.safe_ite, Traced.safe_bind, Traced.safe_pure, implies_true, true_and,
    and_true, value_lowerBound, safe_readCell]
  intro hcount
  have hle := hl.count_le
  generalize Search.lowerBound l.keys l.count k = bound
  have hit : (if bound ≥ l.count then l.count - 1 else bound) < c.leaf := by
    split <;> omega
  generalize (if bound ≥ l.count then l.count - 1 else bound) = it at hit ⊢
  refine ⟨hl.safe_lowerBound, hit, fun _ => descLoop_safe ?_⟩
  split <;> omega

/-- A traversal that is not the first goes to the right of the separator that it was left with. -/
theorem guides_nextNode (k : K) (dir : Direction) (isFirstTraversal : Bool) :
    ∃ fits, Guides c (nextNode c k dir isFirstTraversal) fits ∧ fits none none := by
  cases dir with
  | desc => exact ⟨_, guides_lowerBound k, nofun, nofun⟩
  | asc =>
      cases isFirstTraversal with
      | true => exact ⟨_, guides_lowerBound k, nofun, nofun⟩
      | false => exact ⟨_, guides_upperBound k, nofun, nofun⟩

theorem scanRound_safe (inv : TreeInv c h G root height) (dir : Direction)
    (isFirstTraversal : Bool) : (scanRound c h k func dir isFirstTraversal fuel seen).Safe := by
  obtain ⟨fits, hguides, hfits⟩ := guides_nextNode (c := c) k dir isFirstTraversal
  obtain ⟨hsafe, hspec⟩ := descendType_spec fuel hguides inv inv.root_home hfits
    (.inl ⟨rfl, rfl⟩)
  unfold scanRound
  rw [inv.entry_page]
  rw [Traced.safe_bind]
  refine ⟨hsafe, ?_⟩
  cases hvalue :
      (descendType c h (nextNode c k dir isFirstTraversal) fuel entryPage root).value with
  | none => exact Traced.safe_pure _
  | some found =>
      obtain ⟨p, q⟩ := found
      obtain ⟨t, l, hG, hl, _⟩ := hspec p q hvalue
      obtain ⟨_, hsound⟩ := inv.of_leaf hG hl
      simp only [hl]
      cases dir with
      | asc => exact Traced.safe_map.mpr (ascScan_safe hsound)
      | desc => exact Traced.safe_map.mpr (descScan_safe hsound)

end Scan

/-! ## Runs -/

/-- The condition on the tree before a round. -/
def Fits (c : ArraySizes) (h : Heap K V) : Action K V → Prop
  | .insert k _ => InsertFits c h k
  | .lookup k => LookupFits c h k
  | _ => True

theorem round_spec {action : Action K V} (hh : h.Sound c) :
    ((round c garbage h action).Safe ↔ Fits c h action) ∧
      ((round c garbage h action).Safe → (round c garbage h action).value.Sound c) := by
  obtain ⟨G, root, height, inv⟩ := hh
  cases action with
  | insert k v =>
      obtain ⟨hiff, hsound⟩ := insertRound_spec garbage inv k v
      exact ⟨Traced.safe_map.trans hiff, fun hs => hsound (Traced.safe_map.mp hs)⟩
  | remove k fuel =>
      obtain ⟨hsafe, hsound⟩ := removeRound_spec inv k fuel
      exact ⟨iff_of_true (Traced.safe_map.mpr hsafe) trivial, fun _ => hsound⟩
  | lookup k =>
      exact ⟨Traced.safe_map.trans (lookup_safe_iff inv), fun _ => ⟨G, root, height, inv⟩⟩
  | lookup_opt k =>
      exact ⟨iff_of_true (Traced.safe_map.mpr (lookup_opt_safe inv)) trivial,
        fun _ => ⟨G, root, height, inv⟩⟩
  | lookupAndUpdate k callback =>
      obtain ⟨hsafe, inv'⟩ := lookupAndUpdate_spec (k := k) inv callback
      exact ⟨iff_of_true (Traced.safe_map.mpr hsafe) trivial, fun _ => ⟨G, root, height, inv'⟩⟩
  | scan k dir isFirstTraversal func fuel seen =>
      exact ⟨iff_of_true (Traced.safe_map.mpr (scanRound_safe inv dir isFirstTraversal)) trivial,
        fun _ => ⟨G, root, height, inv⟩⟩

theorem run_concat (c : ArraySizes) (garbage : Garbage K V) (actions : List (Action K V))
    (action : Action K V) :
    run c garbage (actions ++ [action]) = (run c garbage actions).after c garbage action :=
  List.foldl_concat ..

/-- As long as all accesses are inside, the tree is sound. -/
theorem run_spec (c : ArraySizes) (garbage : Garbage K V) (actions : List (Action K V)) :
    ((∀ access ∈ (run c garbage actions).accesses, access.Inside) ↔
        ∀ done action, done ++ [action] <+: actions → Fits c (run c garbage done).heap action) ∧
      ((∀ access ∈ (run c garbage actions).accesses, access.Inside) →
        (run c garbage actions).heap.Sound c) := by
  induction actions using List.reverseRecOn with
  | nil =>
      refine ⟨iff_of_true (fun _ hmem => nomatch hmem) fun done action hpre => ?_,
        fun _ => ⟨_, _, _, treeInv_create c garbage⟩⟩
      exact absurd (List.prefix_nil.mp hpre) (List.append_ne_nil_of_right_ne_nil _ nofun)
  | append_singleton actions action ih =>
      obtain ⟨hiff, hsound⟩ := ih
      rw [run_concat]
      have hsplit : (∀ access ∈ ((run c garbage actions).after c garbage action).accesses,
          access.Inside) ↔ (∀ access ∈ (run c garbage actions).accesses, access.Inside) ∧
            (round c garbage (run c garbage actions).heap action).Safe := List.forall_mem_append
      rw [hsplit]
      refine ⟨⟨fun ⟨hold, hnew⟩ done action' hpre => ?_, fun hfits => ?_⟩,
        fun ⟨hold, hnew⟩ => (round_spec (hsound hold)).2 hnew⟩
      · rcases List.prefix_concat_iff.mp hpre with heq | hpre'
        · obtain ⟨rfl, hlast⟩ := List.append_inj' heq rfl
          obtain rfl := List.singleton_inj.mp hlast
          exact (round_spec (hsound hold)).1.mp hnew
        · exact hiff.mp hold done action' hpre'
      · have hold := hiff.mpr fun done action' hpre =>
          hfits done action' (hpre.trans (List.prefix_append ..))
        exact ⟨hold, (round_spec (hsound hold)).1.mpr (hfits _ _ List.prefix_rfl)⟩

/-- The accesses of a run are inside exactly if every round finds what it needs. -/
theorem accesses_inside_iff (c : ArraySizes) (garbage : Garbage K V)
    (actions : List (Action K V)) :
    (∀ access ∈ (run c garbage actions).accesses, access.Inside) ↔
      ∀ done action, done ++ [action] <+: actions → Fits c (run c garbage done).heap action :=
  (run_spec c garbage actions).1

/-- The sizes for keys of 8 bytes and payloads of 224. -/
def smallSizes : ArraySizes := ⟨2, 29, by decide, by decide, by decide, by decide⟩

def zeros : Garbage Nat Nat :=
  ⟨fun _ => ⟨none, none, 0, fun _ => 0, fun _ => 0⟩,
    fun _ => ⟨none, none, 0, fun _ => 0, fun _ => 0⟩⟩

/-- The leaf is full, and the key that is looked up is behind its last one. -/
theorem lookup_outside : ¬ ∀ access ∈ (run smallSizes zeros
    [.insert 1 10, .insert 2 20, .lookup 3]).accesses, access.Inside := by
  decide

end ScaleStore.BTree.Arrays
