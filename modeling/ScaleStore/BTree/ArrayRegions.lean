/-
# Where the pages of a tree hang

Every page of the tree has a level, the key range it is responsible for, and an
owner: the page whose child it is.  An owner is unique, so that a split or a merge
concerns no other page than the ones that it writes.

A round keeps this, and a node is sound for its range.
-/

import ScaleStore.BTree.NodeBounds
import ScaleStore.BTree.TreeArrays

namespace ScaleStore.BTree.Arrays

variable {K V : Type} [LinearOrder K]

/-- Level (leaves are at 0), key range `(lower, upper]` and owner of a page. -/
@[ext] structure Home (K : Type) where
  level : Nat
  lower : FenceKey K
  upper : FenceKey K
  owner : PID

/-- The pages of the tree with their homes. -/
abbrev Homes (K : Type) := PID → Option (Home K)

/-- What holds of the page `pid`. -/
def PageOK (c : ArraySizes) (G : Homes K) (pid : PID) (r : Home K) (p : Page K V) : Prop :=
  match r.level, p with
  | 0, .leaf l => l.Sound c r.lower r.upper
  | level + 1, .inner n => n.Sound c r.lower r.upper ∧
      n.Children r.lower r.upper fun q a b => G q = some ⟨level, a, b, pid⟩
  | _, _ => False

structure TreeInv (c : ArraySizes) (h : Heap K V) (G : Homes K) (root : PID) (height : Nat) :
    Prop where
  entry_page : h.page entryPage = .entry root height
  entry_free : G entryPage = none
  root_home : G root = some ⟨height, none, none, entryPage⟩
  page_ok : ∀ pid r, G pid = some r → PageOK c G pid r (h.page pid)
  lt_next : ∀ pid r, G pid = some r → pid < h.next
  entry_lt : entryPage < h.next

/-- `cur` is the `i`-th child of `parent`. -/
structure Hangs (h : Heap K V) (G : Homes K) (parent cur : PID) (r s : Home K) (n : BTreeInner K)
    (i : Nat) : Prop where
  parent_home : G parent = some s
  parent_page : h.page parent = .inner n
  le_count : i ≤ n.count
  child : n.children i = cur
  home : G cur = some r

section Basic

variable {c : ArraySizes} {h : Heap K V} {G : Homes K} {root pid parent cur : PID} {height : Nat}
  {r s : Home K} {n : BTreeInner K} {i : Nat}

theorem PageOK.leaf {p : Page K V} (hp : PageOK c G pid r p) (hlevel : r.level = 0) :
    ∃ l, p = .leaf l ∧ l.Sound c r.lower r.upper := by
  unfold PageOK at hp
  cases p <;> simp_all

theorem PageOK.inner {p : Page K V} {level : Nat} (hp : PageOK c G pid r p)
    (hlevel : r.level = level + 1) :
    ∃ n, p = .inner n ∧ n.Sound c r.lower r.upper ∧
      n.Children r.lower r.upper fun q a b => G q = some ⟨level, a, b, pid⟩ := by
  unfold PageOK at hp
  cases p <;> simp_all

theorem PageOK.of_leaf {l : BTreeLeaf K V} (hl : l.Sound c r.lower r.upper) (hlevel : r.level = 0) :
    PageOK c G pid r (.leaf l) := by
  unfold PageOK
  rw [hlevel]
  exact hl

theorem PageOK.of_inner {level : Nat} (hn : n.Sound c r.lower r.upper)
    (hchildren : n.Children r.lower r.upper fun q a b => G q = some ⟨level, a, b, pid⟩)
    (hlevel : r.level = level + 1) : PageOK c G pid r (.inner n : Page K V) := by
  unfold PageOK
  rw [hlevel]
  exact ⟨hn, hchildren⟩

/-- A page stays in order if nothing happens to the homes of its children. -/
theorem PageOK.frame {G' : Homes K} {p : Page K V} (hp : PageOK c G pid r p)
    (hsame : ∀ q t, G q = some t → t.owner = pid → G' q = G q) : PageOK c G' pid r p := by
  rcases Nat.eq_zero_or_pos r.level with hlevel | hlevel
  · obtain ⟨l, rfl, hl⟩ := hp.leaf hlevel
    exact .of_leaf hl hlevel
  · obtain ⟨level, hlevel⟩ : ∃ level, r.level = level + 1 := ⟨r.level - 1, by omega⟩
    obtain ⟨n, rfl, hn, hchildren⟩ := hp.inner hlevel
    exact .of_inner hn (fun i hi => (hsame _ _ (hchildren i hi) rfl).trans (hchildren i hi)) hlevel

/-- The owner of a page does not matter for it. -/
theorem PageOK.home {t : Home K} {p : Page K V} (hp : PageOK c G pid r p)
    (hlevel : t.level = r.level) (hlower : t.lower = r.lower) (hupper : t.upper = r.upper) :
    PageOK c G pid t p := by
  unfold PageOK at hp ⊢
  rw [hlevel, hlower, hupper]
  exact hp

namespace TreeInv

variable (inv : TreeInv c h G root height)

include inv

theorem of_leaf {l : BTreeLeaf K V} (hG : G pid = some r) (hl : h.page pid = .leaf l) :
    r.level = 0 ∧ l.Sound c r.lower r.upper := by
  have hp := inv.page_ok pid r hG
  rw [hl] at hp
  rcases Nat.eq_zero_or_pos r.level with hlevel | hlevel
  · obtain ⟨l', heq, hl'⟩ := hp.leaf hlevel
    cases heq
    exact ⟨hlevel, hl'⟩
  · obtain ⟨n, heq, _⟩ := hp.inner (show r.level = (r.level - 1) + 1 by omega)
    cases heq

theorem of_inner (hG : G pid = some r) (hn : h.page pid = .inner n) :
    ∃ level, r.level = level + 1 ∧ n.Sound c r.lower r.upper ∧
      n.Children r.lower r.upper fun q a b => G q = some ⟨level, a, b, pid⟩ := by
  have hp := inv.page_ok pid r hG
  rw [hn] at hp
  rcases Nat.eq_zero_or_pos r.level with hlevel | hlevel
  · obtain ⟨l', heq, _⟩ := hp.leaf hlevel
    cases heq
  · obtain ⟨n', heq, hrest⟩ := hp.inner (show r.level = (r.level - 1) + 1 by omega)
    cases heq
    exact ⟨r.level - 1, by omega, hrest⟩

theorem ne_entry (hG : G pid = some r) : pid ≠ entryPage := by
  rintro rfl
  rw [inv.entry_free] at hG
  cases hG

theorem ne_next (hG : G pid = some r) : pid ≠ h.next := (inv.lt_next pid r hG).ne

/-- The home of a child. -/
theorem hangs (hG : G parent = some s) (hn : h.page parent = .inner n) (hi : i ≤ n.count) :
    ∃ level, s.level = level + 1 ∧ Hangs h G parent (n.children i)
      ⟨level, n.slotLower s.lower i, n.slotUpper s.upper i, parent⟩ s n i := by
  obtain ⟨level, hlevel, _, hchildren⟩ := inv.of_inner hG hn
  exact ⟨level, hlevel, hG, hn, hi, rfl, hchildren i hi⟩

theorem hangs_home (hh : Hangs h G parent cur r s n i) : s.level = r.level + 1 ∧
    r.lower = n.slotLower s.lower i ∧ r.upper = n.slotUpper s.upper i ∧ r.owner = parent := by
  obtain ⟨level, hlevel, hh'⟩ := inv.hangs hh.parent_home hh.parent_page hh.le_count
  have hhome := hh'.home
  rw [hh.child, hh.home] at hhome
  obtain rfl := Option.some.inj hhome
  exact ⟨hlevel, rfl, rfl, rfl⟩

/-- Different positions of a node hold different pages. -/
theorem hangs_inj (hh : Hangs h G parent cur r s n i) {j : Nat} (hj : j ≤ n.count)
    (heq : n.children j = cur) : j = i := by
  obtain ⟨_, _, hh'⟩ := inv.hangs hh.parent_home hh.parent_page hj
  have hhome := hh'.home
  rw [heq, hh.home] at hhome
  obtain ⟨_, _, hupper, _⟩ := inv.hangs_home hh
  rw [Option.some.inj hhome] at hupper
  obtain ⟨_, _, hsound, _⟩ := inv.of_inner hh.parent_home hh.parent_page
  have hle := hh.le_count
  change n.slotUpper s.upper j = n.slotUpper s.upper i at hupper
  unfold BTreeInner.slotUpper at hupper
  rcases Nat.lt_trichotomy j i with hlt | rfl | hlt
  · rw [if_pos (by omega)] at hupper
    split at hupper
    · exact absurd (Option.some.inj hupper) (hsound.sorted j i hlt ‹_›).ne
    · exact absurd rfl (hsound.lt_upper j (by omega) _ hupper.symm).ne
  · rfl
  · rw [if_pos (show i < n.count by omega)] at hupper
    split at hupper
    · exact absurd (Option.some.inj hupper) (hsound.sorted i j hlt ‹_›).ne'
    · exact absurd rfl (hsound.lt_upper i (by omega) _ hupper).ne

theorem hangs_ne (hh : Hangs h G parent cur r s n i) : parent ≠ cur := by
  rintro rfl
  obtain ⟨hlevel, _⟩ := inv.hangs_home hh
  rw [Option.some.inj (hh.parent_home.symm.trans hh.home)] at hlevel
  omega

theorem hangs_ne_root (hh : Hangs h G parent cur r s n i) : root ≠ cur := by
  rintro rfl
  obtain ⟨_, _, _, howner⟩ := inv.hangs_home hh
  rw [← Option.some.inj (inv.root_home.symm.trans hh.home)] at howner
  exact inv.ne_entry hh.parent_home howner.symm

/-- Writing a leaf that is sound for its range. -/
theorem set_leaf {l : BTreeLeaf K V} (hG : G pid = some r) (hlevel : r.level = 0)
    (hl : l.Sound c r.lower r.upper) : TreeInv c (h.set pid (.leaf l)) G root height where
  entry_page := by
    rw [h.set_page_of_ne _ (inv.ne_entry hG).symm]
    exact inv.entry_page
  entry_free := inv.entry_free
  root_home := inv.root_home
  page_ok q t hq := by
    by_cases heq : q = pid
    · subst heq
      obtain rfl : r = t := Option.some.inj (hG.symm.trans hq)
      rw [h.set_page_self]
      exact .of_leaf hl hlevel
    · rw [h.set_page_of_ne _ heq]
      exact inv.page_ok q t hq
  lt_next := inv.lt_next
  entry_lt := inv.entry_lt

end TreeInv

end Basic

/-! ## Splits -/

/-- The homes after a split of `cur`, whose right half is `new`; the children of the right half
belong to it. -/
def splitHomes (G : Homes K) (cur new owner : PID) (r : Home K) (sep : K) : Homes K := fun q =>
  if q = cur then some ⟨r.level, r.lower, some sep, owner⟩
  else if q = new then some ⟨r.level, some sep, r.upper, owner⟩
  else (G q).map fun t =>
    if t.owner = cur ∧ t.lower.any (fun a => decide (sep ≤ a)) then { t with owner := new } else t

section Split

variable {c : ArraySizes} {h : Heap K V} {G : Homes K}
  {root parent cur new owner q : PID} {height : Nat} {r s t : Home K} {n : BTreeInner K} {i : Nat}
  {sep : K}

theorem splitHomes_cur :
    splitHomes G cur new owner r sep cur = some ⟨r.level, r.lower, some sep, owner⟩ := if_pos rfl

theorem splitHomes_new (hne : new ≠ cur) :
    splitHomes G cur new owner r sep new = some ⟨r.level, some sep, r.upper, owner⟩ := by
  rw [splitHomes, if_neg hne, if_pos rfl]

/-- Who is not a child of `cur` stays where it is. -/
theorem splitHomes_other (hG : G q = some t) (hcur : q ≠ cur) (hnew : q ≠ new)
    (howner : t.owner ≠ cur) : splitHomes G cur new owner r sep q = some t := by
  rw [splitHomes, if_neg hcur, if_neg hnew, hG, Option.map_some, if_neg (fun h => howner h.1)]

theorem splitHomes_left (hG : G q = some t) (hcur : q ≠ cur) (hnew : q ≠ new)
    (hlower : ∀ a ∈ t.lower, a < sep) : splitHomes G cur new owner r sep q = some t := by
  rw [splitHomes, if_neg hcur, if_neg hnew, hG, Option.map_some, if_neg]
  rintro ⟨_, hany⟩
  obtain ⟨a, ha, hle⟩ := (Option.any_eq_true ..).mp hany
  exact absurd (of_decide_eq_true hle) (not_le.mpr (hlower a ha))

theorem splitHomes_right (hG : G q = some t) (hcur : q ≠ cur) (hnew : q ≠ new)
    (howner : t.owner = cur) {a : K} (ha : t.lower = some a) (hle : sep ≤ a) :
    splitHomes G cur new owner r sep q = some { t with owner := new } := by
  rw [splitHomes, if_neg hcur, if_neg hnew, hG, Option.map_some, if_pos]
  exact ⟨howner, (Option.any_eq_true ..).mpr ⟨a, ha, decide_eq_true hle⟩⟩

/-- What a split has made of the page `cur`, before anybody knows of the new one. -/
structure Cut (c : ArraySizes) (G G' : Homes K) (cur new : PID) (r : Home K) (sep : K)
    (left right : Page K V) : Prop where
  inRange : InRange r.lower r.upper sep
  lt_upper : ∀ b ∈ r.upper, sep < b
  left_ok : ∀ owner, PageOK c G' cur ⟨r.level, r.lower, some sep, owner⟩ left
  right_ok : ∀ owner, PageOK c G' new ⟨r.level, some sep, r.upper, owner⟩ right

theorem TreeInv.cut_leaf (inv : TreeInv c h G root height) (hG : G cur = some r)
    {l : BTreeLeaf K V} (fresh : BTreeLeaf K V) (hl : h.page cur = .leaf l)
    (hfull : l.isFull c = true)
    (htwo : 2 ≤ c.leaf) (G' : Homes K) :
    (l.split c fresh).Safe ∧ Cut (V := V) c G G' cur new r (l.split c fresh).value.2.2
      (.leaf (l.split c fresh).value.1) (.leaf (l.split c fresh).value.2.1) := by
  obtain ⟨hlevel, hsound⟩ := inv.of_leaf hG hl
  obtain ⟨hsafe, hrange, hlt, hleft, hright⟩ :=
    hsound.split fresh (by simpa [BTreeLeaf.isFull] using hfull) htwo
  exact ⟨hsafe, hrange, hlt, fun _ => .of_leaf hleft hlevel, fun _ => .of_leaf hright hlevel⟩

/-- The children of an inner node that is split get the half that they fall into as owner. -/
theorem TreeInv.cut_inner (inv : TreeInv c h G root height) (hG : G cur = some r)
    (fresh : BTreeInner K) (hn : h.page cur = .inner n) (hfull : n.isFull c = true)
    (hthree : 3 ≤ c.inner) (owner : PID) :
    (n.split c fresh).Safe ∧
      Cut (V := V) c G (splitHomes G cur h.next owner r (n.split c fresh).value.2.2) cur h.next r
        (n.split c fresh).value.2.2 (.inner (n.split c fresh).value.1)
        (.inner (n.split c fresh).value.2.1) := by
  obtain ⟨level, hlevel, hsound, hchildren⟩ := inv.of_inner hG hn
  have hcount : n.count = c.inner - 1 := by simpa [BTreeInner.isFull] using hfull
  have htwo : 2 ≤ n.count := by omega
  obtain ⟨hsafe, hh⟩ := BTreeInner.split_spec fresh hcount hthree
  obtain ⟨hrange, hlt, hleft, hright⟩ := hh.sound hsound htwo
  have hleftcount := hh.left_count
  have hrightcount := hh.right_count
  have hsep := hh.sep_eq
  generalize (n.split c fresh).value.1 = left at *
  generalize (n.split c fresh).value.2.1 = right at *
  generalize (n.split c fresh).value.2.2 = sep at *
  -- a child lies one level below, so it is neither half
  have hne : ∀ j, j ≤ n.count → n.children j ≠ cur ∧ n.children j ≠ h.next := by
    intro j hj
    have hhome := hchildren j hj
    refine ⟨fun heq => ?_, inv.ne_next hhome⟩
    rw [heq, hG] at hhome
    have := congrArg Home.level (Option.some.inj hhome)
    simp only at this
    omega
  refine ⟨hsafe, hrange, hlt, fun _ => .of_inner hleft (fun j hj => ?_) hlevel,
    fun _ => .of_inner hright (fun j hj => ?_) hlevel⟩
  · obtain ⟨hchild, hlower, hupper⟩ := hh.left_slot r.lower r.upper htwo hj
    have hj' : j ≤ n.count := by omega
    rw [hchild, hlower, hupper]
    refine splitHomes_left (hchildren j hj') (hne j hj').1 (hne j hj').2 fun a ha => ?_
    change a ∈ n.slotLower r.lower j at ha
    unfold BTreeInner.slotLower at ha
    split at ha
    · exact hrange.1 a ha
    · obtain rfl := Option.some.inj ha
      rw [hsep]
      exact hsound.sorted _ _ (by omega) (by omega)
  · obtain ⟨hchild, hlower, hupper⟩ := hh.right_slot r.lower r.upper hj
    have hj' : left.count + 1 + j ≤ n.count := by omega
    rw [hchild, hlower, hupper]
    refine splitHomes_right (hchildren _ hj') (hne _ hj').1 (hne _ hj').2 rfl
      (a := n.keys (left.count + 1 + j - 1)) ?_ ?_
    · show n.slotLower r.lower (left.count + 1 + j) = _
      rw [BTreeInner.slotLower, if_neg (by omega)]
    · rw [hsep]
      rcases Nat.eq_zero_or_pos j with rfl | hpos
      · exact le_of_eq (congrArg n.keys (by omega))
      · exact (hsound.sorted _ _ (by omega) (by omega)).le

/-- The pages that a split does not write. -/
theorem TreeInv.split_others (inv : TreeInv c h G root height) (hG : G cur = some r)
    (howner : r.owner = parent) (hq : G q = some t) (hcur : q ≠ cur) (hparent : q ≠ parent) :
    PageOK c (splitHomes G cur h.next owner r sep) q t (h.page q) := by
  refine (inv.page_ok q t hq).frame fun x u hx hu => ?_
  rw [hx]
  refine splitHomes_other hx ?_ (inv.ne_next hx) (hu ▸ hcur)
  rintro rfl
  rw [hG] at hx
  obtain rfl := Option.some.inj hx
  exact hparent (hu.symm.trans howner)

theorem splitHomes_lt (inv : TreeInv c h G root height) (hG : G cur = some r)
    (hq : splitHomes G cur h.next owner r sep q = some t) : q ≤ h.next := by
  unfold splitHomes at hq
  split at hq
  · rename_i heq
    exact heq ▸ (inv.lt_next _ _ hG).le
  · split at hq
    · rename_i heq
      exact heq.le
    · obtain ⟨u, hu, _⟩ := Option.map_eq_some_iff.mp hq
      exact (inv.lt_next _ _ hu).le

/-- A home after a split is that of a half, or an old one, possibly with the new owner. -/
theorem splitHomes_cases (hq : splitHomes G cur new owner r sep q = some t) :
    q = cur ∨ q = new ∨ ∃ u, G q = some u ∧ t.level = u.level ∧ t.lower = u.lower ∧
      t.upper = u.upper := by
  unfold splitHomes at hq
  split at hq
  · exact .inl ‹_›
  · split at hq
    · exact .inr (.inl ‹_›)
    · obtain ⟨u, hu, heq⟩ := Option.map_eq_some_iff.mp hq
      refine .inr (.inr ⟨u, hu, ?_⟩)
      split at heq <;> subst heq <;> exact ⟨rfl, rfl, rfl⟩

/-- The pages after a split, but for the parent. -/
theorem TreeInv.split_pages (inv : TreeInv c h G root height) (hG : G cur = some r)
    (howner : r.owner = parent) {left right : Page K V}
    (hcut : Cut c G (splitHomes G cur h.next owner r sep) cur h.next r sep left right)
    (hparent : q ≠ parent) (hq : splitHomes G cur h.next owner r sep q = some t) :
    PageOK c (splitHomes G cur h.next owner r sep) q t
      (((h.alloc right).set cur left).page q) := by
  have hne := inv.ne_next hG
  by_cases hcur : q = cur
  · subst hcur
    rw [splitHomes_cur] at hq
    obtain rfl := Option.some.inj hq
    rw [Heap.set_page_self]
    exact hcut.left_ok owner
  · rw [Heap.set_page_of_ne _ _ hcur]
    by_cases hnew : q = h.next
    · subst hnew
      rw [splitHomes_new hne.symm] at hq
      obtain rfl := Option.some.inj hq
      rw [Heap.alloc_page_self]
      exact hcut.right_ok owner
    · rw [Heap.alloc_page_of_ne _ _ hnew]
      obtain ⟨u, hu, hlevel, hlower, hupper⟩ :=
        ((splitHomes_cases hq).resolve_left hcur).resolve_left hnew
      exact (inv.split_others hG howner hu hcur hparent).home hlevel hlower hupper

theorem TreeInv.publish_inner (inv : TreeInv c h G root height) (garbage : Garbage K V)
    (hh : Hangs h G parent cur r s n i) (hroom : n.count < c.inner - 1) {left right : Page K V}
    (hcut : Cut c G (splitHomes G cur h.next parent r sep) cur h.next r sep left right) :
    (publish c garbage ((h.alloc right).set cur left) parent cur h.next sep).Safe ∧
      TreeInv c (publish c garbage ((h.alloc right).set cur left) parent cur h.next sep).value.1
        (splitHomes G cur h.next parent r sep) root height := by
  obtain ⟨hlevel, hlower, hupper, howner⟩ := inv.hangs_home hh
  have hpe := inv.ne_entry hh.parent_home
  have hce := inv.ne_entry hh.home
  have hpn := inv.ne_next hh.parent_home
  have hcn := inv.ne_next hh.home
  have hpc := inv.hangs_ne hh
  obtain ⟨level, hslevel, hsound, hchildren⟩ := inv.of_inner hh.parent_home hh.parent_page
  have hinrange : InRange (n.slotLower s.lower i) (n.slotUpper s.upper i) sep := by
    rw [← hlower, ← hupper]
    exact hcut.inRange
  have hlt : ∀ b ∈ n.slotUpper s.upper i, sep < b := by
    rw [← hupper]
    exact hcut.lt_upper
  obtain ⟨hsafe, n', hvalue, hins⟩ :=
    hsound.insert h.next hroom hh.le_count hinrange
  have hpage : ((h.alloc right).set cur left).page parent = .inner n := by
    rw [Heap.set_page_of_ne _ _ hpc, Heap.alloc_page_of_ne _ _ hpn]
    exact hh.parent_page
  have hresult : publish c garbage ((h.alloc right).set cur left) parent cur h.next sep =
      ⟨(((h.alloc right).set cur left).set parent (.inner n'), .restart),
        (n.insert c sep h.next).accesses ++ []⟩ := by
    rw [publish, if_neg hpe, hpage]
    show Traced.mk _ _ = _
    simp only [hvalue]
    rfl
  rw [hresult]
  refine ⟨?_, ?_⟩
  · intro access hmem
    exact hsafe access (by simpa using hmem)
  have hroot := inv.hangs_ne_root hh
  constructor
  case entry_page =>
    rw [Heap.set_page_of_ne _ _ hpe.symm, Heap.set_page_of_ne _ _ hce.symm,
      Heap.alloc_page_of_ne _ _ inv.entry_lt.ne]
    exact inv.entry_page
  case entry_free =>
    rw [splitHomes, if_neg hce.symm, if_neg inv.entry_lt.ne, inv.entry_free]
    rfl
  case root_home => exact splitHomes_other inv.root_home hroot (inv.ne_next inv.root_home) hce.symm
  case page_ok =>
    intro q t hq
    by_cases hqp : q = parent
    · subst hqp
      obtain ⟨u, hu, hl, hlo, hup⟩ := ((splitHomes_cases hq).resolve_left hpc).resolve_left hpn
      obtain rfl : s = u := Option.some.inj (hh.parent_home.symm.trans hu)
      rw [Heap.set_page_self]
      refine (PageOK.of_inner (hins.sound hsound hroom hh.le_count hinrange hlt)
        (hins.forall_children hh.le_count (fun j hj hne => ?_) ?_ ?_) hslevel).home hl hlo hup
      · refine splitHomes_other (hchildren j hj) (fun heq => hne (inv.hangs_inj hh hj heq))
          (inv.ne_next (hchildren j hj)) hpc
      · rw [hh.child, splitHomes_cur, ← hlower]
        exact congrArg some (Home.ext (by simp only; omega) rfl rfl rfl)
      · rw [splitHomes_new hcn.symm, ← hupper]
        exact congrArg some (Home.ext (by simp only; omega) rfl rfl rfl)
    · rw [Heap.set_page_of_ne _ _ hqp]
      exact inv.split_pages hh.home howner hcut hqp hq
  case lt_next => exact fun q t hq => Nat.lt_succ_of_le (splitHomes_lt inv hh.home hq)
  case entry_lt => exact Nat.lt_succ_of_lt inv.entry_lt

theorem TreeInv.publish_root (inv : TreeInv c h G root height) (garbage : Garbage K V)
    (htwo : 2 ≤ c.inner)
    {left right : Page K V}
    (hcut : Cut c G (splitHomes G root h.next (h.next + 1) ⟨height, none, none, entryPage⟩ sep)
      root h.next ⟨height, none, none, entryPage⟩ sep left right) :
    (publish c garbage ((h.alloc right).set root left) entryPage root h.next sep).Safe ∧
      ∃ G', TreeInv c
        (publish c garbage ((h.alloc right).set root left) entryPage root h.next sep).value.1 G'
        (h.next + 1) (height + 1) := by
  have hre := inv.ne_entry inv.root_home
  have hrn := inv.ne_next inv.root_home
  have hentry := inv.entry_lt
  have hpage : ((h.alloc right).set root left).page entryPage = .entry root height := by
    rw [Heap.set_page_of_ne _ _ hre.symm, Heap.alloc_page_of_ne _ _ hentry.ne]
    exact inv.entry_page
  obtain ⟨hsafe, hsound, hchildren⟩ := BTreeInner.makeRoot_spec (c := c) (k := sep)
    (garbage.inner (h.next + 1)) root h.next htwo
  have hresult : publish c garbage ((h.alloc right).set root left) entryPage root h.next sep =
      ⟨((((h.alloc right).set root left).alloc (.inner (BTreeInner.makeRoot c
          (garbage.inner (h.next + 1)) sep root h.next).value)).set entryPage
          (.entry (h.next + 1) (height + 1)), .restart),
        (BTreeInner.makeRoot c (garbage.inner (h.next + 1)) sep root h.next).accesses ++ []⟩ := by
    rw [publish, if_pos rfl, hpage]
    rfl
  rw [hresult]
  generalize (BTreeInner.makeRoot c (garbage.inner (h.next + 1)) sep root h.next).value = node at *
  refine ⟨fun access hmem => hsafe access (by simpa using hmem), ?_⟩
  have hlt : ∀ q t, splitHomes G root h.next (h.next + 1) ⟨height, none, none, entryPage⟩ sep q =
      some t → q < h.next + 1 := fun q t hq =>
    Nat.lt_succ_of_le (splitHomes_lt inv inv.root_home hq)
  refine ⟨Function.update
    (splitHomes G root h.next (h.next + 1) ⟨height, none, none, entryPage⟩ sep)
    (h.next + 1) (some ⟨height + 1, none, none, entryPage⟩), ?_⟩
  have hroot : root ≠ h.next + 1 := (hlt _ _ splitHomes_cur).ne
  have hentry' : entryPage < h.next + 1 := Nat.lt_succ_of_lt hentry
  have hnext : h.next ≠ h.next + 1 := (Nat.lt_succ_self _).ne
  constructor
  case entry_page => exact Heap.set_page_self ..
  case entry_free =>
    rw [Function.update_of_ne hentry'.ne, splitHomes, if_neg hre.symm, if_neg hentry.ne,
      inv.entry_free]
    rfl
  case root_home => exact Function.update_self ..
  case page_ok =>
    intro q t hq
    by_cases hqr : q = h.next + 1
    · subst hqr
      rw [Function.update_self] at hq
      obtain rfl := Option.some.inj hq
      rw [Heap.set_page_of_ne _ _ hentry'.ne']
      have halloc := Heap.alloc_page_self ((h.alloc right).set root left) (.inner node)
      change (((h.alloc right).set root left).alloc (.inner node)).page (h.next + 1) = _ at halloc
      rw [halloc]
      refine .of_inner hsound (hchildren _ ?_ ?_) rfl
      · rw [Function.update_of_ne hroot]
        exact splitHomes_cur
      · rw [Function.update_of_ne hnext]
        exact splitHomes_new hrn.symm
    · rw [Function.update_of_ne hqr] at hq
      have hqe : q ≠ entryPage := by
        rintro rfl
        rw [splitHomes, if_neg hre.symm, if_neg hentry.ne, inv.entry_free] at hq
        cases hq
      have hsame := Heap.alloc_page_of_ne ((h.alloc right).set root left) (.inner node)
        (show q ≠ ((h.alloc right).set root left).next from hqr)
      rw [Heap.set_page_of_ne _ _ hqe, hsame]
      refine (inv.split_pages inv.root_home rfl hcut hqe hq).frame fun x u hx _ => ?_
      exact Function.update_of_ne (hlt x u hx).ne ..
  case lt_next =>
    intro q t hq
    by_cases hqr : q = h.next + 1
    · subst hqr
      exact Nat.lt_succ_self _
    · rw [Function.update_of_ne hqr] at hq
      exact Nat.lt_succ_of_lt (hlt q t hq)
  case entry_lt => exact Nat.lt_succ_of_lt hentry'

end Split

/-! ## Merges -/

/-- The homes after the leaf `right` has been merged into `cur`, its neighbour. -/
def mergeHomes (G : Homes K) (cur right : PID) (r : Home K) : Homes K := fun q =>
  if q = cur then some r else if q = right then none else G q

section Merge

variable {c : ArraySizes} {h : Heap K V} {G : Homes K} {root parent cur right q : PID}
  {height : Nat} {r s t u : Home K} {n n' : BTreeInner K} {i : Nat}

omit [LinearOrder K] in
theorem mergeHomes_cur : mergeHomes G cur right r cur = some r := if_pos rfl

omit [LinearOrder K] in
theorem mergeHomes_other (hcur : q ≠ cur) (hright : q ≠ right) :
    mergeHomes G cur right r q = G q := by
  rw [mergeHomes, if_neg hcur, if_neg hright]

theorem TreeInv.merge (inv : TreeInv c h G root height) (hh : Hangs h G parent cur r s n i)
    (hh' : Hangs h G parent right t s n (i + 1)) (hlevel : r.level = 0)
    (hrem : BTreeInner.Removed n n' i)
    (htwo : 2 ≤ n.count) {l : BTreeLeaf K V} (hl : l.Sound c r.lower t.upper) :
    TreeInv c (((h.set parent (.inner n')).set right .unmapped).set cur (.leaf l))
      (mergeHomes G cur right ⟨0, r.lower, t.upper, parent⟩) root height := by
  obtain ⟨hslevel, hlower, _, howner⟩ := inv.hangs_home hh
  obtain ⟨_, _, hupper', howner'⟩ := inv.hangs_home hh'
  obtain ⟨level, hslevel', hsound, hchildren⟩ := inv.of_inner hh.parent_home hh.parent_page
  obtain rfl : level = 0 := by omega
  have hpc := inv.hangs_ne hh
  have hpr := inv.hangs_ne hh'
  have hle := hh'.le_count
  constructor
  case entry_page =>
    rw [Heap.set_page_of_ne _ _ (inv.ne_entry hh.home).symm,
      Heap.set_page_of_ne _ _ (inv.ne_entry hh'.home).symm,
      Heap.set_page_of_ne _ _ (inv.ne_entry hh.parent_home).symm]
    exact inv.entry_page
  case entry_free =>
    rw [mergeHomes_other (inv.ne_entry hh.home).symm (inv.ne_entry hh'.home).symm]
    exact inv.entry_free
  case root_home =>
    rw [mergeHomes_other (inv.hangs_ne_root hh) (inv.hangs_ne_root hh')]
    exact inv.root_home
  case page_ok =>
    intro q u hq
    by_cases hcur : q = cur
    · subst hcur
      rw [mergeHomes_cur] at hq
      obtain rfl := Option.some.inj hq
      rw [Heap.set_page_self]
      exact .of_leaf hl rfl
    by_cases hright : q = right
    · subst hright
      rw [mergeHomes, if_neg hcur, if_pos rfl] at hq
      cases hq
    rw [mergeHomes_other hcur hright] at hq
    rw [Heap.set_page_of_ne _ _ hcur, Heap.set_page_of_ne _ _ hright]
    by_cases hparent : q = parent
    · subst hparent
      obtain rfl := Option.some.inj (hh.parent_home.symm.trans hq)
      rw [Heap.set_page_self]
      refine .of_inner (hrem.sound hsound htwo)
        (hrem.forall_children (by omega) (fun j hj hne hne' => ?_) ?_) hslevel'
      · rw [mergeHomes_other (fun heq => hne (inv.hangs_inj hh hj heq))
          (fun heq => hne' (inv.hangs_inj hh' hj heq))]
        exact hchildren j hj
      · rw [hh.child, mergeHomes_cur, ← hlower, ← hupper']
    · rw [Heap.set_page_of_ne _ _ hparent]
      refine (inv.page_ok q u hq).frame fun x v hx hv => mergeHomes_other ?_ ?_
      · rintro rfl
        obtain rfl := Option.some.inj (hh.home.symm.trans hx)
        exact hparent (hv.symm.trans howner)
      · rintro rfl
        obtain rfl := Option.some.inj (hh'.home.symm.trans hx)
        exact hparent (hv.symm.trans howner')
  case lt_next =>
    intro q u hq
    by_cases hcur : q = cur
    · exact hcur ▸ inv.lt_next cur r hh.home
    by_cases hright : q = right
    · exact hright ▸ inv.lt_next right t hh'.home
    rw [mergeHomes_other hcur hright] at hq
    exact inv.lt_next q u hq
  case entry_lt => exact inv.entry_lt

end Merge

/-- A new tree is an empty leaf. -/
theorem treeInv_create (c : ArraySizes) (garbage : Garbage K V) :
    TreeInv c (create garbage) (fun q => if q = entryPage + 1 then some ⟨0, none, none, entryPage⟩
      else none) (entryPage + 1) 0 where
  entry_page := by
    rw [create, Heap.alloc_page_of_ne _ _
      (show entryPage ≠ entryPage + 1 from (Nat.lt_succ_self _).ne)]
    exact Heap.alloc_page_self ..
  entry_free := if_neg (Nat.lt_succ_self _).ne
  root_home := if_pos rfl
  page_ok q r hq := by
    by_cases heq : q = entryPage + 1
    · subst heq
      rw [if_pos rfl] at hq
      obtain rfl := Option.some.inj hq
      refine PageOK.of_leaf (l := { garbage.leaf (entryPage + 1) with
        lower := none, upper := none, count := 0 }) ?_ rfl
      exact ⟨Nat.zero_le _, fun i j _ hj => absurd hj (Nat.not_lt_zero j),
        fun i hi => absurd hi (Nat.not_lt_zero i)⟩
    · rw [if_neg heq] at hq
      cases hq
  lt_next q r hq := by
    by_cases heq : q = entryPage + 1
    · exact heq ▸ Nat.lt_succ_self _
    · rw [if_neg heq] at hq
      cases hq
  entry_lt := Nat.lt_succ_of_lt (Nat.lt_succ_self _)

end ScaleStore.BTree.Arrays
