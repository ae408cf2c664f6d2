/-
# What a worker knows about shared pages

A worker on its way down knows something about a page only for as long as the
page has the version it has remembered; about a page it has latched it knows
something until it gives the latch back.  Both kinds of knowledge survive what
other workers do, since nobody changes a page that another worker has latched, and
whoever latches a page moves its version on.

The memory comes with a ghost: the map the tree stores, the layout of its pages,
and the *claims*.  A worker claims a page when it holds the latch of the page above
and has found the page itself unlatched, at the version it remembers; all that is
left to do is to latch it.  Claims are what orders the waits for latches.
-/

import ScaleStore.BTree.Attempts
import ScaleStore.BTree.Structure

namespace ScaleStore.BTree

structure Ghost (T K V : Type) [LinearOrder K] where
  map : OrderedMap K V
  layout : Layout K
  claim : PID → Option T

/-- What can be known about a page: its contents and its place in the tree. -/
abbrev PageFact (K V : Type) := Page K V → Option (Region K) → Prop

section Leads

variable {K V : Type}

/-- The page `parent` makes `child` a page of the tree, with region `r`. -/
def Leads (parent : PID) (page : Page K V) (region : Option (Region K)) (child : PID)
    (r : Region K) : Prop :=
  (parent = entryPage ∧ ∃ height, page = .entry child height ∧ r = ⟨height, none, none⟩) ∨
    ∃ s n i, region = some s ∧ page = .inner n ∧ s.level = r.level + 1 ∧
      n.Slot s.lower s.upper i child r.lower r.upper

variable [LinearOrder K] {c : Capacity} {h : Heap K V} {G : Layout K} {root : PID} {height : Nat}
  {parent child : PID} {r : Region K}

theorem TreeInv.leads (inv : TreeInv c entryPage h G root height)
    (hleads : Leads parent (h.page parent) (G parent) child r) :
    G child = some r ∧ IsParent h G entryPage root parent child r := by
  rcases hleads with ⟨rfl, height', hpage, rfl⟩ | ⟨s, n, i, hs, hn, hlevel, hslot⟩
  · rw [inv.entry_page] at hpage
    obtain ⟨rfl, rfl⟩ := Page.entry.inj hpage
    exact ⟨inv.root_region, .inl ⟨rfl, rfl⟩⟩
  · obtain ⟨level, hlevel', hok⟩ := inv.innerOK hs hn
    have hchild := hok.child_region _ _ _ _ hslot
    obtain rfl : level = r.level := by omega
    exact ⟨hchild, .inr ⟨s, n, i, hs, hlevel, hn, hslot⟩⟩

theorem TreeInv.leads_of_isParent (inv : TreeInv c entryPage h G root height)
    (hG : G child = some r) (hparent : IsParent h G entryPage root parent child r) :
    Leads parent (h.page parent) (G parent) child r := by
  rcases hparent with ⟨rfl, rfl⟩ | ⟨s, n, i, hs, hlevel, hn, hslot⟩
  · rw [inv.root_region] at hG
    exact .inl ⟨rfl, height, inv.entry_page, (Option.some.inj hG).symm⟩
  · exact .inr ⟨s, n, i, hs, hn, hlevel, hslot⟩

/-- A page hangs below one page only. -/
theorem TreeInv.leads_unique (inv : TreeInv c entryPage h G root height) {q : PID} {r' : Region K}
    (hp : Leads parent (h.page parent) (G parent) child r)
    (hq : Leads q (h.page q) (G q) child r') : parent = q := by
  obtain ⟨hG, hp⟩ := inv.leads hp
  obtain ⟨hG', hq⟩ := inv.leads hq
  obtain rfl : r = r' := Option.some.inj (hG.symm.trans hG')
  -- nothing lies above the root
  have hroot : ∀ s, s.level = r.level + 1 → ∀ p, G p = some s → child ≠ root := by
    rintro s hlevel p hs rfl
    rw [inv.root_region] at hG
    obtain rfl := Option.some.inj hG
    have := inv.level_le p s hs
    simp only at hlevel
    omega
  rcases hp with ⟨rfl, hr⟩ | ⟨s, n, i, hs, hlevel, hn, hslot⟩ <;>
    rcases hq with ⟨rfl, hr'⟩ | ⟨s', n', i', hs', hlevel', hn', hslot'⟩
  · rfl
  · exact absurd hr (hroot s' hlevel' _ hs')
  · exact absurd hr' (hroot s hlevel _ hs)
  · exact inv.parent_unique hs hs' hn hn' hslot hslot'

theorem TreeInv.leads_ne (inv : TreeInv c entryPage h G root height)
    (hleads : Leads parent (h.page parent) (G parent) child r) : parent ≠ child := by
  obtain ⟨hG, hp⟩ := inv.leads hleads
  rcases hp with ⟨rfl, -⟩ | ⟨s, n, i, hs, hlevel, hn, hslot⟩
  · exact (inv.ne_entry hG).symm
  · rintro rfl
    obtain rfl := Option.some.inj (hs.symm.trans hG)
    omega

theorem TreeInv.leads_lt (inv : TreeInv c entryPage h G root height)
    (hleads : Leads parent (h.page parent) (G parent) child r) : parent < h.next := by
  rcases hleads with ⟨rfl, -⟩ | ⟨s, n, i, hs, -⟩
  · exact inv.entry_lt
  · exact inv.lt_next parent s hs

end Leads

section Knowledge

variable {T K V : Type} [LinearOrder K]

/-! ## Pages and ghost -/

structure Consistent (c : Capacity) (m : Pages T K V) (g : Ghost T K V) : Prop where
  tree : ∃ root height, TreeInv c entryPage m.heap g.layout root height
  abstracts : Abstracts m.heap g.layout g.map
  /-- Shared and exclusive latches exclude each other. -/
  latches : ∀ pid t, t ∈ m.sharers pid → m.holder pid = none
  /-- A claimed page hangs below one that the claimant holds. -/
  claims : ∀ pid t, g.claim pid = some t → ∃ parent r, m.holder parent = some t ∧
    Leads parent (m.heap.page parent) (g.layout parent) pid r

/-- The page, and its place in the tree, are still the same. -/
def Untouched (m : Pages T K V) (g : Ghost T K V) (m' : Pages T K V) (g' : Ghost T K V)
    (pid : PID) : Prop :=
  m'.heap.page pid = m.heap.page pid ∧ g'.layout pid = g.layout pid

/-- What worker `t` may count on when others have done something. -/
structure Rely (t : T) (m : Pages T K V) (g : Ghost T K V) (m' : Pages T K V)
    (g' : Ghost T K V) : Prop where
  next_le : m.heap.next ≤ m'.heap.next
  version_le : ∀ pid, m.version pid ≤ m'.version pid
  unlatched : ∀ pid, m'.version pid = m.version pid → m.holder pid = none →
    m'.holder pid = none ∧ Untouched m g m' g' pid
  holder_iff : ∀ pid, m'.holder pid = some t ↔ m.holder pid = some t
  sharers_iff : ∀ pid, t ∈ m'.sharers pid ↔ t ∈ m.sharers pid
  held : ∀ pid, m.holder pid = some t → pid < m.heap.next → Untouched m g m' g' pid
  shared : ∀ pid, t ∈ m.sharers pid → pid < m.heap.next → Untouched m g m' g' pid
  /-- Inner nodes stay, at their level. -/
  inner : ∀ pid r, g.layout pid = some r → 1 ≤ r.level →
    ∃ r', g'.layout pid = some r' ∧ r'.level = r.level
  claim_iff : ∀ pid, g'.claim pid = some t ↔ g.claim pid = some t
  /-- A page is not claimed while it is latched. -/
  unclaimed : ∀ pid, m.holder pid = some t → g.claim pid = none → g'.claim pid = none

structure Know (K V : Type) where
  optimistic : List (OptimisticGuard × PageFact K V)
  /-- The pages held, the one latched last in front; about a page that was latched without a look
  at the tree nothing is known. -/
  exclusive : List (PID × Option (PageFact K V))
  shared : List (PID × Option (PageFact K V))
  /-- Pages that have been handed out. -/
  mapped : List PID
  inner : List PID
  claims : List PID
  unclaimed : List PID

def Know.nothing : Know K V := ⟨[], [], [], [], [], [], []⟩

/-- The latches are those listed, and what is known of the pages under them is true. -/
structure KnowsLatched (latched : List (PID × Option (PageFact K V))) (has : PID → Prop)
    (m : Pages T K V) (g : Ghost T K V) : Prop where
  iff : ∀ pid, has pid ↔ pid ∈ latched.map Prod.fst
  nodup : (latched.map Prod.fst).Nodup
  fact : ∀ pid fact, (pid, some fact) ∈ latched →
    pid < m.heap.next ∧ fact (m.heap.page pid) (g.layout pid)

structure Knows (k : Know K V) (t : T) (m : Pages T K V) (g : Ghost T K V) : Prop where
  optimistic : ∀ og fact, (og, fact) ∈ k.optimistic → og.vAcquired ≤ m.version og.pid ∧
    (m.version og.pid = og.vAcquired → m.holder og.pid = none ∧
      fact (m.heap.page og.pid) (g.layout og.pid))
  exclusive : KnowsLatched k.exclusive (fun pid => m.holder pid = some t) m g
  shared : KnowsLatched k.shared (fun pid => t ∈ m.sharers pid) m g
  mapped : ∀ pid ∈ k.mapped, pid < m.heap.next
  inner : ∀ pid ∈ k.inner, pid = entryPage ∨ ∃ r, g.layout pid = some r ∧ 1 ≤ r.level
  claim_iff : ∀ pid, g.claim pid = some t ↔ pid ∈ k.claims
  unclaimed : ∀ pid ∈ k.unclaimed, m.holder pid = some t ∧ g.claim pid = none

section Stable

variable {m m' : Pages T K V} {g g' : Ghost T K V} {t : T} {k : Know K V}

theorem KnowsLatched.stable {latched : List (PID × Option (PageFact K V))} {has has' : PID → Prop}
    (h : KnowsLatched latched has m g) (hiff : ∀ pid, has' pid ↔ has pid)
    (hnext : m.heap.next ≤ m'.heap.next)
    (hsame : ∀ pid, has pid → pid < m.heap.next → Untouched m g m' g' pid) :
    KnowsLatched latched has' m' g' := by
  refine ⟨fun pid => (hiff pid).trans (h.iff pid), h.nodup, fun pid fact hmem => ?_⟩
  obtain ⟨hlt, hfact⟩ := h.fact pid fact hmem
  obtain ⟨hpage, hlayout⟩ := hsame pid ((h.iff pid).mpr (List.mem_map_of_mem hmem)) hlt
  rw [hpage, hlayout]
  exact ⟨hlt.trans_le hnext, hfact⟩

/-- Others cannot make wrong what a worker knows. -/
theorem Knows.stable (hrely : Rely t m g m' g') (h : Knows k t m g) : Knows k t m' g' := by
  refine ⟨fun og fact hmem => ?_, ?_, ?_,
    fun pid hmem => (h.mapped pid hmem).trans_le hrely.next_le,
    fun pid hmem => ?_, fun pid => ?_, fun pid hmem => ?_⟩
  · obtain ⟨hle, hfact⟩ := h.optimistic og fact hmem
    refine ⟨hle.trans (hrely.version_le _), fun hversion => ?_⟩
    have hold : m.version og.pid = og.vAcquired :=
      le_antisymm (hversion ▸ hrely.version_le og.pid) hle
    obtain ⟨hholder, hfact⟩ := hfact hold
    obtain ⟨hholder', hpage, hlayout⟩ :=
      hrely.unlatched og.pid (hversion.trans hold.symm) hholder
    rw [hpage, hlayout]
    exact ⟨hholder', hfact⟩
  · exact h.exclusive.stable hrely.holder_iff hrely.next_le hrely.held
  · exact h.shared.stable hrely.sharers_iff hrely.next_le hrely.shared
  · rcases h.inner pid hmem with rfl | ⟨r, hr, hlevel⟩
    · exact .inl rfl
    · obtain ⟨r', hr', hlevel'⟩ := hrely.inner pid r hr hlevel
      exact .inr ⟨r', hr', by omega⟩
  · rw [hrely.claim_iff, h.claim_iff]
  · obtain ⟨hholder, hclaim⟩ := h.unclaimed pid hmem
    exact ⟨(hrely.holder_iff pid).mpr hholder, hrely.unclaimed pid hholder hclaim⟩

end Stable

end Knowledge

end ScaleStore.BTree
