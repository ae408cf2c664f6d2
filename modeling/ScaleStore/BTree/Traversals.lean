/-
# On the way to a leaf

Both descents of the source look at a page only between two looks at a version.  What
carries them is one fact about the page above, at the version it is remembered with:
it leads to the page that comes next, and the range of that page is wanted.  Looking
at the page above once more after the next one has been fixed makes this a fact about
the next page, and looking at the next one after its child has been read hands it on.
-/

import ScaleStore.BTree.Changes

namespace ScaleStore.BTree

section Facts

variable {K V : Type}

/-- The page leads to `child`, and `P` holds of it and of the region of `child`. -/
def Towards (parent child : PID) (P : Page K V → Region K → Prop) : PageFact K V :=
  fun page region => ∃ r, Leads parent page region child r ∧ P page r

variable [LinearOrder K]

/-- The next page is `levels` above the leaves and covers `k`; what is above it has room if full
nodes are split on the way. -/
def Covers (c : Capacity) (splits : Bool) (k : K) (levels : Nat) (page : Page K V) (r : Region K) :
    Prop :=
  r.level = levels ∧ r.Holds k ∧
    (splits = true → ∀ n, page = .inner n → n.count < c.inner - 1)

def Wants (Wanted : FenceKey K → FenceKey K → Prop) (_ : Page K V) (r : Region K) : Prop :=
  Wanted r.lower r.upper

variable {c : Capacity} {h : Heap K V} {G : Layout K} {root : PID} {height : Nat}
  {parent child cur : PID} {r : Region K} {P : Page K V → Region K → Prop}

theorem Consistent.towards_lt {T : Type} {m : Pages T K V} {g : Ghost T K V}
    (hinv : Consistent c m g)
    (hfact : Towards parent child P (m.heap.page parent) (g.layout parent)) :
    parent < m.heap.next := by
  obtain ⟨root, height, inv⟩ := hinv.tree
  obtain ⟨r, hleads, -⟩ := hfact
  exact inv.leads_lt hleads

theorem Consistent.region_lt {T : Type} {m : Pages T K V} {g : Ghost T K V}
    (hinv : Consistent c m g) (hr : g.layout cur = some r) : cur < m.heap.next := by
  obtain ⟨root, height, inv⟩ := hinv.tree
  exact inv.lt_next cur r hr

theorem TreeInv.not_unmapped (inv : TreeInv c entryPage h G root height) (hG : G cur = some r) :
    h.page cur ≠ .unmapped := by
  have hok := inv.page_ok cur r hG
  intro hpage
  unfold PageOK at hok
  simp [hpage] at hok

theorem TreeInv.leaf_of_not_inner (inv : TreeInv c entryPage h G root height) (hG : G cur = some r)
    (hinner : (h.page cur).isInner = false) : ∃ l, h.page cur = .leaf l := by
  rcases Nat.eq_zero_or_pos r.level with hlevel | hlevel
  · obtain ⟨l, hl, -⟩ := inv.leaf_page hG hlevel
    exact ⟨l, hl⟩
  · obtain ⟨n, hn, -⟩ := inv.inner_page hG (show r.level = (r.level - 1) + 1 by omega)
    simp [hn, Page.isInner] at hinner

theorem TreeInv.level_of_inner (inv : TreeInv c entryPage h G root height) (hG : G cur = some r)
    (hinner : (h.page cur).isInner = true) : ∃ level, r.level = level + 1 := by
  rcases Nat.eq_zero_or_pos r.level with hlevel | hlevel
  · obtain ⟨l, hl, -⟩ := inv.leaf_page hG hlevel
    simp [hl, Page.isInner] at hinner
  · exact ⟨r.level - 1, by omega⟩

/-- What a validated inner node says about the child a search picks. -/
theorem TreeInv.leads_childAt [Inhabited K] (inv : TreeInv c entryPage h G root height)
    {next : Inner K → Nat} {Wanted : FenceKey K → FenceKey K → Prop}
    (hs : Search.Sound next Wanted) (hG : G cur = some r) (hr : Wanted r.lower r.upper)
    (hinner : (h.page cur).isInner = true) :
    ∃ r', Leads cur (h.page cur) (G cur) ((h.page cur).childAt next) r' ∧
      r'.level + 1 = r.level ∧ Wanted r'.lower r'.upper := by
  obtain ⟨level, hlevel⟩ := inv.level_of_inner hG hinner
  obtain ⟨n, child, r', hn, hchild, hG', hlevel', hr', hparent⟩ := inv.descend_one hs hG hr hlevel
  have hat : (h.page cur).childAt next = child := by simp [hn, Page.childAt, hchild]
  exact ⟨r', hat ▸ inv.leads_of_isParent hG' hparent, by omega, hr'⟩

end Facts

section Descents

variable {T K V : Type} [DecidableEq T] [LinearOrder K] [Inhabited K] {c : Capacity} {t : T}
  {keys : Set K} {op : Call K V} {gp gn : OptimisticGuard}

/-- Nothing is latched. -/
def seeing (mapped : List PID) (seen : List (OptimisticGuard × PageFact K V)) : Know K V :=
  { Know.nothing with optimistic := seen, mapped }

/-- How a descent ends: with the attempt, or with what is known about the pages it hands over. -/
def Descended {L : Type} (keys : Set K) (c : Capacity) (t : T) (op : Call K V)
    (know : OptimisticGuard → L → Know K V) :
    Descent K V L → Phase (Call K V) (Reply K V) → Pages T K V → Ghost T K V → Prop
  | .over r, p, m, g => (logic T c keys).post t op r p m g
  | .leaf g_parent l, p, m, g => p = .pending op ∧ Knows (know g_parent l) t m g

omit [DecidableEq T] [Inhabited K] in
theorem Knows.seen {mapped mapped' : List PID} {seen seen' : List (OptimisticGuard × PageFact K V)}
    {m : Pages T K V} {g : Ghost T K V} (h : Knows (seeing mapped seen) t m g)
    (hseen : seen' ⊆ seen) (hmapped : mapped' ⊆ mapped) : Knows (seeing mapped' seen') t m g :=
  { h.forget hseen with mapped := fun pid hmem => h.mapped pid (hmapped hmem) }

omit [DecidableEq T] [Inhabited K] in
theorem Knows.see {mapped : List PID} {seen : List (OptimisticGuard × PageFact K V)}
    {m : Pages T K V} {g : Ghost T K V} {og : OptimisticGuard} {fact : PageFact K V}
    (h : Knows (seeing mapped seen) t m g) (hmem : (og, fact) ∈ seen) (fact' : PageFact K V)
    (himp : m.version og.pid = og.vAcquired → fact (m.heap.page og.pid) (g.layout og.pid) →
      fact' (m.heap.page og.pid) (g.layout og.pid)) :
    Knows (seeing mapped ((og, fact') :: seen)) t m g :=
  h.infer hmem himp

omit [DecidableEq T] [Inhabited K] in
theorem Knows.map {mapped : List PID} {seen : List (OptimisticGuard × PageFact K V)}
    {m : Pages T K V} {g : Ghost T K V} (h : Knows (seeing mapped seen) t m g) {pid : PID}
    (hlt : pid < m.heap.next) : Knows (seeing (pid :: mapped) seen) t m g := by
  refine { h with mapped := fun q hmem => ?_ }
  rcases List.mem_cons.mp hmem with rfl | hmem
  · exact hlt
  · exact h.mapped q hmem

omit [DecidableEq T] [Inhabited K] in
theorem Knows.nothing {mapped : List PID} {seen : List (OptimisticGuard × PageFact K V)}
    {m : Pages T K V} {g : Ghost T K V} (h : Knows (seeing mapped seen) t m g) :
    Knows Know.nothing t m g :=
  h.seen (List.nil_subset _) (List.nil_subset _)

/-- An attempt that starts again has had no effect, one that ends has had its own. -/
def Ended (op : Call K V) : Option (Reply K V) → Phase (Call K V) (Reply K V) → Prop
  | none, p => p = .pending op
  | some a, p => p = .done op a

theorem post_of_ended {r : Option (Reply K V)} {p : Phase (Call K V) (Reply K V)}
    {mapped : List PID} {seen : List (OptimisticGuard × PageFact K V)} {m : Pages T K V}
    {g : Ghost T K V} (hk : Knows (seeing mapped seen) t m g) (hp : Ended op r p) :
    (logic T c keys).post t op r p m g := by
  refine ⟨hk.nothing, ?_⟩
  cases r <;> exact hp

/-- An attempt that ends with nothing latched. -/
theorem ok_over {r : Option (Reply K V)} {p : Phase (Call K V) (Reply K V)}
    {mapped : List PID} {seen : List (OptimisticGuard × PageFact K V)}
    (hp : Ended op r p) :
    (logic T c keys).Ok t ((logic T c keys).post t op) (pure r) p (seeing mapped seen) :=
  fun _ _ _ hk => post_of_ended hk hp

theorem ok_over_descent {L : Type} {r : Option (Reply K V)} {p : Phase (Call K V) (Reply K V)}
    {mapped : List PID} {seen : List (OptimisticGuard × PageFact K V)}
    {hand : OptimisticGuard → L → Know K V}
    (hp : Ended op r p) :
    (logic T c keys).Ok t (Descended keys c t op hand) (pure (.over r)) p (seeing mapped seen) :=
  fun _ _ _ hk => post_of_ended hk hp

/-! ## The entry page -/

/-- The entry page has been seen, and so far nothing else. -/
theorem ok_enter {L : Type} {hand : OptimisticGuard → L → Know K V}
    {f : OptimisticGuard → Code K V (Descent K V L)}
    (h : ∀ gp, gp.pid = entryPage → (logic T c keys).Ok t (Descended keys c t op hand) (f gp)
      (.pending op) (seeing [] [(gp, fun _ _ => True)])) :
    (logic T c keys).Ok t (Descended keys c t op hand)
      (enter entryPage >>= fun e => match e with
        | none => pure (.over none)
        | some g_parent => f g_parent) (.pending op) Know.nothing := by
  have hbind : (enter entryPage >>= fun e : Option OptimisticGuard => match e with
        | none => pure (.over none)
        | some g_parent => f g_parent) =
      fixOptimistic entryPage >>= fun g_parent => asPtr g_parent >>= fun stale =>
        if stale then pure (.over none) else f g_parent := by
    show Prog.instr _ _ = Prog.instr _ _
    congr 1
    funext g_parent
    show Prog.instr _ _ = Prog.instr _ _
    congr 1
    funext stale
    cases stale
    · show Prog.instr _ _ = Prog.instr _ _
      congr 1
      funext stale
      cases stale <;> rfl
    · rfl
  rw [hbind]
  refine ok_fixOptimistic rfl rfl fun gp hgp => ?_
  exact ok_asPtr List.mem_cons_self (ok_over_descent rfl) (h gp hgp)

/-! ## By the stored height -/

/-- The page has a region `levels` above the leaves that covers `k`, and room if it has to have
some. -/
def Reached (c : Capacity) (splits : Bool) (k : K) (levels : Nat) : PageFact K V :=
  fun page region => (∃ r, region = some r ∧ r.level = levels ∧ r.Holds k) ∧
    (splits = true → Page.isFull c page = false)

omit [DecidableEq T] [Inhabited K] in
theorem Knows.free {mapped : List PID} {seen : List (OptimisticGuard × PageFact K V)}
    {m : Pages T K V} {g : Ghost T K V} (h : Knows (seeing mapped seen) t m g) (pid : PID) :
    m.holder pid ≠ some t ∧ (∀ q, t ∉ m.sharers q) ∧ Way c t pid m g :=
  ⟨h.holds_nothing rfl pid, h.shares_nothing rfl, .free (h.holds_nothing rfl)⟩

/-- Parent and node are latched, and the full node is split. -/
theorem ok_splitNode {k : K} {levels : Nat} {cur : PID} {fact : PageFact K V} {know : Know K V}
    {R : Type} {Q : R → Phase (Call K V) (Reply K V) → Pages T K V → Ghost T K V → Prop}
    {p : Phase (Call K V) (Reply K V)} {next : Bool → Code K V R} (hclaims : know.claims = [])
    (hparent : (gp.pid, some (Towards gp.pid cur (Covers c true k levels))) ∈ know.exclusive)
    (hcur : (cur, some fact) ∈ know.exclusive)
    (hfull : ∀ page r, r ≠ none → fact page r → page ≠ .unmapped → Page.isFull c page = true)
    (hkeys : levels = 0 → k ∈ keys)
    (h : (logic T c keys).Ok t Q (next true) p
      { know with exclusive := know.exclusive.map fun x => (x.1, none) }) :
    (logic T c keys).Ok t Q (splitNode gp.pid cur >>= next) p know := by
  refine ok_write (i := .split gp.pid cur) hclaims fun m g hinv hk => ?_
  obtain ⟨hlt, r, hleads, hlevel, hr, hroom⟩ := hk.exclusive.fact _ _ hparent
  obtain ⟨-, hregion⟩ := hk.exclusive.fact _ _ hcur
  have hheld := (hk.exclusive.iff _).mpr (List.mem_map_of_mem hparent)
  have hheld' := (hk.exclusive.iff _).mpr (List.mem_map_of_mem hcur)
  obtain ⟨root, height, inv⟩ := hinv.tree
  obtain ⟨hG, -⟩ := inv.leads hleads
  obtain ⟨h', g', hrun, hwrites, hmap⟩ := hinv.split hheld hheld' hleads
    (fun _ n hn => hroom rfl n hn)
    (hfull _ _ (by simp [hG]) hregion (inv.not_unmapped hG))
  have hconcerns : ∀ l, m.heap.page cur = .leaf l → ∃ k ∈ keys, EndsAt m g cur k l := fun l hl =>
    ⟨k, hkeys (hlevel.symm.trans (inv.level_of_leaf hG hl)), r, hG, hr, hl⟩
  refine ⟨⟨⟨hheld, hheld', h', hrun⟩, hconcerns⟩, true, h', g', p,
    know.exclusive.map fun x : PID × Option (PageFact K V) => (x.1, none), fun a m' hexec => ?_,
    hwrites, .quiet hmap, by simp,
    fun pid fact hmem => ?_, h⟩
  · simpa [execInstr, hrun] using hexec
  · simp at hmem

/-- How the look at a full node ends: with the attempt, or with a node that is not full. -/
def Spared (keys : Set K) (c : Capacity) (t : T) (op : Call K V)
    (know : Know K V) :
    Option (Option (Reply K V)) → Phase (Call K V) (Reply K V) → Pages T K V → Ghost T K V → Prop
  | none, p, m, g => p = .pending op ∧ Knows know t m g
  | some r, p, m, g => (logic T c keys).post t op r p m g

theorem ok_spared {r : Option (Reply K V)} {p : Phase (Call K V) (Reply K V)}
    {mapped : List PID} {seen : List (OptimisticGuard × PageFact K V)} {know : Know K V}
    (hp : Ended op r p) :
    (logic T c keys).Ok t (Spared keys c t op know) (pure (some r)) p (seeing mapped seen) :=
  fun _ _ _ hk => post_of_ended hk hp

theorem ok_splitFull {k : K} {levels : Nat} (hlevels : levels ≠ 0) :
    (logic T c keys).Ok t
      (Spared keys c t op (seeing [] [(gn, Reached c true k levels),
        (gp, Towards gp.pid gn.pid (Covers c true k levels))]))
      (splitFull c gp gn) (.pending op)
      (seeing [] [(gn, Reached c false k levels),
        (gp, Towards gp.pid gn.pid (Covers c true k levels))]) := by
  rw [splitFull]
  refine ok_peek List.mem_cons_self fun page => ⟨_, .goOn, ?_⟩
  by_cases hfull : Page.isFull c page = true
  · -- the node is full: both are latched, then it is split
    simp only [hfull, Bool.not_true, Bool.false_eq_true, if_false]
    refine ok_upgrade (List.mem_cons_of_mem _ (List.mem_cons_of_mem _ List.mem_cons_self)) rfl
      (fun m g _ hk => Knows.free hk _) (fun _ _ hinv _ => hinv.towards_lt) (ok_spared rfl) ?_
    refine ok_upgrade_below List.mem_cons_self rfl rfl rfl
      (fun _ _ ⟨r, hleads, _⟩ => ⟨r, hleads⟩)
      (fun _ _ hinv _ ⟨⟨⟨_, hr, _⟩, _⟩, _⟩ => hinv.region_lt hr) ?_ ?_
    · exact ok_unlatchExclusive rfl rfl (ok_spared rfl)
    · refine ok_splitNode rfl (List.mem_cons_of_mem _ List.mem_cons_self) List.mem_cons_self ?_
        (fun h => absurd h hlevels) ?_
      · rintro page' r hr ⟨-, hpage⟩ hne
        rw [← hpage hne]
        exact hfull
      · exact ok_unlatchExclusive rfl rfl (ok_unlatchExclusive rfl rfl (ok_spared rfl))
  · have hfull' : Page.isFull c page = false := by simpa using hfull
    simp only [hfull', Bool.not_false, if_true]
    refine fun m g hinv hk => ⟨rfl, ?_⟩
    obtain ⟨root, height, inv⟩ := hinv.tree
    have hk' := Knows.see hk List.mem_cons_self (Reached c true k levels) fun _ hfact => by
      obtain ⟨⟨⟨r, hr, hlevel⟩, -⟩, hpage⟩ := hfact
      exact ⟨⟨r, hr, hlevel⟩, fun _ => by rw [← hpage (inv.not_unmapped hr)]; exact hfull'⟩
    exact hk'.seen (by simp [seeing]) (List.nil_subset _)

/-- One level down, from what has been validated about the node. -/
theorem TreeInv.towards_child {h : Heap K V} {G : Layout K} {root : PID} {height levels : Nat}
    {splits : Bool} {k : K} {cur : PID} (inv : TreeInv c entryPage h G root height)
    (hreached : Reached c splits k (levels + 1) (h.page cur) (G cur)) :
    Towards cur ((h.page cur).childAt fun n => n.lowerBoundBF k) (Covers c splits k levels)
      (h.page cur) (G cur) := by
  obtain ⟨⟨r, hr, hlevel, hk⟩, hroom⟩ := hreached
  obtain ⟨n, hn, hok⟩ := inv.inner_page hr hlevel
  obtain ⟨r', hleads, hlevel', hk'⟩ := inv.leads_childAt (Search.sound_lowerBoundBF k) hr hk
    (by simp [hn, Page.isInner])
  refine ⟨r', hleads, by omega, hk', fun hsplits n' hn' => ?_⟩
  rw [hn] at hn'
  cases hn'
  have hne := hroom hsplits
  simp only [hn, Page.isFull, Inner.isFull, beq_eq_false_iff_ne] at hne
  have := hok.count_le
  omega

theorem ok_descendLevels (hop : op.byHeight = true) {splits : Bool} {k : K} {levels : Nat}
    {cur : PID} :
    (logic T c keys).Ok t
      (Descended keys c t op fun g_parent pid =>
        seeing [] [(g_parent, Towards g_parent.pid pid (Covers c splits k 0))])
      (descendLevels c splits k levels gp cur) (.pending op)
      (seeing [] [(gp, Towards gp.pid cur (Covers c splits k levels))]) := by
  induction levels generalizing gp cur with
  | zero => exact fun m g hinv hk => ⟨rfl, hk⟩
  | succ levels ih =>
    rw [descendLevels]
    refine ok_fixOptimistic rfl rfl fun gn hgn => ?_
    subst hgn
    -- the page above still leads here, so this is a page of the tree
    refine ok_retry (List.mem_cons_of_mem _ List.mem_cons_self) (ok_over_descent rfl)
      fun m g hinv hk _ _ hfact => ?_
    obtain ⟨root, height, inv⟩ := hinv.tree
    obtain ⟨r, hleads, hlevel, hr, -⟩ := hfact
    have hk' := Knows.see hk List.mem_cons_self (Reached c false k (levels + 1)) fun _ _ =>
      ⟨⟨r, (inv.leads hleads).1, hlevel, hr⟩, by simp⟩
    refine ⟨_, seeing [] [(gn, Reached c false k (levels + 1)),
      (gp, Towards gp.pid gn.pid (Covers c splits k (levels + 1)))],
      hk'.seen (by simp [seeing]) (List.nil_subset _),
      .quiet rfl, ?_⟩
    refine ok_asPtr List.mem_cons_self (ok_over_descent rfl) ?_
    refine ok_peek List.mem_cons_self fun page => ?_
    cases hinner : page.isInner with
    | false => exact ⟨_, .fail hop, ok_over_descent rfl⟩
    | true =>
      refine ⟨_, .goOn, ?_⟩
      have hspare : (logic T c keys).Ok t
          (Spared keys c t op (seeing [] [(gn, Reached c splits k (levels + 1)),
            (gp, Towards gp.pid gn.pid (Covers c splits k (levels + 1)))]))
          (if splits = true then splitFull c gp gn else pure none) (.pending op)
          (seeing [] [(gn, Reached c false k (levels + 1)),
            (gp, Towards gp.pid gn.pid (Covers c splits k (levels + 1)))]) := by
        cases splits with
        | true => exact ok_splitFull (Nat.succ_ne_zero levels)
        | false => exact fun m g hinv hk => ⟨rfl, hk⟩
      refine CallLogic.Ok.bind (hspare.weaken fun m g hinv hk => Knows.seen hk (by simp [seeing])
        (List.nil_subset _)) ?_
      rintro (_ | r) p m g hinv hmid
      · obtain ⟨rfl, hk⟩ := hmid
        refine ⟨_, hk, ?_⟩
        refine ok_check (List.mem_cons_of_mem _ List.mem_cons_self) (ok_over_descent rfl) ?_
        refine ok_peek List.mem_cons_self fun page => ⟨_, .goOn, ?_⟩
        refine ok_retry List.mem_cons_self (ok_over_descent rfl) fun m g hinv hk _ _ hfact => ?_
        obtain ⟨hreached, hpage⟩ := hfact
        obtain ⟨root, height, inv⟩ := hinv.tree
        obtain ⟨r, hr, -⟩ := hreached.1
        obtain rfl := hpage (inv.not_unmapped hr)
        have hk' := Knows.see hk List.mem_cons_self
          (Towards gn.pid ((m.heap.page gn.pid).childAt fun n => n.lowerBoundBF k)
            (Covers c splits k levels)) fun _ _ => inv.towards_child hreached
        exact ⟨_, _, hk'.seen (by simp [seeing]) (List.nil_subset _), .quiet rfl, ih⟩
      · exact ⟨Know.nothing, hmid.1, fun m g hinv hk => ⟨hk, hmid.2⟩⟩

/-- The descent of `insert`, `lookupAndUpdate` and the lookups. -/
theorem ok_toLeaf (hop : op.byHeight = true) {splits : Bool} {k : K} :
    (logic T c keys).Ok t
      (Descended keys c t op fun g_parent pid =>
        seeing [] [(g_parent, Towards g_parent.pid pid (Covers c splits k 0))])
      (toLeaf c entryPage splits k) (.pending op) Know.nothing := by
  rw [toLeaf]
  refine ok_enter fun gp hgp => ?_
  refine ok_peek List.mem_cons_self fun page => ⟨_, .goOn, ?_⟩
  refine ok_peek List.mem_cons_self fun page' => ⟨_, .goOn, ?_⟩
  refine CallLogic.ok_of_moment fun m g hinv hk => ?_
  obtain ⟨root, height, inv⟩ := hinv.tree
  -- the entry page leads to the root, if it still is what was read
  have hk' := Knows.see hk List.mem_cons_self
    (Towards gp.pid page.root (Covers c splits k page'.height)) fun _ hfact => by
      obtain ⟨⟨-, hpage⟩, hpage'⟩ := hfact
      have hentry : m.heap.page gp.pid = .entry root height := hgp ▸ inv.entry_page
      rw [hpage (by simp [hentry]), hpage' (by simp [hentry]), hentry]
      exact ⟨⟨height, none, none⟩, .inl ⟨hgp, height, rfl, rfl⟩, rfl, ⟨by simp, by simp⟩,
        fun _ n hn => by cases hn⟩
  exact ⟨_, hk'.seen (by simp [seeing]) (List.nil_subset _), ok_descendLevels hop⟩

/-- A descent that ends the call does so since the type of a node is wrong. -/
def Descent.OnlyFails {L : Type} (d : Descent K V L) : Prop :=
  ∀ r, d = .over (some r) → r = .failed

theorem descendLevels_endsIn {k : K} {levels : Nat} {gp : OptimisticGuard} {pid : PID} :
    (descendLevels (V := V) c false k levels gp pid).EndsIn Descent.OnlyFails := by
  induction levels generalizing gp pid with
  | zero => exact fun _ h => (nomatch h)
  | succ levels ih =>
    have hover : (pure (.over none) : Code K V (Descent K V PID)).EndsIn Descent.OnlyFails :=
      fun _ h => by cases h
    intro gn stale
    cases stale
    case true => exact hover
    intro stale
    cases stale
    case true => exact hover
    intro stale
    cases stale
    case true => exact hover
    intro page
    show Prog.EndsIn Descent.OnlyFails (if (!Page.isInner page) = true then _ else _)
    split
    · exact fun _ h => by cases h; rfl
    intro stale
    cases stale
    case true => exact hover
    intro page stale
    cases stale
    case true => exact hover
    exact ih

theorem toLeaf_endsIn {k : K} {entry : PID} :
    (toLeaf (V := V) c entry false k).EndsIn Descent.OnlyFails := by
  intro gp stale
  cases stale
  case true => exact fun _ h => by cases h
  intro stale
  cases stale
  case true => exact fun _ h => by cases h
  exact fun _ _ => descendLevels_endsIn

/-! ## By the types of the nodes -/

/-- What is known at the leaf: what is above leads to it, and it is not an inner node. -/
def atLeaf (Wanted : FenceKey K → FenceKey K → Prop) (gp gn : OptimisticGuard) : Know K V :=
  seeing [gn.pid]
    [(gn, fun page _ => page.isInner = false), (gp, Towards gp.pid gn.pid (Wants Wanted))]

theorem ok_descendNodes {next : Inner K → Nat} {Wanted : FenceKey K → FenceKey K → Prop}
    (hs : Search.Sound next Wanted) {turns : Nat} :
    (logic T c keys).Ok t (Descended keys c t op (atLeaf Wanted)) (descendNodes next turns gp gn)
      (.pending op)
      (seeing [gn.pid] [(gn, fun _ _ => True), (gp, Towards gp.pid gn.pid (Wants Wanted))]) := by
  induction turns generalizing gp gn with
  | zero => exact ok_over_descent rfl
  | succ turns ih =>
    rw [descendNodes]
    refine ok_peek List.mem_cons_self fun page => ⟨_, .goOn, ?_⟩
    cases hinner : page.isInner with
    | false =>
      refine fun m g hinv hk => ⟨rfl, ?_⟩
      have hk' := Knows.see hk List.mem_cons_self (fun page _ => page.isInner = false)
        fun _ ⟨_, hpage⟩ => by
          by_cases hunmapped : m.heap.page gn.pid = .unmapped
          · simp [hunmapped, Page.isInner]
          · rw [← hpage hunmapped]
            exact hinner
      exact hk'.seen (by simp [seeing]) (List.Subset.refl _)
    | true =>
      refine ok_retry (List.mem_cons_of_mem _ (List.mem_cons_of_mem _ List.mem_cons_self))
        (ok_over_descent rfl) fun m g hinv hk _ _ hfact => ?_
      obtain ⟨root, height, inv⟩ := hinv.tree
      obtain ⟨r, hleads, hwanted⟩ := hfact
      have hk' := Knows.see hk List.mem_cons_self
        (fun page region => page.isInner = true ∧ ∃ r, region = some r ∧ Wanted r.lower r.upper)
        fun _ ⟨_, hpage⟩ => by
          have hr := (inv.leads hleads).1
          rw [← hpage (inv.not_unmapped hr)]
          exact ⟨hinner, r, hr, hwanted⟩
      refine ⟨_, _, hk', .quiet rfl, ?_⟩
      refine ok_peek List.mem_cons_self fun page' => ⟨_, .goOn, ?_⟩
      refine ok_retry List.mem_cons_self (ok_over_descent rfl) fun m g hinv hk _ _ hfact => ?_
      obtain ⟨root, height, inv⟩ := hinv.tree
      obtain ⟨⟨hinner', r', hr', hwanted'⟩, hpage⟩ := hfact
      obtain rfl := hpage (inv.not_unmapped hr')
      obtain ⟨s, hleads', -, hs'⟩ := inv.leads_childAt hs hr' hwanted' hinner'
      have hk' := Knows.see hk List.mem_cons_self
        (Towards gn.pid ((m.heap.page gn.pid).childAt next) (Wants Wanted))
        fun _ _ => ⟨s, hleads', hs'⟩
      refine ⟨_, _, hk'.map (hinv.region_lt (inv.leads hleads').1), .quiet rfl, ?_⟩
      refine ok_fixOptimistic rfl rfl fun gx hgx =>
        ok_asPtr List.mem_cons_self (ok_over_descent rfl) ?_
      rw [← hgx]
      exact ih.weaken fun m g hinv hk => Knows.seen hk (by simp [seeing]) (by simp [seeing])

/-- The descent of `remove` and `scan_`. -/
theorem ok_toLeafNode {next : Inner K → Nat} {Wanted : FenceKey K → FenceKey K → Prop}
    (hs : Search.Sound next Wanted) (hroot : Wanted none none) {turns : Nat} :
    (logic T c keys).Ok t (Descended keys c t op (atLeaf Wanted)) (toLeafNode entryPage next turns)
      (.pending op) Know.nothing := by
  rw [toLeafNode]
  refine ok_enter fun gp hgp => ?_
  refine ok_peek List.mem_cons_self fun page => ⟨_, .goOn, ?_⟩
  refine CallLogic.ok_of_moment fun m g hinv hk => ?_
  obtain ⟨root, height, inv⟩ := hinv.tree
  have hk' := Knows.see hk List.mem_cons_self (Towards gp.pid page.root (Wants Wanted))
    fun _ ⟨_, hpage⟩ => by
      have hentry : m.heap.page gp.pid = .entry root height := hgp ▸ inv.entry_page
      rw [hpage (by simp [hentry]), hentry]
      exact ⟨⟨height, none, none⟩, .inl ⟨hgp, height, rfl, rfl⟩, hroot⟩
  refine ⟨_, hk', ?_⟩
  refine ok_fixOptimistic rfl rfl fun gn hgn => ?_
  rw [← hgn]
  refine ok_retry (List.mem_cons_of_mem _ List.mem_cons_self) (ok_over_descent rfl)
    fun m g hinv hk _ _ hfact => ?_
  obtain ⟨root, height, inv⟩ := hinv.tree
  obtain ⟨r, hleads, -⟩ := hfact
  refine ⟨_, _, Knows.map hk (hinv.region_lt (inv.leads hleads).1), .quiet rfl, ?_⟩
  refine ok_asPtr List.mem_cons_self (ok_over_descent rfl) ?_
  exact (ok_descendNodes hs).weaken fun m g hinv hk =>
    Knows.seen hk (by simp [seeing]) (by simp [seeing])

end Descents

end ScaleStore.BTree
