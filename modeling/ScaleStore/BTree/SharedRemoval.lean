/-
# The calls that go down by the types of the nodes

`remove` and a leaf step of a scan are correct attempts as well.  The right sibling that
`remove` takes is latched without a look at its version: what makes it the sibling is the
parent, which is latched already.
-/

import ScaleStore.BTree.SharedCalls

namespace ScaleStore.BTree

variable {T K V : Type} [DecidableEq T] [LinearOrder K] [Inhabited K] {c : Capacity} {t : T}
  {keys : Set K} {op : Call K V} {gp gn : OptimisticGuard} {k : K} {parent cur right : PID}
  {n : Inner K}

/-! ## Latches given back -/

section Rest

omit [DecidableEq T] [Inhabited K] in
/-- Without latches and claims a worker is at rest, whatever it has seen. -/
theorem Knows.rest {know : Know K V} {m : Pages T K V} {g : Ghost T K V} (hk : Knows know t m g)
    (hx : know.exclusive = []) (hs : know.shared = []) (hclaims : know.claims = []) :
    Knows Know.nothing t m g := by
  refine knows_nothing.mpr ⟨hk.holds_nothing hx, hk.shares_nothing hs, fun q => ?_⟩
  rw [ne_eq, hk.claim_iff, hclaims]
  exact List.not_mem_nil

theorem ok_rest {know : Know K V} {r : Option (Reply K V)} {p : Phase (Call K V) (Reply K V)}
    (hp : Ended op r p) (hx : know.exclusive = []) (hs : know.shared = [])
    (hclaims : know.claims = []) :
    (logic T c keys).Ok t ((logic T c keys).post t op) (pure r) p know := by
  refine fun m g _ hk => ⟨hk.rest hx hs hclaims, ?_⟩
  cases r <;> exact hp

theorem ok_unlatchAll {latched : List PID} {know : Know K V} {r : Option (Reply K V)}
    {p : Phase (Call K V) (Reply K V)} (hp : Ended op r p)
    (hx : know.exclusive.map Prod.fst = latched) (hs : know.shared = [])
    (hclaims : know.claims = []) :
    (logic T c keys).Ok t ((logic T c keys).post t op)
      (latched.forM unlatchExclusive >>= fun _ => pure r) p know := by
  induction latched generalizing know with
  | nil => exact ok_rest hp (List.map_eq_nil_iff.mp hx) hs hclaims
  | cons pid latched ih =>
    obtain ⟨⟨q, o⟩, rest, hx', hq, hrest⟩ := List.map_eq_cons_iff.mp hx
    obtain rfl : q = pid := hq
    show (logic T c keys).Ok t _ (unlatchExclusive q >>= fun _ =>
      latched.forM unlatchExclusive >>= fun _ => pure r) p know
    exact ok_unlatchExclusive hx' hclaims (ih hrest hs hclaims)

/-- The removal itself, from a leaf that is the one for `k`. -/
theorem ok_removeAtPage (hkeys : k ∈ keys) {latched : List PID} {know : Know K V}
    {fact : PageFact K V} (hmem : (cur, some fact) ∈ know.exclusive)
    (hfact : ∀ page region, fact page region → AtKey k page region)
    (hx : know.exclusive.map Prod.fst = latched) (hs : know.shared = [])
    (hclaims : know.claims = []) :
    (logic T c keys).Ok t ((logic T c keys).post t (.remove k : Call K V))
      (removeAtPage k latched cur) (.pending (.remove k)) know := by
  refine ok_write (i := .remove cur k) hclaims fun m g hinv hk => ?_
  obtain ⟨-, hcur⟩ := hk.exclusive.fact _ _ hmem
  obtain ⟨⟨r, hr, hkr⟩, l, hl⟩ := hfact _ _ hcur
  have hheld : m.holder cur = some t := (hk.exclusive.iff _).mpr (List.mem_map_of_mem hmem)
  obtain ⟨w, hres⟩ := hinv.remove hheld hr hkr hl
  refine ⟨⟨⟨hheld, l, r, hr, hkr, hl⟩, hkeys⟩, (l.remove k).2, _, _, _,
    know.exclusive.map fun x : PID × Option (PageFact K V) => (x.1, none), fun a m' hexec => ?_, w,
    .effect (.remove k), by simp, by simp, ?_⟩
  · simpa [execInstr, hl] using hexec
  · rw [hres]
    exact ok_unlatchAll rfl (by rw [List.map_map]; exact hx) hs hclaims

end Rest

/-! ## The underfull leaf and its siblings -/

/-- An underfull leaf, at which the search for `k` ends. -/
def Underfull (c : Capacity) (k : K) : PageFact K V := fun page region =>
  (∃ r, region = some r ∧ r.Holds k) ∧ ∃ l, page = .leaf l ∧ l.isUnderflow c = true

/-- The parent of the page `cur`, with its contents. -/
def Above (parent cur : PID) (n : Inner K) : PageFact K V := fun page region =>
  (∃ r, Leads parent page region cur r) ∧ page = .inner n

omit [LinearOrder K] [Inhabited K] in
theorem Page.leaf_of_isUnderflow {page : Page K V} (h : page.isUnderflow c = true) :
    ∃ l, page = .leaf l ∧ l.isUnderflow c = true := by
  cases page with
  | leaf l => exact ⟨l, rfl, h⟩
  | _ => cases h

omit [DecidableEq T] in
/-- What the parent says about the leaf and about its right sibling. -/
theorem Consistent.held_siblings {m : Pages T K V} {g : Ghost T K V} (hinv : Consistent c m g)
    (hcur : Underfull c k (m.heap.page cur) (g.layout cur))
    (habove : Above parent cur n (m.heap.page parent) (g.layout parent)) :
    n.children[n.lowerBound k]? = some cur ∧ (n.lowerBound k + 1 < n.count →
      ∃ right l l' p q r, n.children[n.lowerBound k + 1]? = some right ∧ r.Holds k ∧
        l.isUnderflow c = true ∧
        Siblings m.heap g.layout parent cur right n (n.lowerBound k) l l' p r q) := by
  obtain ⟨⟨r, hr, hkr⟩, l, hl, hunder⟩ := hcur
  obtain ⟨⟨r', hleads⟩, hn⟩ := habove
  obtain ⟨root, height, inv⟩ := hinv.tree
  obtain rfl := Option.some.inj (hr.symm.trans (inv.leads hleads).1)
  obtain ⟨hpos, hright⟩ := hinv.siblings hleads hkr hn hl
  refine ⟨hpos, fun hlt => ?_⟩
  obtain ⟨right, q, p, l', hchild, sib⟩ := hright hlt
  exact ⟨right, l, l', p, q, r, hchild, hkr, hunder, sib⟩

omit [LinearOrder K] [Inhabited K] in
theorem Underfull.atKey [LinearOrder K] (page : Page K V) (region : Option (Region K))
    (h : Underfull c k page region) : AtKey k page region :=
  ⟨h.1, h.2.imp fun _ h => h.1⟩

/-- Nothing but latched pages is known. -/
def latching (latched : List (PID × Option (PageFact K V))) : Know K V :=
  { Know.nothing with exclusive := latched }

@[simp] theorem latching_exclusive {K V : Type} (latched : List (PID × Option (PageFact K V))) :
    (latching latched).exclusive = latched := rfl

theorem ok_mergeNodes (hkeys : k ∈ keys) {l l' : Leaf K V} {R : Type}
    {Q : R → Phase (Call K V) (Reply K V) → Pages T K V → Ghost T K V → Prop}
    {p : Phase (Call K V) (Reply K V)} {next : Unit → Code K V R}
    (hchild : n.children[n.lowerBound k + 1]? = some right) (htwo : 2 ≤ n.count)
    (hlt : n.lowerBound k + 1 < n.count) (hfit : l.count + l'.count < c.leaf)
    (h : (logic T c keys).Ok t Q (next ()) p
      (latching [(right, none), (cur, some (AtKey k)), (parent, none)])) :
    (logic T c keys).Ok t Q (mergeNodes parent cur right (n.lowerBound k) >>= next) p
      (latching [(right, some fun page _ => page = .leaf l'),
        (cur, some fun page region => Underfull c k page region ∧ page = .leaf l),
        (parent, some (Above parent cur n))]) := by
  refine ok_write (i := .merge parent cur right (n.lowerBound k)) rfl fun m g hinv hk => ?_
  obtain ⟨-, hr⟩ := hk.exclusive.fact right _ List.mem_cons_self
  obtain ⟨-, hcur, hl⟩ := hk.exclusive.fact cur _ (List.mem_cons_of_mem _ List.mem_cons_self)
  obtain ⟨-, hpar⟩ := hk.exclusive.fact parent (Above parent cur n) (by simp)
  obtain ⟨hpos, hsib⟩ := hinv.held_siblings hcur hpar
  obtain ⟨right', l₀, l₁, p, q, r, hchild', hkr, -, sib⟩ := hsib hlt
  obtain rfl := Option.some.inj (hchild.symm.trans hchild')
  obtain rfl : l = l₀ := by simpa [hl] using sib.cur_page
  obtain rfl : l' = l₁ := by simpa [hr] using sib.right_page
  have hheld : ∀ pid, m.holder pid = some t ↔ pid = right ∨ pid = cur ∨ pid = parent :=
    fun pid => by simpa using hk.exclusive.iff pid
  have hright := (hheld right).mpr (.inl rfl)
  have hleaf := (hheld cur).mpr (.inr (.inl rfl))
  have hparent := (hheld parent).mpr (.inr (.inr rfl))
  obtain ⟨g', w, hmap, hlayout⟩ := hinv.merge hparent hleaf hright sib htwo hfit hkr
  obtain ⟨root, height, inv⟩ := hinv.tree
  obtain ⟨hne, hne', -⟩ := sib.ne inv
  have hmerged : (mergeInto m.heap parent cur right n (n.lowerBound k) l l').page cur =
      .leaf (l.mergeRight l') := by simp [mergeInto, hne, hne'.symm]
  refine ⟨⟨⟨hparent, hleaf, hright, n, l, l', sib.parent_page, sib.cur_page, sib.right_page, hpos,
    hchild, htwo, hfit⟩, fun l hl => ⟨k, hkeys, r, sib.cur_region, hkr, hl⟩⟩, (), _, g', _,
    [(right, none), (cur, some (AtKey k)), (parent, none)], fun a m' hexec => ⟨rfl, ?_⟩, w,
    .quiet hmap, by simp, fun pid fact hmem => ?_, h⟩
  · simpa [execInstr, sib.parent_page, sib.cur_page, sib.right_page] using hexec
  · obtain ⟨rfl, rfl⟩ : pid = cur ∧ fact = AtKey k := by simpa using hmem
    obtain ⟨r', hr', hkr'⟩ := hlayout
    exact ⟨(hinv.region_lt sib.cur_region).trans_le w.next_le, ⟨r', hr', hkr'⟩, _, hmerged⟩

omit [DecidableEq T] [Inhabited K] in
theorem Knows.latching {know : Know K V} {m : Pages T K V} {g : Ghost T K V}
    (hk : Knows know t m g) (hs : know.shared = []) (hclaims : know.claims = [])
    {latched : List (PID × Option (PageFact K V))}
    (hsame : latched.map Prod.fst = know.exclusive.map Prod.fst)
    (hfact : ∀ pid fact, (pid, some fact) ∈ latched → pid < m.heap.next ∧
      fact (m.heap.page pid) (g.layout pid)) : Knows (BTree.latching latched) t m g := by
  obtain ⟨-, hexclusive, hshared, -, -, hclaim, -⟩ := hk.hold latched hsame hfact
  rw [hs] at hshared
  rw [hclaims] at hclaim
  exact ⟨fun _ _ h => (nomatch h), hexclusive, hshared, fun _ h => (nomatch h),
    fun _ h => (nomatch h), hclaim, fun _ h => (nomatch h)⟩

/-- The right sibling is latched, and holds too much or is merged. -/
theorem ok_mergeRight (hkeys : k ∈ keys) (hchild : n.children[n.lowerBound k + 1]? = some right)
    (htwo : 2 ≤ n.count) (hlt : n.lowerBound k + 1 < n.count) :
    (logic T c keys).Ok t ((logic T c keys).post t (.remove k : Call K V))
      (readPage cur >>= fun page => readPage right >>= fun page' =>
        if c.leaf ≤ page.leafCount + page'.leafCount then removeAtPage k [right, cur, parent] cur
        else mergeNodes parent cur right (n.lowerBound k) >>= fun _ =>
          unlatchExclusive right >>= fun _ => removeAtPage k [cur, parent] cur)
      (.pending (.remove k))
      (latching [(right, none), (cur, some (Underfull c k)),
        (parent, some (Above parent cur n))]) := by
  refine ok_read (fun m g hk => .inl ((hk.exclusive.iff cur).mpr (by simp)))
    fun m g page hinv hk hreads => ?_
  obtain ⟨hcurlt, hcur⟩ := hk.exclusive.fact cur (Underfull c k) (by simp)
  obtain ⟨hparlt, hpar⟩ := hk.exclusive.fact parent (Above parent cur n) (by simp)
  obtain ⟨l, hl, -⟩ := hcur.2
  obtain rfl : page = .leaf l := (hreads (by simp [hl])).trans hl
  have hk' := hk.hold [(right, none),
      (cur, some fun page region => Underfull c k page region ∧ page = .leaf l),
      (parent, some (Above parent cur n))] (by simp) fun pid fact hmem => by
    rcases (by simpa using hmem) with ⟨rfl, rfl⟩ | ⟨rfl, rfl⟩
    · exact ⟨hcurlt, hcur, hl⟩
    · exact ⟨hparlt, hpar⟩
  refine ⟨_, _, hk', .quiet rfl, ?_⟩
  refine ok_read (fun m g hk => .inl ((hk.exclusive.iff right).mpr (by simp)))
    fun m g page hinv hk hreads => ?_
  obtain ⟨hcurlt, hcur, hl⟩ := hk.exclusive.fact cur _ (List.mem_cons_of_mem _ List.mem_cons_self)
  obtain ⟨hparlt, hpar⟩ := hk.exclusive.fact parent (Above parent cur n) (by simp)
  obtain ⟨-, hsib⟩ := hinv.held_siblings hcur hpar
  obtain ⟨right', l₀, l', p, q, r, hchild', -, -, sib⟩ := hsib hlt
  obtain rfl := Option.some.inj (hchild.symm.trans hchild')
  obtain rfl : l = l₀ := by simpa [hl] using sib.cur_page
  obtain rfl : page = .leaf l' := (hreads (by simp [sib.right_page])).trans sib.right_page
  by_cases hfit : c.leaf ≤ l.count + l'.count
  · refine ⟨_, _, hk, .quiet rfl, ?_⟩
    rw [if_pos (by simpa [Page.leafCount] using hfit)]
    exact ok_removeAtPage hkeys (List.mem_cons_of_mem _ List.mem_cons_self)
      (fun _ _ h => Underfull.atKey _ _ h.1) rfl rfl rfl
  · have hk' := hk.hold [(right, some fun page _ => page = .leaf l'),
        (cur, some fun page region => Underfull c k page region ∧ page = .leaf l),
        (parent, some (Above parent cur n))] (by simp) fun pid fact hmem => by
      rcases (by simpa using hmem) with ⟨rfl, rfl⟩ | ⟨rfl, rfl⟩ | ⟨rfl, rfl⟩
      · exact ⟨hinv.region_lt sib.right_region, sib.right_page⟩
      · exact ⟨hcurlt, hcur, hl⟩
      · exact ⟨hparlt, hpar⟩
    refine ⟨_, _, hk', .quiet rfl, ?_⟩
    rw [if_neg (by simpa [Page.leafCount] using hfit)]
    exact ok_mergeNodes hkeys hchild htwo hlt (not_le.mp hfit) (ok_unlatchExclusive rfl rfl
      (ok_removeAtPage hkeys List.mem_cons_self (fun _ _ h => h) rfl rfl rfl))

/-- The underflow branch of `remove`. -/
theorem ok_mergeAtPage (hkeys : k ∈ keys) (hne : parent ≠ entryPage) :
    (logic T c keys).Ok t ((logic T c keys).post t (.remove k : Call K V))
      (mergeAtPage c k parent cur) (.pending (.remove k))
      (latching [(cur, some (Underfull c k)),
        (parent, some fun page region => ∃ r, Leads parent page region cur r)]) := by
  rw [mergeAtPage]
  refine ok_read (fun m g hk => .inl ((hk.exclusive.iff parent).mpr (by simp)))
    fun m g page hinv hk hreads => ?_
  obtain ⟨hcurlt, hcur⟩ := hk.exclusive.fact cur _ List.mem_cons_self
  obtain ⟨hparlt, r, hleads⟩ :=
    hk.exclusive.fact parent _ (List.mem_cons_of_mem _ List.mem_cons_self)
  obtain ⟨n, hn⟩ : ∃ n, m.heap.page parent = .inner n := by
    rcases hleads with ⟨rfl, -⟩ | ⟨s, n, i, -, hn, -⟩
    · exact absurd rfl hne
    · exact ⟨n, hn⟩
  obtain rfl : page = .inner n := (hreads (by simp [hn])).trans hn
  have hk' := hk.hold [(cur, some (Underfull c k)), (parent, some (Above parent cur n))]
    (by simp) fun pid fact hmem => by
      rcases (by simpa using hmem) with ⟨rfl, rfl⟩ | ⟨rfl, rfl⟩
      · exact ⟨hcurlt, hcur⟩
      · exact ⟨hparlt, ⟨r, hleads⟩, hn⟩
  refine ⟨_, latching [(cur, some (Underfull c k)), (parent, some (Above parent cur n))], hk',
    .quiet rfl, ?_⟩
  by_cases hroom : 2 ≤ n.count ∧ n.lowerBound k + 1 < n.count
  · obtain ⟨htwo, hlt⟩ := hroom
    obtain ⟨-, hsib⟩ := hinv.held_siblings hcur ⟨⟨r, hleads⟩, hn⟩
    obtain ⟨right, -, -, -, -, -, hchild, -⟩ := hsib hlt
    simp only [htwo, hlt, hchild, and_self, if_true, Option.getD_some]
    refine ok_fixExclusive (by simp [latching, Know.nothing]) (fun m g hinv hk => ?_) fun v =>
      ⟨none, fun _ h => (nomatch h), ok_mergeRight hkeys hchild htwo hlt⟩
    obtain ⟨-, hcur⟩ := hk.exclusive.fact cur _ List.mem_cons_self
    obtain ⟨-, hpar⟩ := hk.exclusive.fact parent (Above parent cur n) (by simp)
    have hheld : ∀ pid, m.holder pid = some t ↔ pid = parent ∨ pid = cur :=
      fun pid => by simpa [or_comm] using hk.exclusive.iff pid
    obtain ⟨hpos, hsib⟩ := hinv.held_siblings hcur hpar
    obtain ⟨right', l, l', p, q, r, hchild', -, hunder, sib⟩ := hsib hlt
    obtain rfl := Option.some.inj (hchild.symm.trans hchild')
    obtain ⟨root, height, inv⟩ := hinv.tree
    obtain ⟨hne₁, hne₂, hne₃⟩ := sib.ne inv
    refine ⟨?_, hk.shares_nothing rfl, .side hheld sib hunder htwo hlt⟩
    rw [ne_eq, hheld]
    exact not_or.mpr ⟨hne₃.symm, hne₁.symm⟩
  · simp only [if_neg hroom]
    exact ok_removeAtPage hkeys List.mem_cons_self Underfull.atKey rfl rfl rfl

/-! ## remove -/

/-- The page looked like an underfull leaf, so it is one if its version has not moved on. -/
theorem ok_removeUnderfull (hkeys : k ∈ keys) {page : Page K V} (hpage : page.isUnderflow c = true)
    (hne : gp.pid ≠ entryPage) :
    (logic T c keys).Ok t ((logic T c keys).post t (.remove k : Call K V))
      (upgrade gp >>= fun ok => if !ok then pure none
        else upgrade gn >>= fun ok => if !ok then unlatchExclusive gp.pid >>= fun _ => pure none
        else mergeAtPage c k gp.pid gn.pid)
      (.pending (.remove k))
      (seeing [gn.pid] [(gn, fun pg _ => pg ≠ .unmapped → page = pg),
        (gp, Towards gp.pid gn.pid (Wants fun a b => InRange a b k))]) := by
  refine ok_upgrade (List.mem_cons_of_mem _ List.mem_cons_self) rfl
    (fun m g _ hk => Knows.free hk _) (fun _ _ hinv _ => hinv.towards_lt) (ok_over rfl) ?_
  refine ok_upgrade_below List.mem_cons_self rfl rfl rfl (fun _ _ ⟨r, hleads, _⟩ => ⟨r, hleads⟩)
    (fun _ _ _ hmapped _ => hmapped gn.pid List.mem_cons_self) ?_ ?_
  · exact ok_unlatchExclusive rfl rfl (ok_over rfl)
  · refine CallLogic.ok_of_moment fun m g hinv hk => ⟨latching [(gn.pid, some (Underfull c k)),
      (gp.pid, some fun page region => ∃ r, Leads gp.pid page region gn.pid r)],
      hk.latching rfl rfl rfl fun pid fact hmem => ?_, ok_mergeAtPage hkeys hne⟩
    obtain ⟨hlt, hgn⟩ := hk.exclusive.fact gn.pid _ List.mem_cons_self
    obtain ⟨hplt, r, hleads, hkr⟩ := hk.exclusive.fact gp.pid _
      (List.mem_cons_of_mem _ List.mem_cons_self)
    obtain ⟨root, height, inv⟩ := hinv.tree
    obtain ⟨hr, -⟩ := inv.leads hleads
    obtain rfl := hgn (inv.not_unmapped hr)
    rcases (by simpa using hmem) with ⟨rfl, rfl⟩ | ⟨rfl, rfl⟩
    · exact ⟨hlt, ⟨r, hr, hkr⟩, Page.leaf_of_isUnderflow hpage⟩
    · exact ⟨hplt, r, hleads⟩

/-- The page is not an inner node, and the last look at its parent says that it is the leaf. -/
theorem ok_removeLeaf (hkeys : k ∈ keys) :
    (logic T c keys).Ok t ((logic T c keys).post t (.remove k : Call K V))
      (upgrade gn >>= fun ok => if !ok then pure none
        else retry gp >>= fun stale =>
          if stale then unlatchExclusive gn.pid >>= fun _ => pure none
          else removeAtPage k [gn.pid] gn.pid)
      (.pending (.remove k)) (atLeaf (fun a b => InRange a b k) gp gn) := by
  refine ok_upgrade List.mem_cons_self rfl (fun m g _ hk => Knows.free hk _)
    (fun _ _ _ hmapped _ => hmapped gn.pid List.mem_cons_self) (ok_over rfl) ?_
  refine ok_retry (List.mem_cons_of_mem _ List.mem_cons_self)
    (ok_unlatchExclusive rfl rfl (ok_over rfl))
    fun m g hinv hk _ _ hfact => ?_
  obtain ⟨r, hleads, hkr⟩ := hfact
  obtain ⟨hlt, hgn⟩ := hk.exclusive.fact gn.pid _ List.mem_cons_self
  obtain ⟨root, height, inv⟩ := hinv.tree
  obtain ⟨hr, -⟩ := inv.leads hleads
  exact ⟨_, _, hk.hold_one rfl (AtKey k) hlt ⟨⟨r, hr, hkr⟩, inv.leaf_of_not_inner hr hgn⟩,
    .quiet rfl,
    ok_removeAtPage hkeys List.mem_cons_self (fun _ _ h => h) rfl rfl rfl⟩

theorem ok_remove (hkeys : k ∈ keys) {turns : Nat} :
    (logic T c keys).Ok t ((logic T c keys).post t (.remove k : Call K V))
      (removeAttempt c entryPage k turns) (.pending (.remove k)) Know.nothing := by
  rw [removeAttempt]
  refine CallLogic.Ok.bind (ok_toLeafNode (Search.sound_lowerBound k) ⟨by simp, by simp⟩) ?_
  rintro (r | ⟨gp, gn⟩) p m g hinv hmid
  · exact ⟨Know.nothing, hmid.1, fun _ _ _ hk => ⟨hk, hmid.2⟩⟩
  obtain ⟨rfl, hk⟩ := hmid
  refine ⟨_, hk, ok_peek List.mem_cons_self fun page => ⟨_, .goOn, ?_⟩⟩
  by_cases hunder : page.isUnderflow c = true ∧ gp.pid ≠ entryPage
  · simp only [hunder.1, hunder.2, ne_eq, not_false_eq_true, and_self, if_true]
    refine (ok_removeUnderfull hkeys hunder.1 hunder.2).weaken fun m g hinv hk => ?_
    exact (Knows.see hk List.mem_cons_self (fun pg _ => pg ≠ .unmapped → page = pg)
      fun _ h => h.2).seen (by simp [atLeaf, seeing]) (List.Subset.refl _)
  · rw [if_neg hunder]
    exact (ok_removeLeaf hkeys).weaken fun m g hinv hk =>
      Knows.seen hk (List.subset_cons_self _ _) (List.Subset.refl _)

/-! ## scan_ -/

omit [LinearOrder K] [Inhabited K] [DecidableEq T] in
theorem upgradeShared_bind {R : Type} {og : OptimisticGuard} {next : Bool → Code K V R} :
    (upgradeShared og >>= next) = tryLatchShared og.pid >>= fun ok =>
      if !ok then next false
      else retry og >>= fun stale =>
        if stale then unlatchShared og.pid >>= fun _ => next false else next true := by
  show Prog.instr _ _ = Prog.instr _ _
  congr 1
  funext ok
  cases ok
  · rfl
  · show Prog.instr _ _ = Prog.instr _ _
    congr 1
    funext stale
    cases stale <;> rfl

/-- A leaf whose range a scan step may cover. -/
def InReach (dir : Direction) (isFirstTraversal : Bool) (k : K) : PageFact K V := fun page region =>
  (∃ r, region = some r ∧ Reaches dir isFirstTraversal k r.lower r.upper) ∧ ∃ l, page = .leaf l

/-- The leaf is read under a shared latch, and all of its share at once. -/
theorem ok_scanLeaf {dir : Direction} {func : Callback K V} {isFirstTraversal : Bool}
    {seen : List (K × V)} {mapped : List PID} {above : List (OptimisticGuard × PageFact K V)} :
    (logic T c keys).Ok t ((logic T c keys).post t (.scan_ dir func isFirstTraversal k seen))
      (readPage cur >>= fun page => unlatchShared cur >>= fun _ => pure (some (match page with
        | .leaf l => .handed (scanLeaf dir func k l seen).1 (scanLeaf dir func k l seen).2
        | _ => .failed)))
      (.pending (.scan_ dir func isFirstTraversal k seen))
      { seeing mapped above with shared := [(cur, some (InReach dir isFirstTraversal k))] } := by
  refine ok_read (fun m g hk => .inr ((hk.shared.iff cur).mpr List.mem_cons_self))
    fun m g page hinv hk hreads => ?_
  obtain ⟨-, ⟨r, hr, hreach⟩, l, hl⟩ := hk.shared.fact cur _ List.mem_cons_self
  obtain rfl : page = .leaf l := (hreads (by simp [hl])).trans hl
  obtain ⟨root, height, inv⟩ := hinv.tree
  refine ⟨_, _, hk, .effect ?_, ok_unlatchShared rfl (ok_over rfl)⟩
  simp only [inv.scanLeaf hinv.abstracts hr hl dir func k seen]
  exact .scan_ func seen hreach

theorem ok_scan_ {dir : Direction} {func : Callback K V} {isFirstTraversal : Bool}
    {seen : List (K × V)} {turns : Nat} :
    (logic T c keys).Ok t ((logic T c keys).post t (.scan_ dir func isFirstTraversal k seen))
      (scan_Attempt entryPage dir func isFirstTraversal k seen turns)
      (.pending (.scan_ dir func isFirstTraversal k seen)) Know.nothing := by
  rw [scan_Attempt]
  refine CallLogic.Ok.bind (ok_toLeafNode (nextNode_sound dir isFirstTraversal k) ?_) ?_
  · cases dir <;> cases isFirstTraversal <;> exact ⟨by simp, by simp⟩
  rintro (r | ⟨gp, gn⟩) p m g hinv hmid
  · exact ⟨Know.nothing, hmid.1, fun _ _ _ hk => ⟨hk, hmid.2⟩⟩
  obtain ⟨rfl, hk⟩ := hmid
  refine ⟨_, hk, ?_⟩
  simp only [upgradeShared_bind]
  refine ok_tryLatchShared rfl (ok_over rfl) ?_
  refine ok_retry List.mem_cons_self (ok_unlatchShared rfl (ok_over rfl))
    fun m g hinv hk _ _ hinner => ?_
  -- the page is not an inner node, and the parent says the rest
  refine ⟨_, _, hk.share_one (fun page _ => page.isInner = false)
    (hk.mapped gn.pid List.mem_cons_self)
    hinner, .quiet rfl, ?_⟩
  refine ok_retry (List.mem_cons_of_mem _ List.mem_cons_self) (ok_unlatchShared rfl (ok_over rfl))
    fun m g hinv hk _ _ hfact => ?_
  obtain ⟨r, hleads, hreach⟩ := hfact
  obtain ⟨hlt, hinner⟩ := hk.shared.fact gn.pid _ List.mem_cons_self
  obtain ⟨root, height, inv⟩ := hinv.tree
  obtain ⟨hr, -⟩ := inv.leads hleads
  exact ⟨_, _, hk.share_one (InReach dir isFirstTraversal k) hlt
    ⟨⟨r, hr, hreach⟩, inv.leaf_of_not_inner hr hinner⟩, .quiet rfl, ok_scanLeaf⟩

/-! ## All of them -/

/-- What is asked of a `lookup_opt` besides. -/
def Call.Confirms : Call K V →
    Watch (Instr K V) Instr.Answer (Option (Reply K V)) (Pages T K V) (Ghost T K V)
  | .lookup_opt k => BTree.Confirms k
  | _ => fun _ _ _ _ => True

/-- Every attempt of every call, whatever bounds its loops. -/
theorem watched_attempt (t : T) (op : Call K V) (turns : Nat) :
    (logic T c Set.univ).Watched (fun i next m g => Concerns op.keys i m g ∧ op.Confirms i next m g)
      t ((logic T c Set.univ).post t op) (attempt c entryPage op turns) (.pending op)
      Know.nothing := by
  have hkeys : ∀ k, op.key = some k → k ∈ op.keys := fun _ h => h
  refine watched_univ ?_
  cases op with
  | insert k v => exact (ok_insert (hkeys k rfl)).watched fun _ _ _ _ => trivial
  | remove k => exact (ok_remove (hkeys k rfl)).watched fun _ _ _ _ => trivial
  | lookup k => exact (ok_lookup (hkeys k rfl)).watched fun _ _ _ _ => trivial
  | lookup_opt k => exact watched_lookup_opt
  | lookupAndUpdate k callback =>
    exact (ok_lookupAndUpdate (hkeys k rfl)).watched fun _ _ _ _ => trivial
  | scan_ dir func isFirstTraversal k seen => exact ok_scan_.watched fun _ _ _ _ => trivial

theorem ok_attempt (t : T) (op : Call K V) (turns : Nat) :
    (logic T c Set.univ).Ok t ((logic T c Set.univ).post t op) (attempt c entryPage op turns)
      (.pending op) Know.nothing :=
  (watched_attempt t op turns).ok

/-! ## Runs -/

abbrev WorkerStates (T K V : Type) :=
  CallStates T (Pages T K V) (Call K V) (Instr K V) Instr.Answer (Reply K V)

/-- The instruction worker `t` is about to execute. -/
def WorkerStates.Next (s : WorkerStates T K V) (t : T) (i : Instr K V) : Prop :=
  ∃ op next, s.call t = .running op (.instr i next)

/-- What the logic says about a state that is reached. -/
theorem reached_invariant {ls : List (Event T (Call K V) (Reply K V))} {s : WorkerStates T K V}
    (ht : (workers T c).system.Trace ls s) : ∃ g, Consistent c s.memory g ∧
    (∀ t, s.call t = .idle → Knows Know.nothing t s.memory g) ∧
    ∀ t i, s.Next t i → Safe c t i s.memory g := by
  obtain ⟨g, hinv, hidle, -, hsafe⟩ := (logic T c Set.univ).invariant watched_attempt ht
  exact ⟨g, hinv, hidle, fun t i ⟨op, next, h⟩ => (hsafe t op i next h).1.1⟩

end ScaleStore.BTree
