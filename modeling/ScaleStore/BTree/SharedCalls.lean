/-
# The calls, one attempt at a time

Every attempt of every call is correct for the worker that makes it, whatever the
others do: it has the effect of the call at one moment and ends, or it has none and
starts again; either way it leaves nothing latched.
-/

import ScaleStore.BTree.Traversals

namespace ScaleStore.BTree

variable {T K V : Type} [DecidableEq T] [LinearOrder K] [Inhabited K] {c : Capacity} {t : T}
  {keys : Set K} {op : Call K V} {gp gn : OptimisticGuard} {k : K}

section Facts

variable {m : Pages T K V} {g : Ghost T K V} {parent cur : PID} {r : Region K}

omit [DecidableEq T] [Inhabited K] in
/-- New facts about the pages that are held. -/
theorem Knows.hold {know : Know K V} (hk : Knows know t m g)
    (latched : List (PID × Option (PageFact K V)))
    (hsame : latched.map Prod.fst = know.exclusive.map Prod.fst)
    (hfact : ∀ pid fact, (pid, some fact) ∈ latched → pid < m.heap.next ∧
      fact (m.heap.page pid) (g.layout pid)) : Knows { know with exclusive := latched } t m g :=
  { hk with exclusive := ⟨fun q => by rw [hsame]; exact hk.exclusive.iff q,
      hsame ▸ hk.exclusive.nodup, hfact⟩ }

omit [DecidableEq T] [Inhabited K] in
/-- The same when one page is held. -/
theorem Knows.hold_one {know : Know K V} (hk : Knows know t m g) {o : Option (PageFact K V)}
    (hx : know.exclusive = [(cur, o)]) (fact : PageFact K V) (hlt : cur < m.heap.next)
    (hfact : fact (m.heap.page cur) (g.layout cur)) :
    Knows { know with exclusive := [(cur, some fact)] } t m g := by
  refine hk.hold _ (by simp [hx]) fun pid fact' hmem => ?_
  obtain ⟨rfl, rfl⟩ : pid = cur ∧ fact' = fact := by simpa using hmem
  exact ⟨hlt, hfact⟩

omit [DecidableEq T] [Inhabited K] in
/-- A new fact about the page that is shared. -/
theorem Knows.share_one {mapped : List PID} {seen : List (OptimisticGuard × PageFact K V)}
    {o : Option (PageFact K V)} (hk : Knows { seeing mapped seen with shared := [(cur, o)] } t m g)
    (fact : PageFact K V)
    (hlt : cur < m.heap.next) (hfact : fact (m.heap.page cur) (g.layout cur)) :
    Knows { seeing mapped seen with shared := [(cur, some fact)] } t m g := by
  refine { hk with shared := ⟨hk.shared.iff, by simp, fun pid fact' hmem => ?_⟩ }
  obtain ⟨rfl, rfl⟩ : pid = cur ∧ fact' = fact := by simpa using hmem
  exact ⟨hlt, hfact⟩

omit [DecidableEq T] [Inhabited K] in
theorem Consistent.inner_of_leads
    (hleads : Leads parent (m.heap.page parent) (g.layout parent) cur r) :
    parent = entryPage ∨ ∃ s, g.layout parent = some s ∧ 1 ≤ s.level := by
  rcases hleads with ⟨rfl, -⟩ | ⟨s, n, i, hs, -, hlevel, -⟩
  · exact .inl rfl
  · exact .inr ⟨s, hs, by omega⟩

omit [DecidableEq T] [Inhabited K] in
/-- A page below an unlatched one is not claimed. -/
theorem Consistent.free_of_leads (hinv : Consistent c m g) (hholder : m.holder parent = none)
    (hleads : Leads parent (m.heap.page parent) (g.layout parent) cur r) : g.claim cur = none := by
  by_contra hsome
  obtain ⟨u, hu⟩ := Option.ne_none_iff_exists'.mp hsome
  obtain ⟨parent', r', hheld, hleads'⟩ := hinv.claims cur u hu
  obtain ⟨root, height, inv⟩ := hinv.tree
  obtain rfl := inv.leads_unique hleads hleads'
  rw [hholder] at hheld
  cases hheld

end Facts

/-- The page is a leaf, and the search for `k` ends there. -/
def AtKey (k : K) : PageFact K V := fun page region =>
  (∃ r, region = some r ∧ r.Holds k) ∧ ∃ l, page = .leaf l

omit [DecidableEq T] [Inhabited K] in
theorem Consistent.atKey {m : Pages T K V} {g : Ghost T K V} {cur : PID} {r : Region K}
    (hinv : Consistent c m g) (hr : g.layout cur = some r) (hlevel : r.level = 0) (hk : r.Holds k) :
    AtKey k (m.heap.page cur) (g.layout cur) := by
  obtain ⟨root, height, inv⟩ := hinv.tree
  obtain ⟨l, hl, -⟩ := inv.leaf_page hr hlevel
  exact ⟨⟨r, hr, hk⟩, l, hl⟩

/-- A leaf is held that the page above led to when it was held already. -/
def holding (fact : PageFact K V) (gp : OptimisticGuard) (above : PageFact K V) (cur : PID) :
    Know K V :=
  { Know.nothing with
    optimistic := [(gp, above)], exclusive := [(cur, some fact)], inner := [gp.pid]
    unclaimed := [cur] }

/-- How `insert` and `lookupAndUpdate` latch their leaf. -/
theorem ok_latchLeaf (hop : op.byHeight = true) {splits : Bool} {cur : PID}
    {rest : Code K V (Option (Reply K V))}
    (h : gp.pid ≠ cur → (logic T c keys).Ok t ((logic T c keys).post t op) rest (.pending op)
      (holding (AtKey k) gp (Towards gp.pid cur (Covers c splits k 0)) cur)) :
    (logic T c keys).Ok t ((logic T c keys).post t op)
      (fixExclusive cur >>= fun _ => readPage cur >>= fun page =>
        if !page.isLeaf then unlatchExclusive cur >>= fun _ => pure (some .failed)
        else retry gp >>= fun stale =>
          if stale then unlatchExclusive cur >>= fun _ => pure none else rest)
      (.pending op) (seeing [] [(gp, Towards gp.pid cur (Covers c splits k 0))]) := by
  refine ok_fixExclusive (by simp [seeing, Know.nothing]) (fun m g _ hk => Knows.free hk cur)
    fun _ => ⟨none, fun _ h => (nomatch h), ?_⟩
  refine ok_read (fun m g hk => .inl ((hk.exclusive.iff cur).mpr (by simp)))
    fun m g page hinv hk _ => ?_
  cases hleaf : page.isLeaf with
  | false =>
    exact ⟨_, _, hk, .effect (.failed hop), ok_unlatchExclusive rfl rfl (ok_over rfl)⟩
  | true =>
    refine ⟨_, _, hk, .quiet rfl, ?_⟩
    refine ok_retry List.mem_cons_self (ok_unlatchExclusive rfl rfl (ok_over rfl))
      fun m g hinv hk _ hholder hfact => ?_
    obtain ⟨r, hleads, hlevel, hr, hroom⟩ := hfact
    obtain ⟨root, height, inv⟩ := hinv.tree
    obtain ⟨hG, -⟩ := inv.leads hleads
    have hheld : m.holder cur = some t := (hk.exclusive.iff cur).mpr (by simp)
    have hk' := hk.hold_one rfl (AtKey k) (inv.lt_next _ _ hG) (hinv.atKey hG hlevel hr)
    refine ⟨_, holding (AtKey k) gp (Towards gp.pid cur (Covers c splits k 0)) cur, ?_, .quiet rfl,
      h (inv.leads_ne hleads)⟩
    refine { hk' with inner := fun pid hmem => ?_, unclaimed := fun pid hmem => ?_ }
    · obtain rfl := List.mem_singleton.mp hmem
      exact Consistent.inner_of_leads hleads
    · obtain rfl := List.mem_singleton.mp hmem
      exact ⟨hheld, hinv.free_of_leads hholder hleads⟩

/-! ## insert -/

theorem ok_insertAtPage (hkeys : k ∈ keys) {v : V} {cur : PID} :
    (logic T c keys).Ok t ((logic T c keys).post t (.insert k v)) (insertAtPage c k v gp cur)
      (.pending (.insert k v)) (seeing [] [(gp, Towards gp.pid cur (Covers c true k 0))]) := by
  rw [insertAtPage]
  refine ok_latchLeaf rfl fun hne => ?_
  refine ok_read (fun m g hk => .inl ((hk.exclusive.iff cur).mpr (by simp [holding])))
    fun m g page hinv hk hreads => ?_
  obtain ⟨hlt, hregion, l, hl⟩ := hk.exclusive.fact cur _ List.mem_cons_self
  obtain rfl := hreads (by simp [hl])
  have hk' := hk.hold_one rfl (fun page region => AtKey k page region ∧ page = .leaf l) hlt
    ⟨⟨hregion, l, hl⟩, hl⟩
  refine ⟨_, _, hk', .quiet rfl, ?_⟩
  simp only [hl, Page.isFull]
  cases hfull : l.isFull c with
  | true =>
    -- the leaf is full: its parent is latched as well
    simp only [if_true]
    refine ok_upgrade List.mem_cons_self rfl (fun m g hinv hk => ?_)
      (fun _ _ hinv _ => hinv.towards_lt) ?_ ?_
    · have hheld : ∀ q, m.holder q = some t ↔ q = cur := fun q => by
        simpa [holding] using hk.exclusive.iff q
      obtain ⟨-, ⟨⟨r, hr, -⟩, -⟩, hl⟩ := hk.exclusive.fact cur _ List.mem_cons_self
      obtain ⟨root, height, inv⟩ := hinv.tree
      exact ⟨by rw [ne_eq, hheld]; exact hne, hk.shares_nothing rfl,
        .up hheld hr (inv.level_of_leaf hr hl) (hk.unclaimed cur List.mem_cons_self).2
          (hk.inner gp.pid List.mem_cons_self)⟩
    · exact ok_unlatchExclusive rfl rfl (ok_over rfl)
    · refine ok_splitNode rfl List.mem_cons_self (List.mem_cons_of_mem _ List.mem_cons_self) ?_
        (fun _ => hkeys) ?_
      · rintro page r hr ⟨-, rfl⟩ -
        exact hfull
      · exact ok_unlatchExclusive rfl rfl (ok_unlatchExclusive rfl rfl (ok_over rfl))
  | false =>
    simp only [Bool.false_eq_true, if_false]
    refine ok_write (i := .insert cur k v) rfl fun m g hinv hk => ?_
    obtain ⟨hlt, ⟨⟨r, hr, hkr⟩, -⟩, hl⟩ := hk.exclusive.fact cur _ List.mem_cons_self
    have hheld := (hk.exclusive.iff cur).mpr List.mem_cons_self
    obtain ⟨root, height, inv⟩ := hinv.tree
    have hroom : l.count < c.leaf := by
      have hne : l.count ≠ c.leaf := by simpa [Leaf.isFull] using hfull
      have := (inv.leafOK hr hl).count_le
      omega
    refine ⟨⟨⟨hheld, l, ⟨r, hr, hkr, hl⟩, hroom⟩, hkeys⟩, (), _, _, _, [(cur, none)],
      fun a m' hexec => ⟨rfl, ?_⟩, hinv.insert hheld hr hkr hl hroom v, .effect (.insert k v), rfl,
      by simp, ok_unlatchExclusive rfl rfl (ok_over rfl)⟩
    simpa [execInstr, hl] using hexec

theorem ok_insert (hkeys : k ∈ keys) {v : V} :
    (logic T c keys).Ok t ((logic T c keys).post t (.insert k v)) (insertAttempt c entryPage k v)
      (.pending (.insert k v)) Know.nothing := by
  rw [insertAttempt]
  refine CallLogic.Ok.bind (ok_toLeaf rfl) ?_
  rintro (r | ⟨gp, cur⟩) p m g hinv hmid
  · exact ⟨Know.nothing, hmid.1, fun _ _ _ hk => ⟨hk, hmid.2⟩⟩
  · obtain ⟨rfl, hk⟩ := hmid
    exact ⟨_, hk, ok_insertAtPage hkeys⟩

/-! ## lookupAndUpdate -/

/-- The leaf is latched, and its payload for `k` is changed if there is one. -/
theorem ok_updateKey (hkeys : k ∈ keys) {callback : V → V} {cur : PID} {above : PageFact K V} :
    (logic T c keys).Ok t ((logic T c keys).post t (.lookupAndUpdate k callback))
      (updateKey cur k callback >>= fun found => unlatchExclusive cur >>= fun _ =>
        pure (some (if found then .done else .raised)))
      (.pending (.lookupAndUpdate k callback)) (holding (AtKey k) gp above cur) := by
  intro m g hinv hk
  obtain ⟨-, ⟨r, hr, hkr⟩, l, hl⟩ := hk.exclusive.fact cur _ List.mem_cons_self
  have hheld := (hk.exclusive.iff cur).mpr List.mem_cons_self
  refine ⟨⟨⟨hheld, l, r, hr, hkr, hl⟩, hkeys⟩, ?_⟩
  rcases hinv.update hheld hr hkr hl callback with ⟨v, l', hfind, hupdate, w⟩ | ⟨hfind, hupdate⟩
  · refine w.step (a := true) hinv hk rfl [(cur, none)] (fun found m' hexec => ?_)
      (.effect (.update callback hfind)) rfl (by simp) (ok_unlatchExclusive rfl rfl (ok_over rfl))
    simpa [execInstr, hl, hupdate] using hexec
  · intro found m' hexec
    change execInstr c entryPage t (.update cur k callback) m found m' at hexec
    obtain ⟨rfl, rfl⟩ : found = false ∧ m' = m := by simpa [execInstr, hl, hupdate] using hexec
    exact ⟨g, _, _, hinv, hk, fun _ _ => .refl, .effect (.raise callback hfind),
      ok_unlatchExclusive rfl rfl (ok_over rfl)⟩

theorem ok_lookupAndUpdate (hkeys : k ∈ keys) {callback : V → V} :
    (logic T c keys).Ok t ((logic T c keys).post t (.lookupAndUpdate k callback))
      (lookupAndUpdateAttempt c entryPage k callback) (.pending (.lookupAndUpdate k callback))
      Know.nothing := by
  rw [lookupAndUpdateAttempt]
  refine CallLogic.Ok.bind (ok_toLeaf rfl) ?_
  rintro (r | ⟨gp, cur⟩) p m g hinv hmid
  · exact ⟨Know.nothing, hmid.1, fun _ _ _ hk => ⟨hk, hmid.2⟩⟩
  · obtain ⟨rfl, hk⟩ := hmid
    exact ⟨_, hk, ok_latchLeaf rfl fun _ => ok_updateKey hkeys⟩

/-! ## lookup -/

theorem ok_lookup (hkeys : k ∈ keys) :
    (logic T c keys).Ok t ((logic T c keys).post t (.lookup k : Call K V))
      (lookupAttempt c entryPage k) (.pending (.lookup k)) Know.nothing := by
  rw [lookupAttempt]
  refine CallLogic.Ok.bind (ok_toLeaf rfl) ?_
  rintro (r | ⟨gp, cur⟩) p m g hinv hmid
  · exact ⟨Know.nothing, hmid.1, fun _ _ _ hk => ⟨hk, hmid.2⟩⟩
  obtain ⟨rfl, hk⟩ := hmid
  refine ⟨_, hk, ok_fixShared rfl rfl ?_⟩
  refine ok_retry List.mem_cons_self (ok_unlatchShared rfl (ok_over rfl))
    fun m g hinv hk _ _ hfact => ?_
  -- the leaf is the one for `k`, and stays it under the latch
  obtain ⟨r, hleads, hlevel, hr, -⟩ := hfact
  obtain ⟨root, height, inv⟩ := hinv.tree
  obtain ⟨hG, -⟩ := inv.leads hleads
  refine ⟨_, _, hk.share_one (AtKey k) (inv.lt_next _ _ hG) (hinv.atKey hG hlevel hr),
    .quiet rfl, ?_⟩
  refine ok_still (i := .find cur k) (fun m g hinv hk => ?_) (fun _ _ _ h => h.2) ?_
  · obtain ⟨-, ⟨r, hr, hkr⟩, l, hl⟩ := hk.shared.fact cur _ List.mem_cons_self
    exact ⟨⟨(hk.shared.iff cur).mpr List.mem_cons_self, l, r, hr, hkr, hl⟩, hkeys⟩
  · rintro m g v hinv hk ⟨⟨page, hreads, rfl⟩, -⟩
    obtain ⟨-, ⟨r, hr, hkr⟩, l, hl⟩ := hk.shared.fact cur _ List.mem_cons_self
    obtain rfl := hreads (by simp [hl])
    obtain ⟨root, height, inv⟩ := hinv.tree
    refine ⟨_, _, hk, .effect ?_, ok_unlatchShared rfl (ok_over rfl)⟩
    rw [inv.payload hinv.abstracts hr hl hkr]
    exact .lookup k

/-! ## lookup_opt -/

/-- A look at a version with which a `lookup_opt` of `k` is over is a look at the leaf for `k`, and
what was found is what this leaf holds. -/
def Confirms (k : K) :
    Watch (Instr K V) Instr.Answer (Option (Reply K V)) (Pages T K V) (Ghost T K V)
  | .retry og, next, m, g => ∀ a, next false = .ret (some a) → a ≠ .failed →
      m.version og.pid = og.vAcquired →
        ∃ l, EndsAt m g og.pid k l ∧ a = .found ((Page.leaf l).payload k)
  | _, _, _, _ => True

theorem lookupLeaf_ne {cur : PID} {turns : Nat} {a : Reply K V} :
    lookupLeaf k gp cur turns ≠ .ret (some a) := by
  cases turns <;> exact fun h => nomatch h

/-- A leaf is read between two looks at its version, the second of which is the lookup. -/
theorem watched_lookupLeaf {cur : PID} {turns : Nat} :
    (logic T c keys).Watched (Confirms k) t ((logic T c keys).post t (.lookup_opt k : Call K V))
      (lookupLeaf k gp cur turns) (.pending (.lookup_opt k))
      (seeing [] [(gp, Towards gp.pid cur (Covers c false k 0))]) := by
  induction turns with
  | zero => exact ok_over rfl
  | succ turns ih =>
    have hagain : ∀ seen, (logic T c keys).Watched (Confirms k) t
        ((logic T c keys).post t (.lookup_opt k : Call K V))
        (lookupLeaf k gp cur turns) (.pending (.lookup_opt k))
        (seeing [] (seen ++ [(gp, Towards gp.pid cur (Covers c false k 0))])) := fun seen =>
      CallLogic.watched_of_moment fun m g hinv hk =>
        ⟨_, Knows.seen hk (List.subset_append_right _ _) (List.nil_subset _), ih⟩
    rw [lookupLeaf]
    refine watched_fixOptimistic rfl rfl (fun _ _ => trivial) fun gn hgn => ?_
    subst hgn
    -- what the first look at the version says comes into play after the parent's
    have hrest : (logic T c keys).Watched (Confirms k) t
        ((logic T c keys).post t (.lookup_opt k : Call K V))
        (retry gn >>= fun stale =>
          if stale then lookupLeaf k gp gn.pid turns
          else peek gn >>= fun page => retry gp >>= fun stale =>
            if stale then pure none
            else retry gn >>= fun stale =>
              if stale then lookupLeaf k gp gn.pid turns
              else pure (some (.found (page.payload k)))) (.pending (.lookup_opt k))
        (seeing [] [(gn, AtKey k), (gp, Towards gp.pid gn.pid (Covers c false k 0))]) := by
      refine watched_check List.mem_cons_self (fun _ _ _ h => nomatch h) (hagain [_]) ?_
      refine watched_peek List.mem_cons_self (fun _ _ => trivial) fun page => ⟨_, .goOn, ?_⟩
      refine watched_check (List.mem_cons_of_mem _ (List.mem_cons_of_mem _ List.mem_cons_self))
        (fun _ _ _ h => nomatch h) (ok_over rfl) ?_
      refine watched_retry List.mem_cons_self (fun m g hinv hk a ha _ hversion => ?_)
        (hagain [_, _]) fun m g hinv hk _ _ hfact => ?_
      · obtain ⟨-, ⟨⟨r, hr, hkr⟩, l, hl⟩, hpage⟩ :=
          (hk.optimistic gn _ List.mem_cons_self).2 hversion
        obtain rfl := hpage (by simp [hl])
        obtain rfl := Option.some.inj (Prog.ret.inj ha)
        exact ⟨l, ⟨r, hr, hkr, hl⟩, by rw [hl]⟩
      · obtain ⟨⟨⟨r, hr, hkr⟩, l, hl⟩, hpage⟩ := hfact
        obtain rfl := hpage (by simp [hl])
        obtain ⟨root, height, inv⟩ := hinv.tree
        refine ⟨_, _, hk, .effect ?_, ok_over rfl⟩
        rw [inv.payload hinv.abstracts hr hl hkr]
        exact .lookup_opt k
    have hparent : ∀ stale : Bool, (logic T c keys).Watched (Confirms k) t
        ((logic T c keys).post t (.lookup_opt k : Call K V))
        (retry gp >>= fun stale' =>
          if stale' then pure none
          else if stale then lookupLeaf k gp gn.pid turns
          else retry gn >>= fun stale =>
            if stale then lookupLeaf k gp gn.pid turns
            else peek gn >>= fun page => retry gp >>= fun stale =>
              if stale then pure none
              else retry gn >>= fun stale =>
                if stale then lookupLeaf k gp gn.pid turns
                else pure (some (.found (page.payload k)))) (.pending (.lookup_opt k))
        (seeing [] [(gn, fun _ _ => True), (gp, Towards gp.pid gn.pid (Covers c false k 0))]) := by
      intro stale
      refine watched_retry (List.mem_cons_of_mem _ List.mem_cons_self) (fun m g _ _ a ha => ?_)
        (ok_over rfl) fun m g hinv hk _ _ hfact => ?_
      · cases stale with
        | true => exact absurd ha lookupLeaf_ne
        | false => cases ha
      cases stale with
      | true => exact ⟨_, _, hk, .quiet rfl, hagain [_]⟩
      | false =>
        obtain ⟨r, hleads, hlevel, hr, -⟩ := hfact
        obtain ⟨root, height, inv⟩ := hinv.tree
        have hk' := Knows.see hk List.mem_cons_self (AtKey k) fun _ _ =>
          hinv.atKey (inv.leads hleads).1 hlevel hr
        exact ⟨_, _, hk'.seen (by simp) (List.nil_subset _), .quiet rfl, hrest⟩
    exact watched_check List.mem_cons_self (fun _ _ _ h => nomatch h) (hparent true) (hparent false)

theorem watched_lookup_opt {turns : Nat} :
    (logic T c keys).Watched (Confirms k) t ((logic T c keys).post t (.lookup_opt k : Call K V))
      (lookup_optAttempt c entryPage k turns) (.pending (.lookup_opt k)) Know.nothing := by
  rw [lookup_optAttempt]
  refine (ok_toLeaf rfl).watched_bind toLeaf_endsIn (fun i next m g hnext => ?_) ?_
  · -- on the way down the call ends with a failed check only
    cases i with
    | retry og =>
      intro a ha hne
      have hfalse := hnext false
      beta_reduce at ha
      rcases hd : next false with (r | ⟨gp, cur⟩) | _ | _ <;> rw [hd] at ha hfalse
      · exact absurd (hfalse a (congrArg _ (Prog.ret.inj ha))) hne
      · exact absurd ha lookupLeaf_ne
      · cases ha
      · cases ha
    | _ => trivial
  rintro (r | ⟨gp, cur⟩) p m g hinv hmid
  · exact ⟨Know.nothing, hmid.1, fun _ _ _ hk => ⟨hk, hmid.2⟩⟩
  · obtain ⟨rfl, hk⟩ := hmid
    exact ⟨_, hk, watched_lookupLeaf⟩

end ScaleStore.BTree
