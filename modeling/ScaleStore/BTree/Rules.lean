/-
# Rules for the instructions

One rule for each instruction, with what a worker knows before it and after it.  What
it takes for an instruction to be safe goes beyond latches: a leaf is only changed
when the search for the key ends there, a split finds all it needs, and a worker that
waits for a latch does so in one of four ways.
-/

import ScaleStore.BTree.AtomicMap
import ScaleStore.BTree.Knowledge

namespace ScaleStore.BTree

section Safe

variable {T K V : Type} [LinearOrder K]

/-! ## What is safe -/

/-- How a worker comes to wait for the latch of `pid`. -/
inductive Way (c : Capacity) (t : T) (pid : PID) (m : Pages T K V) (g : Ghost T K V) : Prop
  /-- It holds nothing. -/
  | free (h : ∀ q, m.holder q ≠ some t)
  /-- It holds a leaf and wants the page above. -/
  | up {leaf : PID} {r : Region K} (hheld : ∀ q, m.holder q = some t ↔ q = leaf)
      (hr : g.layout leaf = some r) (hlevel : r.level = 0) (hclaim : g.claim leaf = none)
      (hpid : pid = entryPage ∨ ∃ s, g.layout pid = some s ∧ 1 ≤ s.level)
  /-- It holds a page and wants the one below that it has found unlatched. -/
  | down {parent : PID} {r : Region K} (hheld : ∀ q, m.holder q = some t ↔ q = parent)
      (hleads : Leads parent (m.heap.page parent) (g.layout parent) pid r)
      (hclaim : g.claim pid = some t)
  /-- It holds an underfull leaf and the page above, and wants the right sibling of the leaf. -/
  | side {parent cur : PID} {pos : Nat} {n : Inner K} {l l' : Leaf K V} {p r q : Region K}
      (hheld : ∀ q, m.holder q = some t ↔ q = parent ∨ q = cur)
      (sib : Siblings m.heap g.layout parent cur pid n pos l l' p r q)
      (hunder : l.isUnderflow c = true) (htwo : 2 ≤ n.count) (hpos : pos + 1 < n.count)

/-- The search for `k` ends at the page `pid`, which is the leaf `l`. -/
def EndsAt (m : Pages T K V) (g : Ghost T K V) (pid : PID) (k : K) (l : Leaf K V) : Prop :=
  ∃ r, g.layout pid = some r ∧ r.Holds k ∧ m.heap.page pid = .leaf l

variable [Inhabited K]

def Safe (c : Capacity) (t : T) : Instr K V → Pages T K V → Ghost T K V → Prop
  | .fixOptimistic _, m, _ | .fixShared _, m, _ =>
      (∀ q, m.holder q ≠ some t) ∧ ∀ q, t ∉ m.sharers q
  | .fixExclusive pid, m, g =>
      m.holder pid ≠ some t ∧ (∀ q, t ∉ m.sharers q) ∧ Way c t pid m g
  | .unlatchExclusive pid, m, _ => m.holder pid = some t
  | .unlatchShared pid, m, _ => t ∈ m.sharers pid
  | .read pid, m, _ => m.holder pid = some t ∨ t ∈ m.sharers pid
  | .find pid k, m, g => t ∈ m.sharers pid ∧ ∃ l, EndsAt m g pid k l
  | .insert pid k _, m, g =>
      m.holder pid = some t ∧ ∃ l, EndsAt m g pid k l ∧ l.count < c.leaf
  | .remove pid k, m, g | .update pid k _, m, g => m.holder pid = some t ∧ ∃ l, EndsAt m g pid k l
  | .split parent cur, m, _ => m.holder parent = some t ∧ m.holder cur = some t ∧
      ∃ h, splitPage c entryPage m.heap parent cur = .ok h
  | .merge parent cur right pos, m, _ =>
      m.holder parent = some t ∧ m.holder cur = some t ∧ m.holder right = some t ∧
        ∃ n l r, m.heap.page parent = .inner n ∧ m.heap.page cur = .leaf l ∧
          m.heap.page right = .leaf r ∧ n.children[pos]? = some cur ∧
          n.children[pos + 1]? = some right ∧ 2 ≤ n.count ∧ l.count + r.count < c.leaf
  | .tryLatchShared _, _, _ | .retry _, _, _ | .peek _, _, _ => True

/-- A leaf is read and changed for one of `keys`, and reorganised on the way to one of them. -/
def Concerns (keys : Set K) : Instr K V → Pages T K V → Ghost T K V → Prop
  | .find _ k, _, _ | .insert _ k _, _, _ | .remove _ k, _, _ | .update _ k _, _, _ => k ∈ keys
  | .split _ cur, m, g | .merge _ cur _ _, m, g =>
      ∀ l, m.heap.page cur = .leaf l → ∃ k ∈ keys, EndsAt m g cur k l
  | _, _, _ => True

omit [Inhabited K] in
theorem Concerns.mono {keys keys' : Set K} {i : Instr K V} {m : Pages T K V} {g : Ghost T K V}
    (h : Concerns keys i m g) (hsub : keys ⊆ keys') : Concerns keys' i m g := by
  cases i with
  | find | insert | remove | update => exact hsub h
  | split | merge =>
    intro l hl
    obtain ⟨k, hk, hends⟩ := h l hl
    exact ⟨k, hsub hk, hends⟩
  | _ => trivial

end Safe

section Rules

variable {T K V : Type} [DecidableEq T] [LinearOrder K] [Inhabited K] {c : Capacity} {keys : Set K}

/-! ## Steps that leave everything as it is -/

section Still

variable {m m' : Pages T K V} {g g' : Ghost T K V} {t : T} {k : Know K V}

omit [DecidableEq T] [Inhabited K] in
theorem Rely.refl : Rely t m g m g :=
  ⟨le_rfl, fun _ => le_rfl, fun _ _ h => ⟨h, rfl, rfl⟩, fun _ => .rfl, fun _ => .rfl,
    fun _ _ _ => ⟨rfl, rfl⟩, fun _ _ _ => ⟨rfl, rfl⟩, fun _ r h _ => ⟨r, h, rfl⟩, fun _ => .rfl,
    fun _ _ h => h⟩

omit [DecidableEq T] [LinearOrder K] [Inhabited K] in
theorem Moved.holder (h : Moved m m') : m'.holder = m.holder ∧ m'.sharers = m.sharers ∧
    m'.heap = m.heap := by
  obtain ⟨pid, v, -, -, -, rfl⟩ := h
  exact ⟨rfl, rfl, rfl⟩

omit [DecidableEq T] [Inhabited K] in
theorem Moved.consistent (hinv : Consistent c m g) (h : Moved m m') : Consistent c m' g := by
  obtain ⟨hholder, hsharers, hheap⟩ := h.holder
  refine ⟨?_, ?_, ?_, ?_⟩
  · rw [hheap]
    exact hinv.tree
  · rw [hheap]
    exact hinv.abstracts
  · rw [hholder, hsharers]
    exact hinv.latches
  · rw [hholder, hheap]
    exact hinv.claims

omit [DecidableEq T] [Inhabited K] in
theorem Moved.rely (h : Moved m m') : Rely t m g m' g := by
  obtain ⟨hholder, hsharers, hheap⟩ := h.holder
  obtain ⟨pid, v, -, -, hlt, hm'⟩ := h
  have hversion : m'.version = Function.update m.version pid v := by rw [hm']
  refine ⟨hheap ▸ le_rfl, fun q => ?_, fun q _ hq => ⟨hholder ▸ hq, ?_⟩, fun q => ?_, fun q => ?_,
    fun q _ _ => ?_, fun q _ _ => ?_, fun _ r hr _ => ⟨r, hr, rfl⟩, fun _ => .rfl, fun _ _ hq => hq⟩
  · rw [hversion]
    by_cases hq : q = pid
    · subst hq
      simpa using hlt.le
    · simp [Function.update_of_ne hq]
  · exact ⟨by rw [hheap], rfl⟩
  · rw [hholder]
  · rw [hsharers]
  · exact ⟨by rw [hheap], rfl⟩
  · exact ⟨by rw [hheap], rfl⟩

omit [DecidableEq T] [Inhabited K] in
/-- Nothing is known, and nothing is latched or claimed. -/
theorem knows_nothing : Knows Know.nothing t m g ↔
    (∀ q, m.holder q ≠ some t) ∧ (∀ q, t ∉ m.sharers q) ∧ ∀ q, g.claim q ≠ some t := by
  constructor
  · intro h
    refine ⟨fun q hq => ?_, fun q hq => ?_, fun q hq => ?_⟩
    · cases (h.exclusive.iff q).mp hq
    · cases (h.shared.iff q).mp hq
    · cases (h.claim_iff q).mp hq
  · rintro ⟨hholder, hsharers, hclaim⟩
    refine ⟨fun _ _ h => (nomatch h), ⟨fun q => ?_, List.nodup_nil, fun _ _ h => (nomatch h)⟩,
      ⟨fun q => ?_, List.nodup_nil, fun _ _ h => (nomatch h)⟩, fun _ h => (nomatch h),
      fun _ h => (nomatch h), fun q => ?_, fun _ h => (nomatch h)⟩
    · simp [Know.nothing, hholder q]
    · simp [Know.nothing, hsharers q]
    · simp [Know.nothing, hclaim q]

end Still

variable (T c keys) in
/-- What the calls for `keys` are proved with. -/
def logic : CallLogic (workers (K := K) (V := V) T c) mapObject (Ghost T K V) (Know K V) where
  value g := g.map
  inv := Consistent c
  rely := Rely
  knows := Knows
  rest := Know.nothing
  safe t i m g := Safe c t i m g ∧ Concerns keys i m g
  stable := Knows.stable
  undisturbed := fun hinv h => ⟨_, h.consistent hinv, rfl, fun _ => h.rely⟩
  starts := by
    rintro m ⟨hheap, hholder, hsharers⟩
    obtain ⟨G, inv, habs⟩ := create_inv (K := K) (V := V) c
    refine ⟨⟨OrderedMap.empty, G, fun _ => none⟩, ⟨⟨1, 0, hheap ▸ inv⟩, hheap ▸ habs, ?_, ?_⟩, rfl,
      fun t => knows_nothing.mpr ⟨?_, ?_, ?_⟩⟩
    · exact fun pid _ _ => hholder pid
    · exact fun _ _ h => (nomatch h)
    · exact fun q h => by simp [hholder q] at h
    · exact fun q h => by simp [hsharers q] at h
    · exact fun _ h => (nomatch h)

/-- What is proved for `keys` holds of a call among others, which does nothing at leaves but for
`keys`. -/
theorem watched_univ {R : Type} {t : T} {p : Phase (Call K V) (Reply K V)} {k : Know K V}
    {Q : R → Phase (Call K V) (Reply K V) → Pages T K V → Ghost T K V → Prop}
    {W : Watch (Instr K V) Instr.Answer R (Pages T K V) (Ghost T K V)} {prog : Code K V R}
    (h : (logic T c keys).Watched W t Q prog p k) :
    (logic T c Set.univ).Watched (fun i next m g => Concerns keys i m g ∧ W i next m g) t Q prog p
      k := by
  induction prog generalizing p k with
  | ret r => exact h
  | throw => exact h
  | instr i next ih =>
    intro m g hinv hk
    obtain ⟨⟨⟨hsafe, hkeys⟩, hW⟩, hnext⟩ := h m g hinv hk
    refine ⟨⟨⟨hsafe, hkeys.mono (Set.subset_univ keys)⟩, hkeys, hW⟩, fun a m' hexec => ?_⟩
    obtain ⟨g', p', k', hinv', hk', hrely, hhappens, h'⟩ := hnext a m' hexec
    exact ⟨g', p', k', hinv', hk', hrely, hhappens, ih a h'⟩

/-! ## Instructions that change nothing -/

section Look

variable {R : Type} {Q : R → Phase (Call K V) (Reply K V) → Pages T K V → Ghost T K V → Prop}
  {p : Phase (Call K V) (Reply K V)} {k : Know K V} {t : T} {og : OptimisticGuard}
  {fact : PageFact K V} {pid : PID} {m : Pages T K V} {g : Ghost T K V}
  {W : Watch (Instr K V) Instr.Answer R (Pages T K V) (Ghost T K V)}

def Know.learn (k : Know K V) (og : OptimisticGuard) (fact : PageFact K V) : Know K V :=
  { k with optimistic := (og, fact) :: k.optimistic }

omit [DecidableEq T] [Inhabited K] in
theorem Knows.learn (h : Knows k t m g) (hle : og.vAcquired ≤ m.version og.pid)
    (hfact : m.version og.pid = og.vAcquired → m.holder og.pid = none ∧
      fact (m.heap.page og.pid) (g.layout og.pid)) : Knows (k.learn og fact) t m g := by
  refine { h with optimistic := fun og' fact' hmem => ?_ }
  rcases List.mem_cons.mp hmem with heq | hmem
  · cases heq
    exact ⟨hle, hfact⟩
  · exact h.optimistic og' fact' hmem

omit [DecidableEq T] [Inhabited K] in
/-- More about a page that has been seen already. -/
theorem Knows.infer (h : Knows k t m g) (hmem : (og, fact) ∈ k.optimistic) {fact' : PageFact K V}
    (himp : m.version og.pid = og.vAcquired → fact (m.heap.page og.pid) (g.layout og.pid) →
      fact' (m.heap.page og.pid) (g.layout og.pid)) : Knows (k.learn og fact') t m g := by
  obtain ⟨hle, hfact⟩ := h.optimistic og fact hmem
  exact h.learn hle fun hversion => ⟨(hfact hversion).1, himp hversion (hfact hversion).2⟩

omit [DecidableEq T] [Inhabited K] in
/-- Some of what was seen is no longer needed. -/
theorem Knows.forget {seen : List (OptimisticGuard × PageFact K V)} (h : Knows k t m g)
    (hsub : seen ⊆ k.optimistic) : Knows { k with optimistic := seen } t m g :=
  { h with optimistic := fun og fact hmem => h.optimistic og fact (hsub hmem) }

/-- The check of a node type may fail. -/
inductive Fails : Phase (Call K V) (Reply K V) → Phase (Call K V) (Reply K V) → Prop
  | goOn {p : Phase (Call K V) (Reply K V)} : Fails p p
  | fail {op : Call K V} (h : op.byHeight = true) : Fails (.pending op) (.done op .failed)

omit [Inhabited K] in
theorem Fails.happens {p' : Phase (Call K V) (Reply K V)} (h : Fails p p') {x : OrderedMap K V} :
    CallLogic.Happens mapObject x x p p' := by
  cases h with
  | goOn => exact .quiet rfl
  | fail h => exact .effect (.failed h)

theorem watched_still {i : Instr K V} {next : i.Answer → Code K V R}
    (hsafe : ∀ m g, Consistent c m g → Knows k t m g →
      (Safe c t i m g ∧ Concerns keys i m g) ∧ W i next m g)
    (hstill : ∀ m a m', execInstr c entryPage t i m a m' → m' = m)
    (h : ∀ m g a, Consistent c m g → Knows k t m g → execInstr c entryPage t i m a m →
      ∃ p' k', Knows k' t m g ∧ CallLogic.Happens mapObject g.map g.map p p' ∧
        (logic T c keys).Watched W t Q (next a) p' k') :
    (logic T c keys).Watched W t Q (.instr i next) p k := by
  intro m g hinv hk
  refine ⟨hsafe m g hinv hk, fun a m' hexec => ?_⟩
  obtain rfl := hstill m a m' hexec
  obtain ⟨p', k', hk', hhappens, hok⟩ := h m' g a hinv hk hexec
  exact ⟨g, p', k', hinv, hk', fun _ _ => .refl, hhappens, hok⟩

theorem ok_still {i : Instr K V} {next : i.Answer → Code K V R}
    (hsafe : ∀ m g, Consistent c m g → Knows k t m g → Safe c t i m g ∧ Concerns keys i m g)
    (hstill : ∀ m a m', execInstr c entryPage t i m a m' → m' = m)
    (h : ∀ m g a, Consistent c m g → Knows k t m g → execInstr c entryPage t i m a m →
      ∃ p' k', Knows k' t m g ∧ CallLogic.Happens mapObject g.map g.map p p' ∧
        (logic T c keys).Ok t Q (next a) p' k') :
    (logic T c keys).Ok t Q (.instr i next) p k := by
  refine (watched_still (W := fun _ _ _ _ => True)
    (fun m g hinv hk => ⟨hsafe m g hinv hk, trivial⟩) hstill fun m g a hinv hk hexec => ?_).ok
  obtain ⟨p', k', hk', hhappens, hok⟩ := h m g a hinv hk hexec
  exact ⟨p', k', hk', hhappens, hok.watched fun _ _ _ _ => trivial⟩

theorem watched_retry {next : Bool → Code K V R} (hmem : (og, fact) ∈ k.optimistic)
    (hW : ∀ m g, Consistent c m g → Knows k t m g → W (.retry og) next m g)
    (hstale : (logic T c keys).Watched W t Q (next true) p k)
    (hvalid : ∀ m g, Consistent c m g → Knows k t m g → m.version og.pid = og.vAcquired →
      m.holder og.pid = none → fact (m.heap.page og.pid) (g.layout og.pid) →
      ∃ p' k', Knows k' t m g ∧ CallLogic.Happens mapObject g.map g.map p p' ∧
        (logic T c keys).Watched W t Q (next false) p' k') :
    (logic T c keys).Watched W t Q (retry og >>= next) p k := by
  refine watched_still (i := .retry og) (fun m g hinv hk => ⟨⟨trivial, trivial⟩, hW m g hinv hk⟩)
    (fun _ _ _ h => h.2) ?_
  rintro m g a hinv hk ⟨rfl, -⟩
  by_cases hversion : m.version og.pid = og.vAcquired
  · obtain ⟨hholder, hfact⟩ := (hk.optimistic og fact hmem).2 hversion
    simpa [hversion, Prog.bind] using hvalid m g hinv hk hversion hholder hfact
  · exact ⟨p, k, hk, .quiet rfl, by simpa [hversion, Prog.bind] using hstale⟩

theorem ok_retry {next : Bool → Code K V R} (hmem : (og, fact) ∈ k.optimistic)
    (hstale : (logic T c keys).Ok t Q (next true) p k)
    (hvalid : ∀ m g, Consistent c m g → Knows k t m g → m.version og.pid = og.vAcquired →
      m.holder og.pid = none → fact (m.heap.page og.pid) (g.layout og.pid) →
      ∃ p' k', Knows k' t m g ∧ CallLogic.Happens mapObject g.map g.map p p' ∧
        (logic T c keys).Ok t Q (next false) p' k') :
    (logic T c keys).Ok t Q (retry og >>= next) p k := by
  refine (watched_retry (W := fun _ _ _ _ => True) hmem (fun _ _ _ _ => trivial)
    (hstale.watched fun _ _ _ _ => trivial) fun m g hinv hk hversion hholder hfact => ?_).ok
  obtain ⟨p', k', hk', hhappens, hok⟩ := hvalid m g hinv hk hversion hholder hfact
  exact ⟨p', k', hk', hhappens, hok.watched fun _ _ _ _ => trivial⟩

/-- When the check itself is all that is wanted. -/
theorem watched_check {next : Bool → Code K V R} (hmem : (og, fact) ∈ k.optimistic)
    (hW : ∀ m g, W (.retry og) next m g) (hstale : (logic T c keys).Watched W t Q (next true) p k)
    (hvalid : (logic T c keys).Watched W t Q (next false) p k) :
    (logic T c keys).Watched W t Q (retry og >>= next) p k :=
  watched_retry hmem (fun m g _ _ => hW m g) hstale fun _ _ _ hk _ _ _ =>
    ⟨p, k, hk, .quiet rfl, hvalid⟩

theorem ok_check {next : Bool → Code K V R} (hmem : (og, fact) ∈ k.optimistic)
    (hstale : (logic T c keys).Ok t Q (next true) p k)
    (hvalid : (logic T c keys).Ok t Q (next false) p k) :
    (logic T c keys).Ok t Q (retry og >>= next) p k :=
  ok_retry hmem hstale fun _ _ _ hk _ _ _ => ⟨p, k, hk, .quiet rfl, hvalid⟩

omit [LinearOrder K] [Inhabited K] in
theorem asPtr_bind {next : Bool → Code K V R} :
    (asPtr og >>= next) = retry og >>= fun stale =>
      if stale then next true else retry og >>= next := by
  show Prog.instr _ _ = Prog.instr _ _
  congr 1
  funext stale
  cases stale <;> rfl

theorem ok_asPtr {next : Bool → Code K V R} (hmem : (og, fact) ∈ k.optimistic)
    (hstale : (logic T c keys).Ok t Q (next true) p k)
    (hvalid : (logic T c keys).Ok t Q (next false) p k) :
    (logic T c keys).Ok t Q (asPtr og >>= next) p k := by
  rw [asPtr_bind]
  exact ok_check hmem hstale (ok_check hmem hstale hvalid)

theorem watched_peek {next : Page K V → Code K V R} (hmem : (og, fact) ∈ k.optimistic)
    (hW : ∀ m g, W (.peek og) next m g)
    (h : ∀ page, ∃ p', Fails p p' ∧ (logic T c keys).Watched W t Q (next page) p'
      (k.learn og fun pg r => fact pg r ∧ (pg ≠ .unmapped → page = pg))) :
    (logic T c keys).Watched W t Q (peek og >>= next) p k := by
  refine watched_still (i := .peek og) (fun m g _ _ => ⟨⟨trivial, trivial⟩, hW m g⟩)
    (fun _ _ _ h => h.2) ?_
  rintro m g page hinv hk ⟨hreads, -⟩
  obtain ⟨p', hfails, hok⟩ := h page
  exact ⟨p', _, hk.infer hmem fun hversion hfact => ⟨hfact, hreads hversion⟩, hfails.happens, hok⟩

theorem ok_peek {next : Page K V → Code K V R} (hmem : (og, fact) ∈ k.optimistic)
    (h : ∀ page, ∃ p', Fails p p' ∧ (logic T c keys).Ok t Q (next page) p'
      (k.learn og fun pg r => fact pg r ∧ (pg ≠ .unmapped → page = pg))) :
    (logic T c keys).Ok t Q (peek og >>= next) p k := by
  refine (watched_peek (W := fun _ _ _ _ => True) hmem (fun _ _ => trivial) fun page => ?_).ok
  obtain ⟨p', hfails, hok⟩ := h page
  exact ⟨p', hfails, hok.watched fun _ _ _ _ => trivial⟩

omit [DecidableEq T] [Inhabited K] in
theorem Knows.holds_nothing (h : Knows k t m g) (hx : k.exclusive = []) (q : PID) :
    m.holder q ≠ some t := by
  rw [ne_eq, h.exclusive.iff, hx]
  exact List.not_mem_nil

omit [DecidableEq T] [Inhabited K] in
theorem Knows.shares_nothing (h : Knows k t m g) (hs : k.shared = []) (q : PID) :
    t ∉ m.sharers q := by
  rw [h.shared.iff, hs]
  exact List.not_mem_nil

theorem watched_fixOptimistic {next : OptimisticGuard → Code K V R} (hx : k.exclusive = [])
    (hs : k.shared = []) (hW : ∀ m g, W (.fixOptimistic pid) next m g)
    (h : ∀ og, og.pid = pid →
      (logic T c keys).Watched W t Q (next og) p (k.learn og fun _ _ => True)) :
    (logic T c keys).Watched W t Q (fixOptimistic pid >>= next) p k := by
  refine watched_still (i := .fixOptimistic pid)
    (fun m g _ hk => ⟨⟨⟨hk.holds_nothing hx, hk.shares_nothing hs⟩, trivial⟩, hW m g⟩)
    (fun _ _ _ h => h.2.2) ?_
  rintro m g og hinv hk ⟨hholder, rfl, -⟩
  exact ⟨p, _, hk.learn le_rfl fun _ => ⟨hholder, trivial⟩, .quiet rfl, h _ rfl⟩

theorem ok_fixOptimistic {next : OptimisticGuard → Code K V R} (hx : k.exclusive = [])
    (hs : k.shared = [])
    (h : ∀ og, og.pid = pid → (logic T c keys).Ok t Q (next og) p (k.learn og fun _ _ => True)) :
    (logic T c keys).Ok t Q (fixOptimistic pid >>= next) p k :=
  (watched_fixOptimistic (W := fun _ _ _ _ => True) hx hs (fun _ _ => trivial) fun og hog =>
    (h og hog).watched fun _ _ _ _ => trivial).ok

/-- A read of a latched page. -/
theorem ok_read {next : Page K V → Code K V R}
    (hlatched : ∀ m g, Knows k t m g → m.holder pid = some t ∨ t ∈ m.sharers pid)
    (h : ∀ m g page, Consistent c m g → Knows k t m g → m.Reads pid page →
      ∃ p' k', Knows k' t m g ∧ CallLogic.Happens mapObject g.map g.map p p' ∧
        (logic T c keys).Ok t Q (next page) p' k') :
    (logic T c keys).Ok t Q (readPage pid >>= next) p k := by
  refine ok_still (i := .read pid) (fun m g _ hk => ⟨hlatched m g hk, trivial⟩)
    (fun _ _ _ h => h.2) ?_
  rintro m g page hinv hk ⟨hreads, -⟩
  exact h m g page hinv hk hreads

end Look

/-! ## Latches -/

section Latches

variable {R : Type} {Q : R → Phase (Call K V) (Reply K V) → Pages T K V → Ghost T K V → Prop}
  {p : Phase (Call K V) (Reply K V)} {k : Know K V} {t u : T} {pid : PID} {m : Pages T K V}
  {g : Ghost T K V}

/-- The claims of `t` end. -/
def Ghost.release (g : Ghost T K V) (t : T) : Ghost T K V :=
  { g with claim := fun q => if g.claim q = some t then none else g.claim q }

omit [Inhabited K] in
theorem release_claim_iff {q : PID} (hu : u ≠ t) :
    (g.release t).claim q = some u ↔ g.claim q = some u := by
  simp only [Ghost.release]
  split
  · rename_i h
    simp [h, Ne.symm hu]
  · rfl

omit [Inhabited K] in
theorem Consistent.latch (hinv : Consistent c m g) (hholder : m.holder pid = none)
    (hsharers : m.sharers pid = ∅) : Consistent c (m.latch pid (some t)) (g.release t) := by
  refine ⟨hinv.tree, hinv.abstracts, fun q u hu => ?_, fun q u hclaim => ?_⟩
  · have hq : q ≠ pid := by
      rintro rfl
      simp [hsharers] at hu
    simpa [Function.update_of_ne hq] using hinv.latches q u hu
  · have hu : u ≠ t := by
      rintro rfl
      simp only [Ghost.release] at hclaim
      split at hclaim
      · cases hclaim
      · contradiction
    obtain ⟨parent, r, hparent, hleads⟩ := hinv.claims q u ((release_claim_iff hu).mp hclaim)
    have hne : parent ≠ pid := by
      rintro rfl
      rw [hholder] at hparent
      cases hparent
    exact ⟨parent, r, by simpa [Function.update_of_ne hne] using hparent, hleads⟩

omit [Inhabited K] in
theorem rely_latch (hholder : m.holder pid = none) (hu : u ≠ t) :
    Rely u m g (m.latch pid (some t)) (g.release t) := by
  refine ⟨le_rfl, fun q => ?_, fun q hversion hq => ?_, fun q => ?_, fun _ => .rfl,
    fun _ _ _ => ⟨rfl, rfl⟩, fun _ _ _ => ⟨rfl, rfl⟩, fun _ r hr _ => ⟨r, hr, rfl⟩,
    fun _ => release_claim_iff hu, fun q _ hq => ?_⟩
  · by_cases hq : q = pid
    · subst hq
      simp
    · simp [Function.update_of_ne hq]
  · have hne : q ≠ pid := by
      rintro rfl
      simp at hversion
    exact ⟨by simpa [Function.update_of_ne hne] using hq, rfl, rfl⟩
  · by_cases hq : q = pid
    · subst hq
      simp [hholder, Ne.symm hu]
    · simp [Function.update_of_ne hq]
  · simp [Ghost.release, hq]

omit [DecidableEq T] [Inhabited K] in
/-- What was seen of a page is out of date after its version has moved on, and stays what it
was otherwise. -/
theorem Knows.latch_optimistic {holder : Option T} (hk : Knows k t m g) (g' : Ghost T K V)
    (hlayout : g'.layout = g.layout) (og : OptimisticGuard) (fact : PageFact K V)
    (hmem : (og, fact) ∈ k.optimistic) :
    og.vAcquired ≤ (m.latch pid holder).version og.pid ∧
      ((m.latch pid holder).version og.pid = og.vAcquired →
        (m.latch pid holder).holder og.pid = none ∧
          fact ((m.latch pid holder).heap.page og.pid) (g'.layout og.pid)) := by
  obtain ⟨hle, hfact⟩ := hk.optimistic og fact hmem
  by_cases hpid : og.pid = pid
  · subst hpid
    refine ⟨by simp; omega, fun hversion => ?_⟩
    simp only [Pages.latch_version, Function.update_self] at hversion
    omega
  · simpa [Function.update_of_ne hpid, hlayout] using And.intro hle hfact

omit [Inhabited K] in
theorem Knows.latch (hk : Knows k t m g) (hclaims : ∀ q ∈ k.claims, q = pid)
    (hholder : m.holder pid = none) {o : Option (PageFact K V)}
    (hfact : ∀ fact ∈ o, pid < m.heap.next ∧ fact (m.heap.page pid) (g.layout pid)) :
    Knows { k with exclusive := (pid, o) :: k.exclusive, claims := [] } t
      (m.latch pid (some t)) (g.release t) := by
  have hnew : pid ∉ k.exclusive.map Prod.fst := by
    rw [← hk.exclusive.iff, hholder]
    simp
  refine ⟨hk.latch_optimistic _ rfl, ⟨fun q => ?_, ?_, fun q fact hmem => ?_⟩,
    ⟨hk.shared.iff, hk.shared.nodup, hk.shared.fact⟩, hk.mapped, hk.inner, fun q => ?_,
    fun q hmem => ?_⟩
  · by_cases hq : q = pid
    · subst hq
      simp
    · simpa [Function.update_of_ne hq, hq] using hk.exclusive.iff q
  · exact List.nodup_cons.mpr ⟨hnew, hk.exclusive.nodup⟩
  · rcases List.mem_cons.mp hmem with heq | hmem
    · obtain ⟨rfl, rfl⟩ := Prod.mk.inj heq
      exact hfact fact rfl
    · exact hk.exclusive.fact q fact hmem
  · simp only [Ghost.release, List.not_mem_nil, iff_false]
    split <;> simp_all
  · obtain ⟨hq, hclaim⟩ := hk.unclaimed q hmem
    have hne : q ≠ pid := by
      rintro rfl
      rw [hholder] at hq
      cases hq
    exact ⟨by simpa [Function.update_of_ne hne] using hq, by simp [Ghost.release, hclaim]⟩

theorem ok_fixExclusive {next : Nat → Code K V R} (hclaims : ∀ q ∈ k.claims, q = pid)
    (hwait : ∀ m g, Consistent c m g → Knows k t m g →
      m.holder pid ≠ some t ∧ (∀ q, t ∉ m.sharers q) ∧ Way c t pid m g)
    (h : ∀ v, ∃ o : Option (PageFact K V),
      (∀ fact ∈ o, ∀ m g, Consistent c m g → Knows k t m g → m.holder pid = none →
        v = m.version pid + 0b10 → pid < m.heap.next ∧ fact (m.heap.page pid) (g.layout pid)) ∧
      (logic T c keys).Ok t Q (next v) p
        { k with exclusive := (pid, o) :: k.exclusive, claims := [] }) :
    (logic T c keys).Ok t Q (fixExclusive pid >>= next) p k := by
  intro m g hinv hk
  refine ⟨⟨hwait m g hinv hk, trivial⟩, ?_⟩
  rintro v m' ⟨hholder, hsharers, hv, rfl⟩
  obtain ⟨o, hfact, hok⟩ := h v
  exact ⟨g.release t, p, _, hinv.latch hholder hsharers,
    hk.latch hclaims hholder fun fact hmem => hfact fact hmem m g hinv hk hholder hv,
    fun u hu => rely_latch hholder hu, .quiet rfl, hok⟩

theorem ok_unlatchExclusive {next : Unit → Code K V R} {o : Option (PageFact K V)}
    {rest : List (PID × Option (PageFact K V))} (hx : k.exclusive = (pid, o) :: rest)
    (hclaims : k.claims = [])
    (h : (logic T c keys).Ok t Q (next ()) p
      { k with exclusive := rest, inner := [], unclaimed := [] }) :
    (logic T c keys).Ok t Q (unlatchExclusive pid >>= next) p k := by
  intro m g hinv hk
  have hheld : m.holder pid = some t := by
    rw [hk.exclusive.iff, hx]
    exact List.mem_cons_self
  have hclaim : ∀ q, g.claim q ≠ some t := by
    intro q
    rw [ne_eq, hk.claim_iff, hclaims]
    exact List.not_mem_nil
  have hnodup := hk.exclusive.nodup
  rw [hx, List.map_cons, List.nodup_cons] at hnodup
  refine ⟨⟨hheld, trivial⟩, ?_⟩
  rintro - m' ⟨-, rfl⟩
  refine ⟨g, p, _, ?_, ?_, fun u hu => ?_, .quiet rfl, h⟩
  · refine ⟨hinv.tree, hinv.abstracts, fun q u hq => ?_, fun q u hq => ?_⟩
    · by_cases hqp : q = pid
      · subst hqp
        simp
      · simpa [Function.update_of_ne hqp] using hinv.latches q u hq
    · obtain ⟨parent, r, hparent, hleads⟩ := hinv.claims q u hq
      have hne : parent ≠ pid := by
        rintro rfl
        rw [hheld] at hparent
        obtain rfl := Option.some.inj hparent
        exact hclaim q hq
      exact ⟨parent, r, by simpa [Function.update_of_ne hne] using hparent, hleads⟩
  · refine ⟨hk.latch_optimistic _ rfl, ⟨fun q => ?_, hnodup.2, fun q fact hmem => ?_⟩,
      ⟨hk.shared.iff, hk.shared.nodup, hk.shared.fact⟩, hk.mapped, fun _ h => (nomatch h),
      hk.claim_iff, fun _ h => (nomatch h)⟩
    · by_cases hq : q = pid
      · subst hq
        simpa using hnodup.1
      · have hiff := hk.exclusive.iff q
        rw [hx] at hiff
        simpa [Function.update_of_ne hq, hq] using hiff
    · exact hk.exclusive.fact q fact (hx ▸ List.mem_cons_of_mem _ hmem)
  · refine ⟨le_rfl, fun q => ?_, fun q hversion hq => ?_, fun q => ?_, fun _ => .rfl,
      fun _ _ _ => ⟨rfl, rfl⟩, fun _ _ _ => ⟨rfl, rfl⟩, fun _ r hr _ => ⟨r, hr, rfl⟩,
      fun _ => .rfl, fun q _ hq => hq⟩
    · by_cases hq : q = pid
      · subst hq
        simp
      · simp [Function.update_of_ne hq]
    · have hne : q ≠ pid := by
        rintro rfl
        simp at hversion
      exact ⟨by simpa [Function.update_of_ne hne] using hq, rfl, rfl⟩
    · by_cases hq : q = pid
      · subst hq
        simp [hheld, Ne.symm hu]
      · simp [Function.update_of_ne hq]

omit [DecidableEq T] [Inhabited K] in
/-- Taking or giving back a shared latch on an unlatched page disturbs nobody. -/
theorem rely_share {sharers : Finset T} (hsharers : ∀ v, v ≠ t → (v ∈ sharers ↔ v ∈ m.sharers pid))
    (hu : u ≠ t) : Rely u m g (m.share pid sharers) g := by
  refine { (Rely.refl : Rely u m g m g) with
    unlatched := fun _ _ h => ⟨h, rfl, rfl⟩, sharers_iff := fun q => ?_ }
  by_cases hq : q = pid
  · subst hq
    simpa using hsharers u hu
  · simp [Function.update_of_ne hq]

omit [DecidableEq T] [Inhabited K] in
theorem Consistent.share (hinv : Consistent c m g) {sharers : Finset T}
    (h : ∀ v ∈ sharers, m.holder pid = none) : Consistent c (m.share pid sharers) g := by
  refine { hinv with latches := fun q v hv => ?_ }
  by_cases hq : q = pid
  · subst hq
    exact h v (by simpa using hv)
  · exact hinv.latches q v (by simpa [Function.update_of_ne hq] using hv)

omit [Inhabited K] in
/-- Worker `t` shares one page, `pid`, about which nothing is known yet. -/
theorem Knows.share (hk : Knows k t m g) (hs : k.shared = []) :
    Knows { k with shared := [(pid, none)] } t
      (m.share pid (Insert.insert t (m.sharers pid))) g := by
  refine { hk with
    exclusive := ⟨hk.exclusive.iff, hk.exclusive.nodup, hk.exclusive.fact⟩
    shared := ⟨fun q => ?_, by simp, fun q fact hmem => ?_⟩ }
  · have hnone := hk.shares_nothing hs q
    by_cases hq : q = pid
    · subst hq
      simp
    · simpa [Function.update_of_ne hq, hq] using hnone
  · simp at hmem

theorem ok_fixShared {next : Unit → Code K V R} (hx : k.exclusive = []) (hs : k.shared = [])
    (h : (logic T c keys).Ok t Q (next ()) p { k with shared := [(pid, none)] }) :
    (logic T c keys).Ok t Q (fixShared pid >>= next) p k := by
  intro m g hinv hk
  refine ⟨⟨⟨hk.holds_nothing hx, hk.shares_nothing hs⟩, trivial⟩, ?_⟩
  rintro - m' ⟨hholder, rfl⟩
  refine ⟨g, p, _, hinv.share fun _ _ => hholder, hk.share hs, fun u hu => rely_share ?_ hu,
    .quiet rfl, h⟩
  intro v hv
  simp [hv]

theorem ok_tryLatchShared {next : Bool → Code K V R} (hs : k.shared = [])
    (hfalse : (logic T c keys).Ok t Q (next false) p k)
    (htrue : (logic T c keys).Ok t Q (next true) p { k with shared := [(pid, none)] }) :
    (logic T c keys).Ok t Q (tryLatchShared pid >>= next) p k := by
  intro m g hinv hk
  refine ⟨⟨trivial, trivial⟩, ?_⟩
  rintro _ m' (⟨rfl, hholder, rfl⟩ | ⟨rfl, rfl⟩)
  · refine ⟨g, p, _, hinv.share fun _ _ => hholder, hk.share hs, fun u hu => rely_share ?_ hu,
      .quiet rfl, htrue⟩
    intro v hv
    simp [hv]
  · exact ⟨g, p, k, hinv, hk, fun _ _ => .refl, .quiet rfl, hfalse⟩

theorem ok_unlatchShared {next : Unit → Code K V R} {o : Option (PageFact K V)}
    (hs : k.shared = [(pid, o)])
    (h : (logic T c keys).Ok t Q (next ()) p { k with shared := [] }) :
    (logic T c keys).Ok t Q (unlatchShared pid >>= next) p k := by
  intro m g hinv hk
  have hshare : ∀ q, t ∈ m.sharers q ↔ q = pid := by
    intro q
    rw [hk.shared.iff, hs]
    simp
  have hpid := (hshare pid).mpr rfl
  refine ⟨⟨hpid, trivial⟩, ?_⟩
  rintro - m' ⟨-, rfl⟩
  refine ⟨g, p, _, hinv.share fun _ _ => hinv.latches pid t hpid, ?_,
    fun u hu => rely_share ?_ hu, .quiet rfl, h⟩
  · refine { hk with
      exclusive := ⟨hk.exclusive.iff, hk.exclusive.nodup, hk.exclusive.fact⟩
      shared := ⟨fun q => ?_, List.nodup_nil, fun _ _ h => (nomatch h)⟩ }
    by_cases hq : q = pid
    · subst hq
      simp
    · have hnone := mt (hshare q).mp hq
      simpa [Function.update_of_ne hq] using hnone
  · intro v hv
    simp [hv]

/-! ## Upgrades -/

omit [DecidableEq T] [Inhabited K] in
theorem Knows.ease (h : Knows k t m g) : Knows { k with inner := [], unclaimed := [] } t m g :=
  { h with inner := fun _ h => (nomatch h), unclaimed := fun _ h => (nomatch h) }

omit [LinearOrder K] [Inhabited K] in
theorem upgrade_bind {og : OptimisticGuard} {next : Bool → Code K V R} :
    (upgrade og >>= next) = retry og >>= fun stale =>
      if stale then next false
      else fixExclusive og.pid >>= fun v =>
        if v = og.vAcquired + 0b10 then next true
        else unlatchExclusive og.pid >>= fun _ => next false := by
  show Prog.instr _ _ = Prog.instr _ _
  congr 1
  funext stale
  cases stale
  · show Prog.instr _ _ = Prog.instr _ _
    congr 1
    funext v
    show Prog.bind (if _ then _ else _) _ = Prog.bind (.ret v) _
    show _ = ite _ _ _
    split <;> rfl
  · rfl

/-- The latch of an upgrade, and the second look at the version. -/
theorem ok_upgrade_latch {og : OptimisticGuard} {fact : PageFact K V} {next : Bool → Code K V R}
    (hmem : (og, fact) ∈ k.optimistic) (hclaims : ∀ q ∈ k.claims, q = og.pid)
    (hwait : ∀ m g, Consistent c m g → Knows k t m g →
      m.holder og.pid ≠ some t ∧ (∀ q, t ∉ m.sharers q) ∧ Way c t og.pid m g)
    (hmapped : ∀ (m : Pages T K V) g, Consistent c m g → (∀ q ∈ k.mapped, q < m.heap.next) →
      fact (m.heap.page og.pid) (g.layout og.pid) → og.pid < m.heap.next)
    (hfalse : (logic T c keys).Ok t Q (next false) p
      { k with inner := [], claims := [], unclaimed := [] })
    (htrue : (logic T c keys).Ok t Q (next true) p
      { k with exclusive := (og.pid, some fact) :: k.exclusive, claims := [] }) :
    (logic T c keys).Ok t Q (fixExclusive og.pid >>= fun v =>
      if v = og.vAcquired + 0b10 then next true
      else unlatchExclusive og.pid >>= fun _ => next false) p k := by
  refine ok_fixExclusive hclaims hwait fun v => ?_
  by_cases hv : v = og.vAcquired + 0b10
  · refine ⟨some fact, ?_, by simpa [hv] using htrue⟩
    rintro fact' hfact' m g hinv hk - hv'
    obtain rfl := Option.some.inj hfact'
    obtain ⟨-, hfact⟩ := (hk.optimistic og _ hmem).2 (by omega)
    exact ⟨hmapped m g hinv hk.mapped hfact, hfact⟩
  · refine ⟨none, fun _ h => (nomatch h), ?_⟩
    rw [if_neg hv]
    exact ok_unlatchExclusive rfl rfl hfalse

/-- An upgrade of a worker that may wait for the page as it is. -/
theorem ok_upgrade {og : OptimisticGuard} {fact : PageFact K V} {next : Bool → Code K V R}
    (hmem : (og, fact) ∈ k.optimistic) (hclaims : k.claims = [])
    (hwait : ∀ m g, Consistent c m g → Knows k t m g →
      m.holder og.pid ≠ some t ∧ (∀ q, t ∉ m.sharers q) ∧ Way c t og.pid m g)
    (hmapped : ∀ (m : Pages T K V) g, Consistent c m g → (∀ q ∈ k.mapped, q < m.heap.next) →
      fact (m.heap.page og.pid) (g.layout og.pid) → og.pid < m.heap.next)
    (hfalse : (logic T c keys).Ok t Q (next false) p { k with inner := [], unclaimed := [] })
    (htrue : (logic T c keys).Ok t Q (next true) p
      { k with exclusive := (og.pid, some fact) :: k.exclusive }) :
    (logic T c keys).Ok t Q (upgrade og >>= next) p k := by
  rw [upgrade_bind]
  have hk : k = { k with claims := [] } := by rw [← hclaims]
  refine ok_check hmem (hfalse.weaken fun _ _ _ h => h.ease)
    (ok_upgrade_latch hmem (by simp [hclaims]) hwait hmapped ?_ ?_)
  · rw [hk] at hfalse
    exact hfalse
  · rw [hk] at htrue
    exact htrue

/-! ### Below a page that is held -/

omit [DecidableEq T] [Inhabited K] in
/-- A page that hangs below one `t` holds is not claimed by others. -/
theorem Consistent.not_claimed (hinv : Consistent c m g) {parent : PID} {r : Region K}
    (hheld : m.holder parent = some t)
    (hleads : Leads parent (m.heap.page parent) (g.layout parent) pid r) (hu : u ≠ t) :
    g.claim pid ≠ some u := by
  intro hclaim
  obtain ⟨parent', r', hheld', hleads'⟩ := hinv.claims pid u hclaim
  obtain ⟨root, height, inv⟩ := hinv.tree
  obtain rfl := inv.leads_unique hleads hleads'
  exact hu (Option.some.inj (hheld'.symm.trans hheld))

def Ghost.claimed (g : Ghost T K V) (t : T) (pid : PID) : Ghost T K V :=
  { g with claim := Function.update g.claim pid (some t) }

omit [DecidableEq T] [Inhabited K] in
theorem Consistent.claimed (hinv : Consistent c m g) {parent : PID} {r : Region K}
    (hheld : m.holder parent = some t)
    (hleads : Leads parent (m.heap.page parent) (g.layout parent) pid r) :
    Consistent c m (g.claimed t pid) := by
  refine { hinv with claims := fun q u hclaim => ?_ }
  by_cases hq : q = pid
  · subst hq
    obtain rfl : t = u := by simpa [Ghost.claimed] using hclaim
    exact ⟨parent, r, hheld, hleads⟩
  · exact hinv.claims q u (by simpa [Ghost.claimed, Function.update_of_ne hq] using hclaim)

omit [DecidableEq T] [Inhabited K] in
theorem rely_claimed (hholder : m.holder pid = none) (hclaim : g.claim pid ≠ some u) (hu : u ≠ t) :
    Rely u m g m (g.claimed t pid) := by
  refine { (Rely.refl : Rely u m g m g) with
    unlatched := fun _ _ h => ⟨h, rfl, rfl⟩
    held := fun _ _ _ => ⟨rfl, rfl⟩
    shared := fun _ _ _ => ⟨rfl, rfl⟩
    inner := fun _ r hr _ => ⟨r, hr, rfl⟩
    claim_iff := fun q => ?_
    unclaimed := fun q hq hnone => ?_ }
  · by_cases hq : q = pid
    · subst hq
      simp [Ghost.claimed, hclaim, Ne.symm hu]
    · simp [Ghost.claimed, Function.update_of_ne hq]
  · have hne : q ≠ pid := by
      rintro rfl
      rw [hholder] at hq
      cases hq
    simpa [Ghost.claimed, Function.update_of_ne hne] using hnone

omit [DecidableEq T] [Inhabited K] in
theorem Knows.claimed (hk : Knows k t m g) (hholder : m.holder pid = none)
    (hclaims : k.claims = []) :
    Knows { k with claims := [pid] } t m (g.claimed t pid) := by
  refine { hk with
    exclusive := ⟨hk.exclusive.iff, hk.exclusive.nodup, hk.exclusive.fact⟩
    shared := ⟨hk.shared.iff, hk.shared.nodup, hk.shared.fact⟩
    claim_iff := fun q => ?_
    unclaimed := fun q hmem => ?_ }
  · have hiff := hk.claim_iff q
    rw [hclaims] at hiff
    by_cases hq : q = pid
    · subst hq
      simp [Ghost.claimed]
    · simpa [Ghost.claimed, Function.update_of_ne hq, hq] using hiff
  · obtain ⟨hq, hnone⟩ := hk.unclaimed q hmem
    have hne : q ≠ pid := by
      rintro rfl
      rw [hholder] at hq
      cases hq
    exact ⟨hq, by simpa [Ghost.claimed, Function.update_of_ne hne] using hnone⟩

/-- An upgrade below the one page that is held: the check of the version is the claim. -/
theorem ok_upgrade_below {og : OptimisticGuard} {fact above : PageFact K V} {parent : PID}
    {next : Bool → Code K V R} (hmem : (og, fact) ∈ k.optimistic)
    (hx : k.exclusive = [(parent, some above)]) (hs : k.shared = []) (hclaims : k.claims = [])
    (habove : ∀ page region, above page region → ∃ r, Leads parent page region og.pid r)
    (hmapped : ∀ (m : Pages T K V) g, Consistent c m g → (∀ q ∈ k.mapped, q < m.heap.next) →
      fact (m.heap.page og.pid) (g.layout og.pid) → og.pid < m.heap.next)
    (hfalse : (logic T c keys).Ok t Q (next false) p { k with inner := [], unclaimed := [] })
    (htrue : (logic T c keys).Ok t Q (next true) p
      { k with exclusive := [(og.pid, some fact), (parent, some above)] }) :
    (logic T c keys).Ok t Q (upgrade og >>= next) p k := by
  rw [upgrade_bind]
  have heta : k = { k with claims := [] } := by rw [← hclaims]
  -- what is held is the page above, and it still leads here
  have hparent : ∀ {k' : Know K V} {m : Pages T K V} {g : Ghost T K V},
      Knows k' t m g → k'.exclusive = k.exclusive →
      (∀ q, m.holder q = some t ↔ q = parent) ∧
        ∃ r, Leads parent (m.heap.page parent) (g.layout parent) og.pid r := by
    intro k' m g hk hk'
    have hlatched := hk.exclusive
    rw [hk', hx] at hlatched
    exact ⟨fun q => by simpa using hlatched.iff q,
      habove _ _ (hlatched.fact parent above List.mem_cons_self).2⟩
  intro m g hinv hk
  refine ⟨⟨trivial, trivial⟩, ?_⟩
  rintro stale m' ⟨rfl, rfl⟩
  by_cases hversion : m'.version og.pid = og.vAcquired
  · obtain ⟨hholder, hfact⟩ := (hk.optimistic og fact hmem).2 hversion
    obtain ⟨hheld, r, hleads⟩ := hparent hk rfl
    have hself := (hheld parent).mpr rfl
    refine ⟨g.claimed t og.pid, p, _, hinv.claimed hself hleads, hk.claimed hholder hclaims,
      fun u hu => rely_claimed hholder (hinv.not_claimed hself hleads hu) hu, .quiet rfl, ?_⟩
    have hlatch : (logic T c keys).Ok t Q (fixExclusive og.pid >>= fun v =>
        if v = og.vAcquired + 0b10 then next true
        else unlatchExclusive og.pid >>= fun _ => next false) p { k with claims := [og.pid] } := by
      refine ok_upgrade_latch hmem (by simp) (fun m g hinv hk => ?_) hmapped ?_ ?_
      · obtain ⟨hheld, r, hleads⟩ := hparent hk rfl
        have hne : m.holder og.pid ≠ some t := by
          obtain ⟨root, height, inv⟩ := hinv.tree
          rw [ne_eq, hheld]
          exact (inv.leads_ne hleads).symm
        exact ⟨hne, hk.shares_nothing hs, .down hheld hleads ((hk.claim_iff _).mpr (by simp))⟩
      · rw [heta] at hfalse
        exact hfalse
      · rw [heta] at htrue
        simp only [hx]
        exact htrue
    simpa [hversion, Prog.bind] using hlatch
  · refine ⟨g, p, { k with inner := [], unclaimed := [] }, hinv, hk.ease, fun _ _ => .refl,
      .quiet rfl, ?_⟩
    simpa [hversion, Prog.bind] using hfalse

end Latches

/-! ## Changes of pages -/

section Writes

variable {m : Pages T K V} {g g' : Ghost T K V} {t u : T} {h : Heap K V}

/-- New contents for pages that `t` holds, and for new ones. -/
structure Writes (c : Capacity) (t : T) (m : Pages T K V) (g : Ghost T K V) (h : Heap K V)
    (g' : Ghost T K V) : Prop where
  tree : ∃ root height, TreeInv c entryPage h g'.layout root height
  abstracts : Abstracts h g'.layout g'.map
  claim : g'.claim = g.claim
  next_le : m.heap.next ≤ h.next
  frame : ∀ pid, m.holder pid ≠ some t → (m.heap.next ≤ pid → h.next ≤ pid) →
    h.page pid = m.heap.page pid ∧ g'.layout pid = g.layout pid
  inner : ∀ pid r, g.layout pid = some r → 1 ≤ r.level →
    ∃ r', g'.layout pid = some r' ∧ r'.level = r.level

omit [DecidableEq T] [Inhabited K] in
theorem Writes.old {pid : PID} (w : Writes c t m g h g') (hholder : m.holder pid ≠ some t)
    (hlt : pid < m.heap.next) : Untouched m g (m.write h) g' pid :=
  w.frame pid hholder fun hle => absurd hlt (not_lt.mpr hle)

omit [DecidableEq T] [LinearOrder K] [Inhabited K] in
theorem write_version_le (pid : PID) : m.version pid ≤ (m.write h).version pid := by
  simp only [Pages.write]
  split <;> omega

omit [DecidableEq T] [LinearOrder K] [Inhabited K] in
/-- A page whose version stays is not a new one. -/
theorem write_version_eq {pid : PID} (hversion : (m.write h).version pid = m.version pid) :
    m.heap.next ≤ pid → h.next ≤ pid := by
  intro hle
  by_contra hlt
  simp [Pages.write, hle, not_le.mp hlt] at hversion

omit [DecidableEq T] [Inhabited K] in
theorem Writes.consistent (w : Writes c t m g h g') (hinv : Consistent c m g)
    (hclaims : ∀ q, g.claim q ≠ some t) : Consistent c (m.write h) g' := by
  refine ⟨w.tree, w.abstracts, hinv.latches, fun q u hclaim => ?_⟩
  rw [w.claim] at hclaim
  obtain ⟨parent, r, hheld, hleads⟩ := hinv.claims q u hclaim
  have hne : m.holder parent ≠ some t := by
    rw [hheld]
    rintro heq
    obtain rfl := Option.some.inj heq
    exact hclaims q hclaim
  obtain ⟨root, height, inv⟩ := hinv.tree
  obtain ⟨hpage, hlayout⟩ := w.old hne (inv.leads_lt hleads)
  exact ⟨parent, r, hheld, by rw [hpage, hlayout]; exact hleads⟩

omit [DecidableEq T] [Inhabited K] in
theorem Writes.rely (w : Writes c t m g h g') (hinv : Consistent c m g) (hu : u ≠ t) :
    Rely u m g (m.write h) g' := by
  refine ⟨w.next_le, write_version_le, fun q hversion hq => ⟨hq, ?_⟩, fun _ => .rfl, fun _ => .rfl,
    fun q hq hlt => ?_, fun q hq hlt => ?_, w.inner, fun q => by rw [w.claim],
    fun q _ hq => by rw [w.claim, hq]⟩
  · exact w.frame q (by simp [hq]) (write_version_eq hversion)
  · exact w.old (by simpa [hq] using hu) hlt
  · exact w.old (by simp [hinv.latches q u hq]) hlt

omit [DecidableEq T] [Inhabited K] in
theorem Writes.knows (w : Writes c t m g h g') (hinv : Consistent c m g) {k : Know K V}
    (hk : Knows k t m g) {latched : List (PID × Option (PageFact K V))}
    (hsame : latched.map Prod.fst = k.exclusive.map Prod.fst)
    (hfact : ∀ pid fact, (pid, some fact) ∈ latched → pid < h.next ∧
      fact (h.page pid) (g'.layout pid)) :
    Knows { k with exclusive := latched } t (m.write h) g' := by
  refine ⟨fun og fact hmem => ?_, ⟨fun q => ?_, hsame ▸ hk.exclusive.nodup, hfact⟩,
    hk.shared.stable (fun _ => .rfl) w.next_le fun q hq hlt => ?_,
    fun q hmem => (hk.mapped q hmem).trans_le w.next_le, fun q hmem => ?_, fun q => ?_,
    fun q hmem => ?_⟩
  · obtain ⟨hle, hfact⟩ := hk.optimistic og fact hmem
    refine ⟨hle.trans (write_version_le _), fun hversion => ?_⟩
    have hold : m.version og.pid = og.vAcquired :=
      le_antisymm (hversion ▸ write_version_le og.pid) hle
    obtain ⟨hholder, hfact⟩ := hfact hold
    obtain ⟨hpage, hlayout⟩ := w.frame og.pid (by simp [hholder])
      (write_version_eq (hversion.trans hold.symm))
    rw [Pages.write_heap, hpage, hlayout]
    exact ⟨hholder, hfact⟩
  · rw [hsame]
    exact hk.exclusive.iff q
  · exact w.old (by simp [hinv.latches q t hq]) hlt
  · rcases hk.inner q hmem with rfl | ⟨r, hr, hlevel⟩
    · exact .inl rfl
    · obtain ⟨r', hr', hlevel'⟩ := w.inner q r hr hlevel
      exact .inr ⟨r', hr', by omega⟩
  · rw [w.claim, hk.claim_iff]
  · rw [w.claim]
    exact hk.unclaimed q hmem

variable {R : Type} {Q : R → Phase (Call K V) (Reply K V) → Pages T K V → Ghost T K V → Prop}
  {p : Phase (Call K V) (Reply K V)} {k : Know K V}

/-- An instruction that writes pages, from one state. -/
theorem Writes.step (w : Writes c t m g h g') (hinv : Consistent c m g) (hk : Knows k t m g)
    (hclaims : k.claims = []) {i : Instr K V} {next : i.Answer → Code K V R} {a : i.Answer}
    {p' : Phase (Call K V) (Reply K V)} (latched : List (PID × Option (PageFact K V)))
    (hexec : ∀ a' m', execInstr c entryPage t i m a' m' → a' = a ∧ m' = m.write h)
    (hhappens : CallLogic.Happens mapObject g.map g'.map p p')
    (hsame : latched.map Prod.fst = k.exclusive.map Prod.fst)
    (hfact : ∀ pid fact, (pid, some fact) ∈ latched → pid < h.next ∧
      fact (h.page pid) (g'.layout pid))
    (hok : (logic T c keys).Ok t Q (next a) p' { k with exclusive := latched }) (a' : i.Answer)
    (m' : Pages T K V) (hstep : execInstr c entryPage t i m a' m') :
    ∃ g' p' k', Consistent c m' g' ∧ Knows k' t m' g' ∧ (∀ u, u ≠ t → Rely u m g m' g') ∧
      CallLogic.Happens mapObject g.map g'.map p p' ∧ (logic T c keys).Ok t Q (next a') p' k' := by
  obtain ⟨rfl, rfl⟩ := hexec a' m' hstep
  have hfree : ∀ q, g.claim q ≠ some t := by
    intro q
    rw [ne_eq, hk.claim_iff, hclaims]
    exact List.not_mem_nil
  exact ⟨g', p', _, w.consistent hinv hfree, w.knows hinv hk hsame hfact,
    fun u hu => w.rely hinv hu, hhappens, hok⟩

theorem ok_write {i : Instr K V} {next : i.Answer → Code K V R} (hclaims : k.claims = [])
    (h : ∀ m g, Consistent c m g → Knows k t m g → (Safe c t i m g ∧ Concerns keys i m g) ∧
      ∃ a h' g' p' latched,
        (∀ a' m', execInstr c entryPage t i m a' m' → a' = a ∧ m' = m.write h') ∧
        Writes c t m g h' g' ∧ CallLogic.Happens mapObject g.map g'.map p p' ∧
        latched.map Prod.fst = k.exclusive.map Prod.fst ∧
        (∀ pid fact, (pid, some fact) ∈ latched → pid < h'.next ∧
          fact (h'.page pid) (g'.layout pid)) ∧
        (logic T c keys).Ok t Q (next a) p' { k with exclusive := latched }) :
    (logic T c keys).Ok t Q (.instr i next) p k := by
  intro m g hinv hk
  obtain ⟨hsafe, a, h', g', p', latched, hexec, w, hhappens, hsame, hfact, hok⟩ := h m g hinv hk
  exact ⟨hsafe, w.step hinv hk hclaims latched hexec hhappens hsame hfact hok⟩

end Writes

end Rules

end ScaleStore.BTree
