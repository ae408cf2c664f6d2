/-
# A removal and an insert that wait for each other

Take a leaf that is underfull and, next to it, one that is full.  A removal from the
first latches it and the page above, and waits for the second; an insert into the second
latches it, and waits for the page above.  Nothing keeps the two from doing so at the
same time, and nothing ends it.
-/

import ScaleStore.BTree.Alone
import ScaleStore.BTree.Deadlock

namespace ScaleStore.BTree

/-! ## Up to a latch -/

section Runs

variable {T K V R : Type} [DecidableEq T] [LinearOrder K] [Inhabited K] {c : Capacity} {t : T}
  {m m' : Pages T K V} {og gp gn : OptimisticGuard} {pid cur : PID} {prog : Code K V R}

abbrev Executes (c : Capacity) (t : T) (prog : Code K V R) (m : Pages T K V) (prog' : Code K V R)
    (m' : Pages T K V) : Prop :=
  Prog.Runs (soloInstr c t) prog m prog' m'

theorem executes_instr (i : Instr K V) {next : i.Answer → Code K V R} (a : i.Answer)
    {m₁ : Pages T K V} (hexec : soloInstr c t i m a m₁)
    (hnext : Executes c t (next a) m₁ prog m') : Executes c t (.instr i next) m prog m' :=
  .step hexec hnext

theorem executes_retry {next : Bool → Code K V R} (h : m.version og.pid = og.vAcquired)
    (hnext : Executes c t (next false) m prog m') :
    Executes c t (retry og >>= next) m prog m' :=
  executes_instr (.retry og) false ⟨⟨by simp [h], rfl⟩, trivial⟩ hnext

theorem executes_peek {next : Page K V → Code K V R}
    (hnext : Executes c t (next (m.heap.page og.pid)) m prog m') :
    Executes c t (peek og >>= next) m prog m' :=
  executes_instr (.peek og) _ ⟨⟨fun _ _ => rfl, rfl⟩, trivial⟩ hnext

theorem executes_read {next : Page K V → Code K V R}
    (hnext : Executes c t (next (m.heap.page pid)) m prog m') :
    Executes c t (readPage pid >>= next) m prog m' :=
  executes_instr (.read pid) _ ⟨⟨fun _ => rfl, rfl⟩, trivial⟩ hnext

theorem executes_fixExclusive {next : Nat → Code K V R} (hholder : m.holder pid = none)
    (hsharers : m.sharers pid = ∅)
    (hnext : Executes c t (next (m.version pid + 2)) (m.latch pid (some t)) prog m') :
    Executes c t (fixExclusive pid >>= next) m prog m' :=
  executes_instr (.fixExclusive pid) _ ⟨⟨hholder, hsharers, rfl, rfl⟩, trivial⟩ hnext

theorem executes_upgrade {next : Bool → Code K V R} (hversion : m.version og.pid = og.vAcquired)
    (hholder : m.holder og.pid = none) (hsharers : m.sharers og.pid = ∅)
    (hnext : Executes c t (next true) (m.latch og.pid (some t)) prog m') :
    Executes c t (upgrade og >>= next) m prog m' := by
  rw [upgrade_bind]
  refine executes_retry hversion (executes_fixExclusive hholder hsharers ?_)
  rw [hversion, if_pos rfl]
  exact hnext

/-- The insert that has found a full leaf waits for the page above. -/
theorem insertAtPage_waits {k : K} {v : V} {l : Leaf K V} (hholder : m.holder cur = none)
    (hsharers : m.sharers cur = ∅) (hl : m.heap.page cur = .leaf l) (hfull : l.isFull c = true)
    (hgp : m.version gp.pid = gp.vAcquired) (hne : gp.pid ≠ cur) :
    ∃ next, Executes c t (insertAtPage c k v gp cur) m (.instr (.fixExclusive gp.pid) next)
      (m.latch cur (some t)) := by
  have hgp' : (m.latch cur (some t)).version gp.pid = gp.vAcquired := by simpa [hne] using hgp
  apply Exists.intro
  rw [insertAtPage]
  refine executes_fixExclusive hholder hsharers (executes_read ?_)
  simp only [Pages.latch_heap, hl, Page.isLeaf, Bool.not_true, Bool.false_eq_true, if_false]
  refine executes_retry hgp' (executes_read ?_)
  simp only [Pages.latch_heap, hl, Page.isFull, hfull, if_true]
  rw [upgrade_bind]
  exact executes_retry hgp' .refl

/-- The removal that has found an underfull leaf waits for the sibling, whatever has happened to
pages other than the leaf and the one above. -/
theorem removeAttempt_waits {G : Layout K} {root parent right : PID} {height turns : Nat} {k : K}
    {n : Inner K} {l : Leaf K V} (inv : TreeInv c entryPage m.heap G root height)
    (hfree : Latched t [] m) (hturns : height < turns)
    (hdown : descendType m.heap (fun n => n.lowerBound k) turns entryPage root = .ok (parent, cur))
    (hn : m.heap.page parent = .inner n) (hl : m.heap.page cur = .leaf l)
    (hunder : l.isUnderflow c = true) (htwo : 2 ≤ n.count) (hpos : n.lowerBound k + 1 < n.count)
    (hright : n.children[n.lowerBound k + 1]? = some right) :
    ∃ rest, Executes c t (removeAttempt c entryPage k turns) m rest m ∧
      ∀ m' : Pages T K V, m'.heap = m.heap → (∀ pid, pid = parent ∨ pid = cur →
        m'.version pid = m.version pid ∧ m'.holder pid = none ∧ m'.sharers pid = ∅) →
      ∃ next, Executes c t rest m' (.instr (.fixExclusive right) next)
        ((m'.latch parent (some t)).latch cur (some t)) := by
  have hdescent := toLeafNode_alone inv hfree (Search.sound_lowerBound k) ⟨by simp, by simp⟩ hturns
  obtain ⟨d, m₁, ⟨rfl, gp, gn, l', rfl, hgp, hgn, ⟨r, hleads, -⟩, -, hdown'⟩, hruns⟩ :=
    hdescent.runs
  have hne := inv.leads_ne hleads
  have hpids := hdown'.symm.trans hdown
  simp only [Except.ok.injEq, Prod.mk.injEq] at hpids
  obtain ⟨rfl, rfl⟩ := hpids
  have hentry : gp.pid ≠ entryPage := by
    intro heq
    rw [heq, inv.entry_page] at hn
    cases hn
  refine ⟨_, by rw [removeAttempt]; exact hruns.bind, fun m' hheap hsame => ?_⟩
  obtain ⟨hgp', hholder, hsharers⟩ := hsame gp.pid (.inl rfl)
  obtain ⟨hgn', hholder', hsharers'⟩ := hsame gn.pid (.inr rfl)
  apply Exists.intro
  refine executes_peek ?_
  simp only [hheap, hl, Page.isUnderflow, hunder, hentry, ne_eq, not_false_eq_true, and_self,
    if_true]
  refine executes_upgrade (hgp'.trans hgp) hholder hsharers ?_
  simp only [Bool.not_true, Bool.false_eq_true, if_false]
  refine executes_upgrade (by simpa [hne.symm] using hgn'.trans hgn)
    (by simpa [hne.symm] using hholder')
    hsharers' ?_
  simp only [Bool.not_true, Bool.false_eq_true, if_false]
  rw [mergeAtPage]
  refine executes_read ?_
  simp only [Pages.latch_heap, hheap, hn, htwo, hpos, and_self, if_true, hright, Option.getD_some]
  exact .refl

/-- From the descent on, the insert waits for the page above its leaf. -/
theorem insertAttempt_waits {G : Layout K} {root : PID} {height : Nat} {k : K} {v : V}
    {l : Leaf K V} (inv : TreeInv c entryPage m.heap G root height) (hfree : Latched t [] m)
    (hdown : descendHeight m.heap k height root = .ok cur) (hl : m.heap.page cur = .leaf l)
    (hfull : l.isFull c = true) (hspared : ∀ levels pid n,
      descendHeight m.heap k levels root = .ok pid → m.heap.page pid = .inner n →
        n.isFull c = false) :
    ∃ parent r next, Leads parent (m.heap.page parent) (G parent) cur r ∧
      Executes c t (insertAttempt c entryPage k v) m (.instr (.fixExclusive parent) next)
        (m.latch cur (some t)) := by
  have hdescent : Solo c t (LevelsEnd c t true k m G height entryPage root) _ m :=
    toLeaf_alone inv hfree
  obtain ⟨d, m', hd, hruns⟩ := hdescent.runs
  rcases d with r | ⟨gp, cur'⟩
  · obtain ⟨-, -, -, ⟨j, pid, n, hj, hn, hfull'⟩, -⟩ := hd
    exact absurd hfull' (by simp [hspared j pid n hj hn])
  · obtain ⟨rfl, hgp, ⟨r, hleads, -⟩, hdown', -⟩ := hd
    obtain rfl : cur' = cur := Except.ok.inj (hdown'.symm.trans hdown)
    obtain ⟨next, hwaits⟩ := insertAtPage_waits (t := t) (k := k) (v := v)
      (hfree.holder_none List.not_mem_nil) (hfree.sharers cur') hl hfull hgp (inv.leads_ne hleads)
    exact ⟨gp.pid, r, next, hleads, by rw [insertAttempt]; exact hruns.bind.trans hwaits⟩

end Runs

/-! ## The clash -/

section Clash

variable {T K V : Type} [LinearOrder K] [Inhabited K] {c : Capacity}

/-- The leaf of `k` is underfull and its right sibling, the leaf of `k'`, is full; the page above
can give up a key, and no page on the way to `k'` is full. -/
structure Clash (c : Capacity) (h : Heap K V) (k k' : K) (parent cur right : PID) : Prop where
  removal : ∃ root height n, h.page entryPage = .entry root height ∧
    descendType h (fun n => n.lowerBound k) (height + 1) entryPage root = .ok (parent, cur) ∧
    h.page parent = .inner n ∧ 2 ≤ n.count ∧ n.lowerBound k + 1 < n.count ∧
    n.children[n.lowerBound k + 1]? = some right
  underflow : ∃ l, h.page cur = .leaf l ∧ l.isUnderflow c = true
  insertion : ∃ l, FoundAt h k' right l ∧ l.isFull c = true
  spared : ∀ root height levels pid n, h.page entryPage = .entry root height →
    descendHeight h k' levels root = .ok pid → h.page pid = .inner n → n.isFull c = false

variable [DecidableEq T] {ls : List (Event T (Call K V) (Reply K V))} {s : WorkerStates T K V}
  {t u : T}

omit [DecidableEq T] in
/-- The three pages of a clash are siblings and the page above. -/
theorem Clash.siblings {m : Pages T K V} {g : Ghost T K V} (hinv : Consistent c m g) {k k' : K}
    {parent cur right : PID} (hclash : Clash c m.heap k k' parent cur right) :
    ∃ n l l' p r q, Siblings m.heap g.layout parent cur right n (n.lowerBound k) l l' p r q ∧
      l.isUnderflow c = true := by
  obtain ⟨root, height, inv⟩ := hinv.tree
  obtain ⟨⟨root', height', n, hentry, hdown, hn, -, hpos, hright⟩, ⟨l, hl, hunder⟩, -, -⟩ := hclash
  rw [inv.entry_page] at hentry
  obtain ⟨rfl, rfl⟩ := Page.entry.inj hentry
  obtain ⟨parent', cur', r, l', hrun, hG, -, hk, hparent⟩ :=
    inv.descendType (Search.sound_lowerBound k) inv.root_region rfl ⟨by simp, by simp⟩
      (.inl ⟨rfl, rfl⟩)
  obtain ⟨rfl, rfl⟩ : parent' = parent ∧ cur' = cur := by
    simpa [hdown, eq_comm] using hrun (height + 1) (Nat.lt_succ_self height)
  obtain ⟨-, hsib⟩ := hinv.siblings (inv.leads_of_isParent hG hparent) hk hn hl
  obtain ⟨right', q, p, l', hchild, sib⟩ := hsib hpos
  obtain rfl := Option.some.inj (hright.symm.trans hchild)
  exact ⟨n, l, l', p, r, q, sib, hunder⟩

theorem soloInstr_exec (i : Instr K V)
    (m : Pages T K V) (a : i.Answer) (m' : Pages T K V) (h : soloInstr c t i m a m') :
    (workers T c).exec t i m a m' :=
  h.1

/-- A call is made, and the worker gets to some place in it. -/
theorem call_executes (op : Call K V) (n : Nat) {rest : Code K V (Option (Reply K V))}
    {m : Pages T K V} (hidle : s.call t = .idle)
    (hruns : Executes c t (attempt c entryPage op n) s.memory rest m) :
    (workers T c).system.Moves s [.call t op] ⟨m, Function.update s.call t (.running op rest)⟩ := by
  let s₁ : WorkerStates T K V :=
    { s with call := Function.update s.call t (.running op (attempt c entryPage op n)) }
  have hcall : (workers T c).system.Moves s [.call t op] s₁ :=
    .of_step (Implementation.Step.call op n hidle) rfl
  have hmoves : (workers T c).system.Moves s₁ []
      ⟨m, Function.update s₁.call t (.running op rest)⟩ :=
    hruns.moves soloInstr_exec rfl (Function.update_self ..)
  rw [Function.update_idem] at hmoves
  exact hcall.trans hmoves

/-- The other worker calls in the middle of a call. -/
theorem calls_interleave (op op' : Call K V) (n n' : Nat) {m₁ m₂ m₃ : Pages T K V}
    {rest rest' rest'' : Code K V (Option (Reply K V))} (ht : s.call t = .idle)
    (hu : s.call u = .idle) (hne : t ≠ u)
    (hfirst : Executes c t (attempt c entryPage op n) s.memory rest m₁)
    (hsecond : Executes c u (attempt c entryPage op' n') m₁ rest' m₂)
    (hthird : Executes c t rest m₂ rest'' m₃) :
    ∃ s', (workers T c).system.Moves s [.call t op, .call u op'] s' ∧ s'.memory = m₃ ∧
      s'.call t = .running op rest'' ∧ s'.call u = .running op' rest' := by
  let s₁ : WorkerStates T K V := ⟨m₁, Function.update s.call t (.running op rest)⟩
  let s₂ : WorkerStates T K V := ⟨m₂, Function.update s₁.call u (.running op' rest')⟩
  have h₁ : (workers T c).system.Moves s [.call t op] s₁ := call_executes op n ht hfirst
  have h₂ : (workers T c).system.Moves s₁ [.call u op'] s₂ :=
    call_executes (s := s₁) op' n' (by simp [s₁, Function.update_of_ne hne.symm, hu]) hsecond
  have h₃ : (workers T c).system.Moves s₂ []
      ⟨m₃, Function.update s₂.call t (.running op rest'')⟩ :=
    hthird.moves soloInstr_exec rfl (by simp [s₂, s₁, Function.update_of_ne hne])
  refine ⟨_, (h₁.trans h₂).trans h₃, rfl, Function.update_self .., ?_⟩
  simp [s₂, Function.update_of_ne hne.symm]

omit [LinearOrder K] [Inhabited K] [DecidableEq T] in
/-- Three pages are latched. -/
theorem latch_holder_iff {m : Pages T K V} {parent cur right : PID}
    (hfree : ∀ pid, m.holder pid = none) (hne : t ≠ u) (hparent : parent ≠ right)
    (hcur : cur ≠ right) (pid : PID) :
    ((((m.latch right (some u)).latch parent (some t)).latch cur (some t)).holder pid = some t ↔
      pid = parent ∨ pid = cur) ∧
    ((((m.latch right (some u)).latch parent (some t)).latch cur (some t)).holder pid = some u ↔
      pid = right) := by
  simp only [Pages.latch_holder, Function.update_apply, hfree]
  by_cases h₁ : pid = cur
  · simp [h₁, hne, hcur]
  · by_cases h₂ : pid = parent
    · simp [h₂, hne, hparent]
    · by_cases h₃ : pid = right <;> simp [h₁, h₂, h₃, hne.symm, hparent.symm, hcur.symm]

/-- The two calls get as far as to wait for each other. -/
theorem clash_spins (ht : (workers T c).system.Trace ls s)
    (hfree : ∀ pid, s.memory.holder pid = none ∧ s.memory.sharers pid = ∅)
    (hidle : s.call t = .idle) (hidle' : s.call u = .idle) (hne : t ≠ u) {k k' : K}
    {parent cur right : PID} (hclash : Clash c s.memory.heap k k' parent cur right)
    (v : V) :
    ∃ s', (workers T c).system.Moves s [.call t (.remove k), .call u (.insert k' v)] s' ∧
      Merging c s' t right ∧ Splitting s' u right ∧ Spins s' t u ∧ Spins s' u t := by
  obtain ⟨g, hinv, -⟩ := reached_invariant ht
  obtain ⟨root, height, inv⟩ := hinv.tree
  obtain ⟨n, l, l', p, r, q, sib, hunder⟩ := hclash.siblings hinv
  obtain ⟨hne₁, hne₂, hne₃⟩ := sib.ne inv
  obtain ⟨⟨root', height', n', hentry, hdown, hn, htwo, hpos, hright⟩, ⟨l', hl, hunder'⟩,
    ⟨l₁, ⟨root₁, height₁, hentry₁, hfound, hl₁⟩, hfull⟩, hspared⟩ := hclash
  obtain ⟨rfl, rfl⟩ := Page.entry.inj (inv.entry_page.symm.trans hentry)
  obtain ⟨rfl, rfl⟩ := Page.entry.inj (inv.entry_page.symm.trans hentry₁)
  obtain ⟨rest, hruns, hrest⟩ := removeAttempt_waits inv (latched_nil.mpr hfree)
    (Nat.lt_succ_self height) hdown hn hl hunder' htwo hpos hright
  obtain ⟨parent', r', next, hleads, hinsert⟩ := insertAttempt_waits (v := v) inv
    (latched_nil.mpr hfree) hfound hl₁ hfull
    fun levels pid n => hspared root height levels pid n hentry
  have hlevel : p.level = q.level + 1 := by
    rw [sib.level_parent inv, inv.level_of_leaf sib.right_region sib.right_page]
  obtain rfl : parent' = parent := inv.leads_unique hleads
    (.inr ⟨p, n, _, sib.parent_region, sib.parent_page, hlevel, sib.right_slot⟩)
  have hsame : ∀ pid, pid = parent' ∨ pid = cur →
      (s.memory.latch right (some u)).version pid = s.memory.version pid ∧
        (s.memory.latch right (some u)).holder pid = none ∧
        (s.memory.latch right (some u)).sharers pid = ∅ := by
    rintro pid (rfl | rfl) <;>
      simp [Function.update_of_ne, hne₁, hne₃, hfree]
  obtain ⟨next', hmerge⟩ := hrest (s.memory.latch right (some u)) rfl hsame
  obtain ⟨s', hmoves, hmemory, ht', hu'⟩ := calls_interleave (.remove k) (.insert k' v) (height + 1)
    0 hidle hidle' hne hruns hinsert hmerge
  have hheap : s'.memory.heap = s.memory.heap := by simp [hmemory]
  have hheld : ∀ pid, (s'.memory.holder pid = some t ↔ pid = parent' ∨ pid = cur) ∧
      (s'.memory.holder pid = some u ↔ pid = right) := fun pid => by
    rw [hmemory]
    exact latch_holder_iff (fun pid => (hfree pid).1) hne hne₃ hne₁ pid
  have hnext : WorkerStates.Next s' t (.fixExclusive right) := ⟨_, _, ht'⟩
  have hnext' : WorkerStates.Next s' u (.fixExclusive parent') := ⟨_, _, hu'⟩
  refine ⟨s', hmoves, ⟨hnext, parent', cur, n.lowerBound k, n, l, fun pid => (hheld pid).1, ?_, ?_,
    hunder, sib.cur_slot.1, sib.right_slot.1⟩, ⟨fun pid => (hheld pid).2,
    ⟨l₁, by rw [hheap, hl₁]⟩, parent', hnext', .inr ⟨n, by rw [hheap, sib.parent_page]⟩⟩,
    ⟨right, hnext, (hheld right).2.mpr rfl⟩, parent', hnext', (hheld parent').1.mpr (.inl rfl)⟩
  · rw [hheap, sib.parent_page]
  · rw [hheap, sib.cur_page]

theorem clash_knot (ht : (workers T c).system.Trace ls s)
    (hfree : ∀ pid, s.memory.holder pid = none ∧ s.memory.sharers pid = ∅)
    (hidle : s.call t = .idle) (hidle' : s.call u = .idle) (hne : t ≠ u) {k k' : K}
    {parent cur right : PID} (hclash : Clash c s.memory.heap k k' parent cur right)
    (v : V) :
    ∃ s', (workers T c).system.Moves s [.call t (.remove k), .call u (.insert k' v)] s' ∧
      Merging c s' t right ∧ Splitting s' u right ∧
      ∀ w ∈ ({t, u} : Set T), ∃ w' ∈ ({t, u} : Set T), WaitsFor s' w w' := by
  obtain ⟨s', hmoves, hmerging, hsplitting, htu, hut⟩ :=
    clash_spins ht hfree hidle hidle' hne hclash v
  refine ⟨s', hmoves, hmerging, hsplitting, ?_⟩
  rintro w (rfl | rfl)
  · exact ⟨u, .inr rfl, htu.waitsFor⟩
  · exact ⟨t, .inl rfl, hut.waitsFor⟩

/-- Both workers wait for ever, whatever they and all the others do. -/
theorem clash_deadlocks (ht : (workers T c).system.Trace ls s)
    (hfree : ∀ pid, s.memory.holder pid = none ∧ s.memory.sharers pid = ∅)
    (hidle : s.call t = .idle) (hidle' : s.call u = .idle) (hne : t ≠ u) {k k' : K}
    {parent cur right : PID} (hclash : Clash c s.memory.heap k k' parent cur right) (v : V) :
    ∃ s', (workers T c).system.Moves s [.call t (.remove k), .call u (.insert k' v)] s' ∧
      ∀ ls' s'', (workers T c).system.Moves s' ls' s'' →
        s''.call t = s'.call t ∧ s''.call u = s'.call u ∧ s''.call t ≠ .idle ∧
          s''.call u ≠ .idle := by
  obtain ⟨s', hmoves, ⟨⟨op, next, ht'⟩, -⟩, ⟨-, -, above, ⟨op', next', hu'⟩, -⟩, hknot⟩ :=
    clash_knot ht hfree hidle hidle' hne hclash v
  refine ⟨s', hmoves, fun ls' s'' hm => ?_⟩
  obtain ⟨hcall, -⟩ := knots_last hknot hm
  have hct := hcall t (.inl rfl)
  have hcu := hcall u (.inr rfl)
  exact ⟨hct, hcu, by simp [hct, ht'], by simp [hcu, hu']⟩

/-! ## A tree of three leaves -/

/-- What makes an empty leaf next to a full one. -/
def emptying : List (Event Bool (Call Nat Nat) (Reply Nat Nat)) :=
  exchange true [.insert 10 1, .insert 20 2, .insert 30 3, .insert 40 4, .insert 15 5, .remove 10]
    [.done, .done, .done, .done, .done, .removed true]

theorem emptying_clash : ∃ s : WorkerStates Bool Nat Nat,
    (workers Bool tinyNodes).system.Trace emptying s ∧
      (∀ pid, s.memory.holder pid = none ∧ s.memory.sharers pid = ∅) ∧
      (∀ t, s.call t = .idle) ∧ Clash tinyNodes s.memory.heap 10 17 3 1 2 := by
  obtain ⟨m, hheap, hfree, ht⟩ := session_moves (t := true) (newTree_trace (c := tinyNodes))
    (fun _ => ⟨rfl, rfl⟩) rfl 9 [.insert 10 1, .insert 20 2, .insert 30 3, .insert 40 4,
      .insert 15 5, .remove 10] rfl
  refine ⟨_, ht, hfree, fun _ => rfl, ?_⟩
  show Clash tinyNodes m.heap 10 17 3 1 2
  rw [hheap]
  refine ⟨⟨3, 1, _, rfl, rfl, rfl, by decide, by decide, rfl⟩, ⟨_, rfl, rfl⟩,
    ⟨_, ⟨3, 1, rfl, rfl, rfl⟩, rfl⟩, fun root height levels pid n hentry hdown hn => ?_⟩
  obtain ⟨rfl, rfl⟩ : 3 = root ∧ 1 = height := Page.entry.inj hentry
  rcases levels with _ | _ | levels
  · obtain rfl := Except.ok.inj hdown
    obtain rfl := Page.inner.inj hn
    rfl
  · obtain rfl := Except.ok.inj hdown
    cases hn
  · cases hdown

theorem emptied_leaf_clash : ∃ ls, ∃ s : WorkerStates Bool Nat Nat,
    (workers Bool tinyNodes).system.Trace ls s ∧
      (∀ pid, s.memory.holder pid = none ∧ s.memory.sharers pid = ∅) ∧
      (∀ t, s.call t = .idle) ∧ Clash tinyNodes s.memory.heap 10 17 3 1 2 :=
  ⟨emptying, emptying_clash⟩

theorem emptied_leaf_deadlocks : ∃ s s' : WorkerStates Bool Nat Nat,
    (workers Bool tinyNodes).system.Moves s
        [.call true (.remove 10), .call false (.insert 17 6)] s' ∧
      ∀ ls' s'', (workers Bool tinyNodes).system.Moves s' ls' s'' →
        s''.call true = s'.call true ∧ s''.call false = s'.call false ∧ s''.call true ≠ .idle ∧
          s''.call false ≠ .idle := by
  obtain ⟨ls, s, ht, hfree, hidle, hclash⟩ := emptied_leaf_clash
  obtain ⟨s', h⟩ := clash_deadlocks ht hfree (hidle true) (hidle false) (by decide) hclash 6
  exact ⟨s, s', h⟩

/-! ## Which deadlocks there are -/

/-- Whoever waits only for members of a set that all do is one of a set with a removal that
merges and an insert that holds the sibling it waits for. -/
theorem deadlocks_merge (ht : (workers T c).system.Trace ls s) {S : Set T} (hne : S.Nonempty)
    (hall : ∀ t ∈ S, ∃ u ∈ S, WaitsFor s t u) :
    ∃ t ∈ S, ∃ u ∈ S, ∃ right, Merging c s t right ∧ Splitting s u right := by
  obtain ⟨g, hinv, -, hsafe⟩ := reached_invariant ht
  exact merging_of_knot hinv hsafe hne hall

theorem emptied_leaf_merges : ∃ s : WorkerStates Bool Nat Nat, ∃ t ∈ ({true, false} : Set Bool),
    ∃ u ∈ ({true, false} : Set Bool), ∃ right,
      Merging tinyNodes s t right ∧ Splitting s u right := by
  obtain ⟨ls, s, ht, hfree, hidle, hclash⟩ := emptied_leaf_clash
  obtain ⟨s', hmoves, -, -, hknot⟩ :=
    clash_knot ht hfree (hidle true) (hidle false) (by decide) hclash 6
  exact ⟨s', deadlocks_merge (ht.moves hmoves) ⟨true, .inl rfl⟩ hknot⟩

/-- As long as there is a worker in a call that does not just ask for a reclaimed page, a worker
goes on, or a removal has met an insert like that. -/
theorem workers_progress (ht : (workers T c).system.Trace ls s) {t : T} (hcall : s.call t ≠ .idle)
    (hthere : ¬ FixesReclaimed s t) :
    (∃ u, GoesOn c s u) ∨ ∃ t u right, Merging c s t right ∧ Splitting s u right := by
  obtain ⟨g, hinv, hidle, hsafe⟩ := reached_invariant ht
  obtain ⟨root, height, inv⟩ := hinv.tree
  by_cases hgoes : ∃ u, GoesOn c s u
  · exact .inl hgoes
  · push Not at hgoes
    -- whoever is in a call waits for somebody else in a call, which asks for no reclaimed page
    -- since it holds something
    let busy : Set T := {t | s.call t ≠ .idle ∧ ¬ FixesReclaimed s t}
    have hall : ∀ t ∈ busy, ∃ u ∈ busy, WaitsFor s t u := by
      rintro t ⟨hcall, hthere⟩
      rcases hrun : s.call t with _ | ⟨op, r | _ | ⟨i, next⟩⟩
      · exact absurd hrun hcall
      · exact absurd (.ret hrun) (hgoes t)
      · exact absurd hrun ((logic T c Set.univ).never_throws ok_attempt ht t op)
      · have hnext : s.Next t i := ⟨op, next, hrun⟩
        by_cases hfree : ∀ u, ¬ Blocks s.memory u i
        · obtain ⟨a, m, hexec⟩ := (hsafe t i hnext).executes hfree
          exact absurd (.instr hnext hthere hexec) (hgoes t)
        · push Not at hfree
          obtain ⟨u, hblock⟩ := hfree
          have hheld : ¬ ((∀ q, s.memory.holder q ≠ some u) ∧ ∀ q, u ∉ s.memory.sharers q) := by
            rintro ⟨hholds, hshares⟩
            rcases hblock.held with ⟨pid, h⟩ | ⟨pid, h⟩
            · exact hholds pid h
            · exact hshares pid h
          refine ⟨u, ⟨fun hu => ?_, ?_⟩, i, hnext, hblock⟩
          · obtain ⟨hholds, hshares, -⟩ := knows_nothing.mp (hidle u hu)
            exact hheld ⟨hholds, hshares⟩
          · rintro ⟨i', pid, hnext', hi', hpage⟩
            exact hheld ((hsafe u i' hnext').fixes_reclaimed inv hi' hpage)
    have hne : busy.Nonempty := ⟨t, hcall, hthere⟩
    obtain ⟨t, -, u, -, right, h⟩ := merging_of_knot hinv hsafe hne hall
    exact .inr ⟨t, u, right, h⟩

theorem emptied_leaf_progress : ∃ s : WorkerStates Bool Nat Nat,
    (s.call true ≠ .idle ∧ ¬ FixesReclaimed s true) ∧
      ((∃ u, GoesOn tinyNodes s u) ∨
        ∃ t u right, Merging tinyNodes s t right ∧ Splitting s u right) := by
  obtain ⟨ls, s, ht, hfree, hidle, hclash⟩ := emptied_leaf_clash
  obtain ⟨s', hmoves, ⟨hnext, parent, cur, pos, n, l, hheld, -⟩, -⟩ :=
    clash_knot ht hfree (hidle true) (hidle false) (by decide) hclash 6
  obtain ⟨op, next, hcall⟩ := id hnext
  have ht' := ht.moves hmoves
  have hbusy : s'.call true ≠ .idle := by simp [hcall]
  have hthere : ¬ FixesReclaimed s' true := by
    obtain ⟨g, hinv, -, hsafe⟩ := reached_invariant ht'
    obtain ⟨root, height, inv⟩ := hinv.tree
    rintro ⟨i, pid, hi, hfixed, hpage⟩
    exact ((hsafe true i hi).fixes_reclaimed inv hfixed hpage).1 cur ((hheld cur).mpr (.inr rfl))
  exact ⟨s', ⟨hbusy, hthere⟩, workers_progress ht' hbusy hthere⟩

/-! ## Circles -/

/-- A removal that is going to merge holds its leaf and the page above, and an insert that holds the
right sibling is about to latch a page above. -/
def Meet (c : Capacity) (s : WorkerStates T K V) (t u : T) : Prop :=
  ∃ parent cur right pos n l, (∀ q, s.memory.holder q = some t ↔ q = parent ∨ q = cur) ∧
    s.memory.heap.page parent = .inner n ∧ s.memory.heap.page cur = .leaf l ∧
    l.isUnderflow c = true ∧ n.children[pos]? = some cur ∧ n.children[pos + 1]? = some right ∧
    2 ≤ n.count ∧ pos + 1 < n.count ∧ Splitting s u right

variable (T c) in
/-- The runs in which removals and inserts do not meet. -/
def apart : Labelled (Event T (Call K V) (Reply K V)) (WorkerStates T K V) where
  Init := (workers T c).system.Init
  Step s l s' := (workers T c).system.Step s l s' ∧ ∀ t u, ¬ Meet c s' t u

theorem apart_workers (ht : (apart T c).Trace ls s) : (workers T c).system.Trace ls s := by
  induction ht with
  | init h => exact .init h
  | step _ h ih => exact ih.step h.1

theorem apart_never_meet (ht : (apart T c).Trace ls s) (t u : T) : ¬ Meet c s t u := by
  cases ht with
  | init h =>
    rintro ⟨parent, cur, right, pos, n, l, -, -, -, -, -, -, -, -, -, -, above,
      ⟨op, next, hcall⟩, -⟩
    simp [h.2 u] at hcall
  | step _ h => exact h.2 t u

/-- In a circle of workers one would meet another. -/
theorem meet_of_circle (ht : (workers T c).system.Trace ls s)
    (hcircle : Relation.TransGen (Spins s) t t) : ∃ u v, Meet c s u v := by
  obtain ⟨g, hinv, -, hsafe⟩ := reached_invariant ht
  -- everybody on the way from `t` back to `t` waits for the next one
  let S : Set T := {u | Relation.ReflTransGen (Spins s) u t}
  have hall : ∀ u ∈ S, ∃ v ∈ S, WaitsFor s u v := by
    intro u hu
    rcases hu.cases_head with rfl | ⟨v, huv, hvt⟩
    · obtain ⟨v, huv, hvt⟩ := Relation.TransGen.head'_iff.mp hcircle
      exact ⟨v, hvt, huv.waitsFor⟩
    · exact ⟨v, hvt, huv.waitsFor⟩
  obtain ⟨u, -, v, -, right, -, aside, hsplitting⟩ := aside_of_knot hinv hsafe ⟨t, .refl⟩ hall
  obtain ⟨parent, cur, pos, n, l, l', p, r, q, hheld, sib, hunder, htwo, hpos⟩ := aside
  exact ⟨u, v, parent, cur, right, pos, n, l, hheld, sib.parent_page, sib.cur_page, hunder,
    sib.cur_slot.1, sib.right_slot.1, htwo, hpos, hsplitting⟩

/-- A worker does not meet itself. -/
theorem alone_never_meets (ht : (workers T c).system.Trace ls s)
    (hidle : ∀ u, u ≠ t → s.call u = .idle) (u v : T) : ¬ Meet c s u v := by
  obtain ⟨g, -, hnothing, -⟩ := reached_invariant ht
  rintro ⟨parent, cur, right, pos, n, l, hheld, hn, hl, -, -, -, -, -, hheld', -, above,
    ⟨op, next, hcall⟩, -⟩
  obtain rfl : v = t := by
    by_contra hne
    simp [hidle v hne] at hcall
  obtain rfl : u = v := by
    by_contra hne
    obtain ⟨hholder, -⟩ := knows_nothing.mp (hnothing u (hidle u hne))
    exact hholder parent ((hheld parent).mpr (.inl rfl))
  have hparent := (hheld' parent).mp ((hheld parent).mpr (.inl rfl))
  have hcur := (hheld' cur).mp ((hheld cur).mpr (.inr rfl))
  simp [hparent.trans hcur.symm, hl] at hn

/-- What one worker does is done apart. -/
theorem apart_of_alone (ht : (workers T c).system.Trace ls s)
    (honly : ∀ u op, .call u op ∈ ls → u = t) :
    (apart T c).Trace ls s ∧ ∀ u, u ≠ t → s.call u = .idle := by
  induction ht with
  | init h => exact ⟨.init h, fun u _ => h.2 u⟩
  | @step ls s s' l ht hstep ih =>
    obtain ⟨hapart, hidle⟩ := ih fun u op hmem => honly u op (List.mem_append_left _ hmem)
    have hidle' : ∀ u, u ≠ t → s'.call u = .idle := by
      intro u hu
      have hold := hidle u hu
      cases hstep with
      | @call v op n h =>
        obtain rfl := honly v op (by simp)
        simpa [Function.update_of_ne hu] using hold
      | @instr v op i next a m h hexec =>
        have hne : u ≠ v := by rintro rfl; simp [hold] at h
        simpa [Function.update_of_ne hne] using hold
      | @restart v op n h =>
        have hne : u ≠ v := by rintro rfl; simp [hold] at h
        simpa [Function.update_of_ne hne] using hold
      | @«return» v op a h =>
        have hne : u ≠ v := by rintro rfl; simp [hold] at h
        simpa [Function.update_of_ne hne] using hold
      | environment h => exact hold
    exact ⟨hapart.step ⟨hstep, alone_never_meets (ht.step hstep) hidle'⟩, hidle'⟩

/-- Unless a removal meets an insert, no workers wait for latches in a circle. -/
theorem no_circle_apart (ht : (apart T c).Trace ls s) (t : T) :
    ¬ Relation.TransGen (Spins s) t t := by
  intro hcircle
  obtain ⟨u, v, hmeet⟩ := meet_of_circle (apart_workers ht) hcircle
  exact apart_never_meet ht u v hmeet

theorem emptying_no_circle : ∃ s : WorkerStates Bool Nat Nat,
    (apart Bool tinyNodes).Trace emptying s ∧ ∀ t, ¬ Relation.TransGen (Spins s) t t := by
  obtain ⟨s, ht, -⟩ := emptying_clash
  have hapart := (apart_of_alone (t := true) ht fun u op hmem => by
    simp [emptying, exchange] at hmem; tauto).1
  exact ⟨s, hapart, no_circle_apart hapart⟩

/-- The removal from the empty leaf and the insert into the full one form a circle. -/
theorem emptied_leaf_circle : ∃ s : WorkerStates Bool Nat Nat,
    (workers Bool tinyNodes).system.Trace
        (emptying ++ [.call true (.remove 10), .call false (.insert 17 6)]) s ∧
      Relation.TransGen (Spins s) true true := by
  obtain ⟨s, ht, hfree, hidle, hclash⟩ := emptying_clash
  obtain ⟨s', hmoves, -, -, htu, hut⟩ :=
    clash_spins ht hfree (hidle true) (hidle false) (by decide) hclash 6
  exact ⟨s', ht.moves hmoves, .tail (.single htu) hut⟩

end Clash

end ScaleStore.BTree
