/-
# A worker alone

What the guards are for is other workers.  Run by one worker while no page is latched,
one attempt of a call does to the pages what one pass of the sequential function does,
and answers the same; so a worker that is left alone returns from its call.
-/

import ScaleStore.Lib.SoloRuns
import ScaleStore.BTree.SharedRemoval

namespace ScaleStore.BTree

variable {T K V : Type} [DecidableEq T] [LinearOrder K] [Inhabited K] {c : Capacity} {t : T}

/-! ## Instructions without others -/

/-- `try_lock_shared` may fail for no reason; here it does not. -/
def Granted : (i : Instr K V) → i.Answer → Prop
  | .tryLatchShared _, ok => ok = true
  | _, _ => True

def soloInstr (c : Capacity) (t : T) (i : Instr K V) (m : Pages T K V) (a : i.Answer)
    (m' : Pages T K V) : Prop :=
  execInstr c entryPage t i m a m' ∧ Granted i a

abbrev Solo {R : Type} (c : Capacity) (t : T) (Q : R → Pages T K V → Prop) (prog : Code K V R)
    (m : Pages T K V) : Prop :=
  prog.Alone (soloInstr c t) Q m

/-- The latched pages are those of the list, by `t`. -/
structure Latched (t : T) (latched : List PID) (m : Pages T K V) : Prop where
  holder : ∀ pid, m.holder pid = if pid ∈ latched then some t else none
  sharers : ∀ pid, m.sharers pid = ∅

omit [DecidableEq T] [LinearOrder K] [Inhabited K] in
theorem latched_nil {m : Pages T K V} :
    Latched t [] m ↔ ∀ pid, m.holder pid = none ∧ m.sharers pid = ∅ :=
  ⟨fun h pid => ⟨by simpa using h.holder pid, h.sharers pid⟩,
    fun h => ⟨fun pid => by simpa using (h pid).1, fun pid => (h pid).2⟩⟩

section Instructions

variable {m : Pages T K V} {latched : List PID} {pid : PID} {R : Type} {Q : R → Pages T K V → Prop}
  {og : OptimisticGuard}

omit [DecidableEq T] [LinearOrder K] [Inhabited K] in
theorem Latched.holder_none (h : Latched t latched m) (hpid : pid ∉ latched) :
    m.holder pid = none := by
  rw [h.holder, if_neg hpid]

omit [DecidableEq T] [LinearOrder K] [Inhabited K] in
theorem Latched.latch (h : Latched t latched m) :
    Latched t (pid :: latched) (m.latch pid (some t)) := by
  refine ⟨fun q => ?_, h.sharers⟩
  by_cases hq : q = pid
  · subst hq
    simp
  · simp [hq, h.holder q]

omit [DecidableEq T] [LinearOrder K] [Inhabited K] in
theorem Latched.unlatch (h : Latched t (pid :: latched) m) (hpid : pid ∉ latched) :
    Latched t latched (m.latch pid none) := by
  refine ⟨fun q => ?_, h.sharers⟩
  by_cases hq : q = pid
  · subst hq
    simp [hpid]
  · simp [hq, h.holder q]

omit [DecidableEq T] [LinearOrder K] [Inhabited K] in
theorem Latched.write (h : Latched t latched m) (heap : Heap K V) :
    Latched t latched (m.write heap) :=
  ⟨h.holder, h.sharers⟩

theorem solo_instr (i : Instr K V) {next : i.Answer → Code K V R} (a : i.Answer) (m' : Pages T K V)
    (hexec : ∀ a' m'', soloInstr c t i m a' m'' ↔ a' = a ∧ m'' = m')
    (hnext : Solo c t Q (next a) m') : Solo c t Q (.instr i next) m :=
  Prog.alone_instr hexec hnext

theorem solo_fixOptimistic {next : OptimisticGuard → Code K V R} (h : m.holder pid = none)
    (hnext : Solo c t Q (next ⟨pid, m.version pid⟩) m) :
    Solo c t Q (fixOptimistic pid >>= next) m :=
  solo_instr (.fixOptimistic pid) _ _
    (fun a m' => by simp [soloInstr, execInstr, Granted, h]) hnext

theorem solo_retry {next : Bool → Code K V R} (h : m.version og.pid = og.vAcquired)
    (hnext : Solo c t Q (next false) m) : Solo c t Q (retry og >>= next) m :=
  solo_instr (.retry og) _ _ (fun a m' => by simp [soloInstr, execInstr, Granted, h]) hnext

theorem solo_asPtr {next : Bool → Code K V R} (h : m.version og.pid = og.vAcquired)
    (hnext : Solo c t Q (next false) m) : Solo c t Q (asPtr og >>= next) m := by
  rw [asPtr_bind]
  exact solo_retry h (solo_retry h hnext)

theorem solo_peek {next : Page K V → Code K V R} (h : m.version og.pid = og.vAcquired)
    (hpage : m.heap.page og.pid ≠ .unmapped) (hnext : Solo c t Q (next (m.heap.page og.pid)) m) :
    Solo c t Q (peek og >>= next) m :=
  solo_instr (.peek og) _ _
    (fun a m' => by simp [soloInstr, execInstr, Granted, h, Pages.Reads, hpage]) hnext

theorem solo_read {next : Page K V → Code K V R} (hpage : m.heap.page pid ≠ .unmapped)
    (hnext : Solo c t Q (next (m.heap.page pid)) m) : Solo c t Q (readPage pid >>= next) m :=
  solo_instr (.read pid) _ _
    (fun a m' => by simp [soloInstr, execInstr, Granted, Pages.Reads, hpage]) hnext

theorem solo_fixExclusive {next : Nat → Code K V R} (h : Latched t latched m) (hpid : pid ∉ latched)
    (hnext : Solo c t Q (next (m.version pid + 2)) (m.latch pid (some t))) :
    Solo c t Q (fixExclusive pid >>= next) m :=
  solo_instr (.fixExclusive pid) _ _
    (fun a m' => by simp [soloInstr, execInstr, Granted, h.holder_none hpid, h.sharers pid]) hnext

theorem solo_unlatchExclusive {next : Unit → Code K V R} (h : Latched t (pid :: latched) m)
    (hnext : Solo c t Q (next ()) (m.latch pid none)) :
    Solo c t Q (unlatchExclusive pid >>= next) m :=
  solo_instr (.unlatchExclusive pid) _ _
    (fun a m' => by simp [soloInstr, execInstr, Granted, h.holder pid]) hnext

theorem solo_upgrade {next : Bool → Code K V R} (h : Latched t latched m) (hpid : og.pid ∉ latched)
    (hversion : m.version og.pid = og.vAcquired)
    (hnext : Solo c t Q (next true) (m.latch og.pid (some t))) :
    Solo c t Q (upgrade og >>= next) m := by
  rw [upgrade_bind]
  refine solo_retry hversion (solo_fixExclusive h hpid ?_)
  rw [hversion, if_pos rfl]
  exact hnext

theorem solo_splitNode {parent cur : PID} {h' : Heap K V} {next : Bool → Code K V R}
    (h : splitPage c entryPage m.heap parent cur = .ok h')
    (hnext : Solo c t Q (next true) (m.write h')) : Solo c t Q (splitNode parent cur >>= next) m :=
  solo_instr (.split parent cur) _ _
    (fun a m' => by simp [soloInstr, execInstr, Granted, h]) hnext

omit [DecidableEq T] [LinearOrder K] [Inhabited K] in
/-- Shared and given back. -/
theorem Latched.share_share (h : Latched t latched m) : (m.share pid {t}).share pid ∅ = m := by
  simp [Pages.share, ← h.sharers pid]

theorem solo_fixShared {next : Unit → Code K V R} (h : Latched t [] m)
    (hnext : Solo c t Q (next ()) (m.share pid {t})) : Solo c t Q (fixShared pid >>= next) m :=
  solo_instr (.fixShared pid) _ _ (fun a m' => by
    simp [soloInstr, execInstr, Granted, h.holder_none List.not_mem_nil, h.sharers pid]) hnext

theorem solo_tryLatchShared {next : Bool → Code K V R} (h : Latched t [] m)
    (hnext : Solo c t Q (next true) (m.share pid {t})) :
    Solo c t Q (tryLatchShared pid >>= next) m :=
  solo_instr (.tryLatchShared pid) true _ (fun a m' => by
    cases a <;> simp [soloInstr, execInstr, Granted, h.holder_none List.not_mem_nil, h.sharers pid])
    hnext

theorem solo_unlatchShared {next : Unit → Code K V R} (h : Latched t [] m)
    (hnext : Solo c t Q (next ()) m) : Solo c t Q (unlatchShared pid >>= next) (m.share pid {t}) :=
  solo_instr (.unlatchShared pid) () _ (fun a m' => by
    have hback : (m.share pid {t}).share pid ∅ = m := h.share_share
    simp [soloInstr, execInstr, Granted, hback]) hnext

end Instructions

section Descents

variable {m : Pages T K V} {G : Layout K} {root : PID} {height : Nat} {gp gn : OptimisticGuard}
  {cur : PID} {k : K}

theorem enter_alone (hfree : Latched t [] m) :
    Solo c t (fun o m' => o = some ⟨entryPage, m.version entryPage⟩ ∧ m' = m)
      (enter (K := K) (V := V) entryPage) m := by
  rw [enter]
  exact solo_fixOptimistic (hfree.holder_none List.not_mem_nil) (solo_asPtr rfl ⟨rfl, rfl⟩)

/-! ## By the stored height -/

/-- A full node is split, another one is left as it is. -/
theorem splitFull_alone (hfree : Latched t [] m) (hgp : m.version gp.pid = gp.vAcquired)
    (hgn : m.version gn.pid = gn.vAcquired) (hne : gn.pid ≠ gp.pid) {n : Inner K}
    (hn : m.heap.page gn.pid = .inner n) (hsplit : n.isFull c = true →
      ∃ h', splitInner c entryPage m.heap gp.pid gn.pid n = .ok h') :
    Solo c t (fun o m' => if n.isFull c then o = some none ∧ Latched t [] m' ∧
        splitInner c entryPage m.heap gp.pid gn.pid n = .ok m'.heap
      else o = none ∧ m' = m) (splitFull c gp gn) m := by
  rw [splitFull]
  refine solo_peek hgn (by simp [hn]) ?_
  simp only [hn, Page.isFull]
  cases hfull : n.isFull c with
  | false => exact ⟨rfl, rfl⟩
  | true =>
    obtain ⟨h', hrun⟩ := hsplit hfull
    have hpage : splitPage c entryPage m.heap gp.pid gn.pid = .ok h' := by
      simp [splitPage, hn, hrun]
    refine solo_upgrade hfree List.not_mem_nil hgp ?_
    refine solo_upgrade hfree.latch (by simpa using hne) (by simpa [hne] using hgn) ?_
    refine solo_splitNode hpage ?_
    refine solo_unlatchExclusive (hfree.latch.latch.write h') ?_
    have hheld := (hfree.latch.latch.write h').unlatch (by simpa using hne)
    refine solo_unlatchExclusive hheld ?_
    exact ⟨rfl, hheld.unlatch List.not_mem_nil, hrun⟩

/-- How the descent ends. -/
def LevelsEnd (c : Capacity) (t : T) (splits : Bool) (k : K) (m : Pages T K V) (G : Layout K)
    (levels : Nat) (parent cur : PID) : Descent K V PID → Pages T K V → Prop
  | .over r, m' => splits = true ∧ r = none ∧ Latched t [] m' ∧
      (∃ j pid n, descendHeight m.heap k j cur = .ok pid ∧ m.heap.page pid = .inner n ∧
        n.isFull c = true) ∧
      ∀ v, insertDescend c entryPage m.heap k v levels parent cur = .ok (m'.heap, false)
  | .leaf gp' cur', m' => m' = m ∧ m.version gp'.pid = gp'.vAcquired ∧
      Towards gp'.pid cur' (Covers c splits k 0) (m.heap.page gp'.pid) (G gp'.pid) ∧
      descendHeight m.heap k levels cur = .ok cur' ∧ (splits = true → ∀ v,
        insertDescend c entryPage m.heap k v levels parent cur =
          insertAtLeaf c entryPage m.heap k v gp'.pid cur')

theorem descendLevels_alone (gp : OptimisticGuard)
    (inv : TreeInv c entryPage m.heap G root height) (hfree : Latched t [] m) {splits : Bool}
    {levels : Nat} (hgp : m.version gp.pid = gp.vAcquired)
    (htowards : Towards gp.pid cur (Covers c splits k levels) (m.heap.page gp.pid) (G gp.pid)) :
    Solo c t (LevelsEnd c t splits k m G levels gp.pid cur)
      (descendLevels c splits k levels gp cur) m := by
  induction levels generalizing gp cur with
  | zero => exact ⟨rfl, hgp, htowards, rfl, fun _ _ => rfl⟩
  | succ levels ih =>
    obtain ⟨r, hleads, hlevel, hk, hroom⟩ := htowards
    obtain ⟨hG, hparent⟩ := inv.leads hleads
    have hne := (inv.leads_ne hleads).symm
    obtain ⟨n, child, r', hn, hchild, -⟩ :=
      inv.descend_one (Search.sound_lowerBoundBF k) hG hk hlevel
    have hat : (m.heap.page cur).childAt (fun n => n.lowerBoundBF k) = child := by
      simp [hn, Page.childAt, hchild]
    rw [descendLevels]
    refine solo_fixOptimistic (hfree.holder_none List.not_mem_nil) ?_
    refine solo_retry hgp (solo_asPtr rfl (solo_peek rfl (by simp [hn]) ?_))
    simp only [hn, Page.isInner, Bool.not_true, Bool.false_eq_true, if_false]
    -- the rest of the way, from a node that is not split
    have hrest : (splits = true → n.isFull c = false) →
        Solo c t (LevelsEnd c t splits k m G (levels + 1) gp.pid cur)
          (retry gp >>= fun stale => if stale then pure (.over none)
          else peek ⟨cur, m.version cur⟩ >>= fun page => retry ⟨cur, m.version cur⟩ >>= fun stale =>
            if stale then pure (.over none)
            else descendLevels c splits k levels ⟨cur, m.version cur⟩
              (page.childAt fun n => n.lowerBoundBF k)) m := by
      intro hspared
      refine solo_retry hgp (solo_peek rfl (by simp [hn]) (solo_retry rfl ?_))
      have hnode : Reached c splits k (levels + 1) (m.heap.page cur) (G cur) :=
        ⟨⟨r, hG, hlevel, hk⟩, fun hs => by simpa [hn, Page.isFull] using hspared hs⟩
      refine (ih ⟨cur, m.version cur⟩ rfl (inv.towards_child hnode)).mono fun d m' hd => ?_
      rw [hat] at hd
      have hinsert : ∀ v, splits = true →
          insertDescend c entryPage m.heap k v (levels + 1) gp.pid cur =
            insertDescend c entryPage m.heap k v levels cur child := fun v hs => by
        simp [insertDescend, hn, hspared hs, hchild]
      rcases d with r | ⟨gp', cur'⟩
      · obtain ⟨hs, hr, hfree', ⟨j, pid, n', hj, hn', hfull⟩, hrun⟩ := hd
        exact ⟨hs, hr, hfree', ⟨j + 1, pid, n', by simpa [descendHeight, hn, hchild] using hj, hn',
          hfull⟩, fun v => (hinsert v hs).trans (hrun v)⟩
      · obtain ⟨hm, hgp', htowards', hrun, hleaf⟩ := hd
        exact ⟨hm, hgp', htowards', by simpa [descendHeight, hn, hchild] using hrun,
          fun hs v => (hinsert v hs).trans (hleaf hs v)⟩
    cases splits with
    | false => exact hrest fun h => absurd h Bool.false_ne_true
    | true =>
      simp only [if_true]
      refine (splitFull_alone hfree hgp rfl hne hn fun hfull => ?_).bind
        fun o m' ho => ?_
      · obtain ⟨h', -, -, -, hrun, -⟩ :=
          inv.splitInner hG hparent (fun _ n hn => hroom rfl n hn) hn hfull
        exact ⟨h', hrun⟩
      · cases hfull : n.isFull c with
        | false =>
          obtain ⟨rfl, rfl⟩ : o = none ∧ m' = m := by simpa [hfull] using ho
          exact hrest fun _ => hfull
        | true =>
          obtain ⟨rfl, hfree', hrun⟩ : o = some none ∧ Latched t [] m' ∧
              splitInner c entryPage m.heap gp.pid cur n = .ok m'.heap := by simpa [hfull] using ho
          exact ⟨rfl, rfl, hfree', ⟨0, cur, n, rfl, hn, hfull⟩,
            fun v => by simp [insertDescend, hn, hfull, hrun]⟩

/-- From the entry page on. -/
theorem toLeaf_alone (inv : TreeInv c entryPage m.heap G root height) (hfree : Latched t [] m)
    {splits : Bool} :
    Solo c t (LevelsEnd c t splits k m G height entryPage root)
      (toLeaf c entryPage splits k) m := by
  have hpage : m.heap.page entryPage ≠ .unmapped := by simp [inv.entry_page]
  rw [toLeaf]
  refine (enter_alone hfree).bind ?_
  rintro _ m ⟨rfl, rfl⟩
  refine solo_peek rfl hpage (solo_peek rfl hpage ?_)
  simp only [inv.entry_page, Page.root, Page.height]
  have htowards : Towards entryPage root (Covers c splits k height) (m.heap.page entryPage)
      (G entryPage) := by
    refine ⟨⟨height, none, none⟩, .inl ⟨rfl, height, inv.entry_page, rfl⟩, rfl, ⟨by simp, by simp⟩,
      fun _ n hn => ?_⟩
    rw [inv.entry_page] at hn
    cases hn
  exact descendLevels_alone ⟨entryPage, _⟩ inv hfree rfl htowards

/-! ## By the types of the nodes -/

/-- The leaf and the page above, both as they were seen. -/
def NodesEnd (Wanted : FenceKey K → FenceKey K → Prop) (next : Inner K → Nat) (m : Pages T K V)
    (G : Layout K) (turns : Nat) (parent cur : PID) (d : Descent K V OptimisticGuard)
    (m' : Pages T K V) : Prop :=
  m' = m ∧ ∃ gp gn l, d = .leaf gp gn ∧ m.version gp.pid = gp.vAcquired ∧
    m.version gn.pid = gn.vAcquired ∧
    Towards gp.pid gn.pid (Wants Wanted) (m.heap.page gp.pid) (G gp.pid) ∧
    m.heap.page gn.pid = .leaf l ∧
    descendType m.heap next turns parent cur = .ok (gp.pid, gn.pid)

theorem descendNodes_alone (gp gn : OptimisticGuard)
    (inv : TreeInv c entryPage m.heap G root height) (hfree : Latched t [] m) {next : Inner K → Nat}
    {Wanted : FenceKey K → FenceKey K → Prop}
    (hs : Search.Sound next Wanted) {turns : Nat} (hgp : m.version gp.pid = gp.vAcquired)
    (hgn : m.version gn.pid = gn.vAcquired) {r : Region K}
    (hleads : Leads gp.pid (m.heap.page gp.pid) (G gp.pid) gn.pid r) (hr : Wanted r.lower r.upper)
    (hlevel : r.level < turns) :
    Solo c t (NodesEnd Wanted next m G turns gp.pid gn.pid) (descendNodes next turns gp gn) m := by
  induction turns generalizing gp gn r with
  | zero => exact absurd hlevel (Nat.not_lt_zero _)
  | succ turns ih =>
    obtain ⟨hG, -⟩ := inv.leads hleads
    rw [descendNodes]
    refine solo_peek hgn (inv.not_unmapped hG) ?_
    rcases Nat.eq_zero_or_pos r.level with hzero | hpos
    · obtain ⟨l, hl, -⟩ := inv.leaf_page hG hzero
      simp only [hl, Page.isInner, Bool.not_false, if_true]
      exact ⟨rfl, gp, gn, l, rfl, hgp, hgn, ⟨r, hleads, hr⟩, hl, by simp [descendType, hl]⟩
    · obtain ⟨n, child, r', hn, hchild, hG', hlevel', hr', hparent'⟩ :=
        inv.descend_one hs hG hr (show r.level = (r.level - 1) + 1 by omega)
      have hat : (m.heap.page gn.pid).childAt next = child := by simp [hn, Page.childAt, hchild]
      simp only [hn, Page.isInner, Bool.not_true, Bool.false_eq_true, if_false]
      refine solo_retry hgp (solo_peek hgn (by simp [hn]) (solo_retry hgn ?_))
      rw [hat]
      refine solo_fixOptimistic (hfree.holder_none List.not_mem_nil) (solo_asPtr rfl ?_)
      refine (ih gn ⟨child, m.version child⟩ hgn rfl
        (inv.leads_of_isParent hG' hparent') hr' (by omega)).mono fun d m' hd => ?_
      obtain ⟨hm, gp', gn', l, rfl, hgp', hgn', htowards, hl, hrun⟩ := hd
      exact ⟨hm, gp', gn', l, rfl, hgp', hgn', htowards, hl,
        by simpa [descendType, hn, hchild] using hrun⟩

theorem toLeafNode_alone (inv : TreeInv c entryPage m.heap G root height) (hfree : Latched t [] m)
    {next : Inner K → Nat} {Wanted : FenceKey K → FenceKey K → Prop} (hs : Search.Sound next Wanted)
    (hroot : Wanted none none) {turns : Nat} (hturns : height < turns) :
    Solo c t (NodesEnd Wanted next m G turns entryPage root)
      (toLeafNode entryPage next turns) m := by
  have hpage : m.heap.page entryPage ≠ .unmapped := by simp [inv.entry_page]
  have hunlatched : ∀ pid, m.holder pid = none := fun pid => hfree.holder_none List.not_mem_nil
  have hleads : Leads entryPage (m.heap.page entryPage) (G entryPage) root ⟨height, none, none⟩ :=
    .inl ⟨rfl, height, inv.entry_page, rfl⟩
  rw [toLeafNode]
  refine (enter_alone hfree).bind ?_
  rintro _ m ⟨rfl, rfl⟩
  refine solo_peek rfl hpage ?_
  simp only [inv.entry_page, Page.root]
  refine solo_fixOptimistic (hunlatched root) (solo_retry rfl (solo_asPtr rfl ?_))
  exact descendNodes_alone ⟨entryPage, _⟩ ⟨root, _⟩ inv hfree hs rfl rfl hleads hroot hturns

end Descents

/-! ## The calls -/

/-- One pass of the sequential function; without a reply it starts again. -/
def pass (c : Capacity) (turns : Nat) (h : Heap K V) :
    Call K V → Except Fault (Heap K V × Option (Reply K V))
  | .insert k v => (insertPass c entryPage h k v).map fun (h', done) =>
      (h', if done then some .done else none)
  | .remove k => (remove c entryPage h k turns).map fun (h', removed) =>
      (h', some (.removed removed))
  | .lookup k => .ok (h, some (.found (lookup entryPage h k).toOption))
  | .lookup_opt k => .ok (h, some (.found (lookup_opt entryPage h k).toOption))
  | .lookupAndUpdate k callback =>
      match lookupAndUpdate entryPage h k callback with
      | .ok h' => .ok (h', some .done)
      | .error _ => .ok (h, some .raised)
  | .scan_ dir func isFirstTraversal k seen =>
      (scanStep entryPage dir func turns h isFirstTraversal k seen).map fun (seen', res) =>
        (h, some (.handed seen' res))

/-- The end of an attempt that does what the pass does. -/
def PassEnd (c : Capacity) (t : T) (turns : Nat) (h : Heap K V) (op : Call K V)
    (r : Option (Reply K V)) (m' : Pages T K V) : Prop :=
  Latched t [] m' ∧ pass c turns h op = .ok (m'.heap, r)

section Calls

variable {m : Pages T K V} {G : Layout K} {root : PID} {height turns : Nat}
  {gp gn : OptimisticGuard}
  {cur : PID} {k : K}

theorem insertAtPage_alone (inv : TreeInv c entryPage m.heap G root height)
    (hfree : Latched t [] m) (hgp : m.version gp.pid = gp.vAcquired)
    (htowards : Towards gp.pid cur (Covers c true k 0) (m.heap.page gp.pid) (G gp.pid)) (v : V) :
    Solo c t (fun r m' => Latched t [] m' ∧ ∃ done,
        insertAtLeaf c entryPage m.heap k v gp.pid cur = .ok (m'.heap, done) ∧
        r = if done then some .done else none) (insertAtPage c k v gp cur) m := by
  obtain ⟨r, hleads, hlevel, hk, hroom⟩ := htowards
  obtain ⟨hG, hparent⟩ := inv.leads hleads
  have hne := inv.leads_ne hleads
  obtain ⟨l, hl, -⟩ := inv.leaf_page hG hlevel
  have hmapped : (m.latch cur (some t)).heap.page cur ≠ .unmapped := by simp [hl]
  have hgp' : (m.latch cur (some t)).version gp.pid = gp.vAcquired := by simpa [hne] using hgp
  rw [insertAtPage]
  refine solo_fixExclusive hfree List.not_mem_nil (solo_read hmapped ?_)
  simp only [Pages.latch_heap, hl, Page.isLeaf, Bool.not_true, Bool.false_eq_true, if_false]
  refine solo_retry hgp' (solo_read hmapped ?_)
  simp only [Pages.latch_heap, hl, Page.isFull]
  cases hfull : l.isFull c with
  | true =>
    obtain ⟨h', -, -, -, hrun, -⟩ :=
      inv.splitLeaf hG hparent (fun _ n hn => hroom rfl n hn) hl hfull
    have hpage : splitPage c entryPage m.heap gp.pid cur = .ok h' := by simp [splitPage, hl, hrun]
    refine solo_upgrade hfree.latch (by simpa using hne) hgp' (solo_splitNode hpage ?_)
    have hheld := hfree.latch.latch.write (m := (m.latch cur (some t)).latch gp.pid (some t)) h'
    refine solo_unlatchExclusive hheld ?_
    have hheld' := hheld.unlatch (by simpa using hne)
    refine solo_unlatchExclusive hheld' ?_
    exact ⟨hheld'.unlatch List.not_mem_nil, false, by simp [insertAtLeaf, hl, hfull, hrun], rfl⟩
  | false =>
    have hheld := hfree.latch.write (m := m.latch cur (some t))
      (m.heap.set cur (.leaf (l.insert k v)))
    refine solo_instr (.insert cur k v) () _
      (fun a m' => by simp [soloInstr, execInstr, Granted, hl]; rfl) ?_
    refine solo_unlatchExclusive hheld ?_
    exact ⟨hheld.unlatch List.not_mem_nil, true, by simp [insertAtLeaf, hl, hfull], rfl⟩

theorem insertAttempt_alone (inv : TreeInv c entryPage m.heap G root height)
    (hfree : Latched t [] m) (v : V) :
    Solo c t (PassEnd c t turns m.heap (.insert k v)) (insertAttempt c entryPage k v) m := by
  rw [insertAttempt]
  refine (toLeaf_alone inv hfree).bind ?_
  rintro (r | ⟨gp, cur⟩) m' hd
  · obtain ⟨-, rfl, hfree', -, hrun⟩ := hd
    exact ⟨hfree', by simp [pass, insertPass, inv.entry_page, hrun v, Except.map]⟩
  · obtain ⟨rfl, hgp, htowards, -, hleaf⟩ := hd
    refine (insertAtPage_alone inv hfree hgp htowards v).mono fun r m' hr => ?_
    obtain ⟨hfree', done, hrun, rfl⟩ := hr
    exact ⟨hfree', by simp [pass, insertPass, inv.entry_page, hleaf rfl v, hrun, Except.map]⟩

omit [DecidableEq T] in
/-- Where a descent without splits ends, with the page above still as it was. -/
theorem leaf_of_levelsEnd (inv : TreeInv c entryPage m.heap G root height) {m' : Pages T K V}
    (hd : LevelsEnd c t false k m G height entryPage root (.leaf gp cur) m') :
    m' = m ∧ m.version gp.pid = gp.vAcquired ∧ gp.pid ≠ cur ∧
      ∃ l, m.heap.page cur = .leaf l ∧ descendHeight m.heap k height root = .ok cur := by
  obtain ⟨hm, hgp, ⟨r, hleads, hlevel, -⟩, hrun, -⟩ := hd
  obtain ⟨l, hl, -⟩ := inv.leaf_page (inv.leads hleads).1 hlevel
  exact ⟨hm, hgp, inv.leads_ne hleads, l, hl, hrun⟩

omit [DecidableEq T] in
theorem lookup_eq_payload (inv : TreeInv c entryPage m.heap G root height)
    (hrun : descendHeight m.heap k height root = .ok cur) {l : Leaf K V}
    (hl : m.heap.page cur = .leaf l) :
    (lookup entryPage m.heap k).toOption = (m.heap.page cur).payload k := by
  simp only [lookup, locate, inv.entry_page, hrun, hl, Page.payload]
  cases hf : l.find k with
  | none => rfl
  | some pos =>
    obtain ⟨v, hv, -⟩ := Leaf.find_some_payload hf
    simp [hv, Except.toOption]

theorem lookupAttempt_alone (inv : TreeInv c entryPage m.heap G root height)
    (hfree : Latched t [] m) :
    Solo c t (PassEnd c t turns m.heap (.lookup k)) (lookupAttempt c entryPage k) m := by
  rw [lookupAttempt]
  refine (toLeaf_alone inv hfree).bind ?_
  rintro (r | ⟨gp, cur⟩) m' hd
  · cases hd.1
  · obtain ⟨rfl, hgp, -, l, hl, hrun⟩ := leaf_of_levelsEnd inv hd
    refine solo_fixShared hfree (solo_retry hgp ?_)
    refine solo_instr (.find cur k) ((m'.heap.page cur).payload k) (m'.share cur {t})
      (fun a m' => by simp [soloInstr, execInstr, Granted, Pages.Reads, hl]) ?_
    refine solo_unlatchShared hfree ⟨hfree, ?_⟩
    rw [pass, lookup_eq_payload inv hrun hl]

theorem lookup_optAttempt_alone (inv : TreeInv c entryPage m.heap G root height)
    (hfree : Latched t [] m) (hturns : 0 < turns) :
    Solo c t (PassEnd c t turns m.heap (.lookup_opt k)) (lookup_optAttempt c entryPage k turns)
      m := by
  obtain ⟨turns, rfl⟩ := Nat.exists_eq_add_of_le' hturns
  rw [lookup_optAttempt]
  refine (toLeaf_alone inv hfree).bind ?_
  rintro (r | ⟨gp, cur⟩) m' hd
  · cases hd.1
  · obtain ⟨rfl, hgp, -, l, hl, hrun⟩ := leaf_of_levelsEnd inv hd
    show Solo _ _ _ (lookupLeaf k gp cur (turns + 1)) m'
    rw [lookupLeaf]
    refine solo_fixOptimistic (hfree.holder_none List.not_mem_nil) ?_
    refine solo_retry rfl (solo_retry hgp (solo_retry rfl ?_))
    refine solo_peek rfl (by simp [hl]) (solo_retry hgp (solo_retry rfl ⟨hfree, ?_⟩))
    rw [pass, lookup_opt, lookup_eq_payload inv hrun hl]

theorem lookupAndUpdateAttempt_alone (inv : TreeInv c entryPage m.heap G root height)
    (hfree : Latched t [] m) (callback : V → V) :
    Solo c t (PassEnd c t turns m.heap (.lookupAndUpdate k callback))
      (lookupAndUpdateAttempt c entryPage k callback) m := by
  rw [lookupAndUpdateAttempt]
  refine (toLeaf_alone inv hfree).bind ?_
  rintro (r | ⟨gp, cur⟩) m' hd
  · cases hd.1
  · obtain ⟨rfl, hgp, hne, l, hl, hrun⟩ := leaf_of_levelsEnd inv hd
    refine solo_fixExclusive hfree List.not_mem_nil (solo_read (by simp [hl]) ?_)
    simp only [Pages.latch_heap, hl, Page.isLeaf, Bool.not_true, Bool.false_eq_true, if_false]
    refine solo_retry (by simpa [hne] using hgp) ?_
    have hseq : lookupAndUpdate entryPage m'.heap k callback = (l.update k callback).elim
        (.error .ensure) fun l' => .ok (m'.heap.set cur (.leaf l')) := by
      simp only [lookupAndUpdate, locate, inv.entry_page, hrun, hl, Leaf.update]
      cases hf : l.find k with
      | none => rfl
      | some pos =>
        obtain ⟨v, hv, -⟩ := Leaf.find_some_payload hf
        simp [hv]
    cases hupdate : l.update k callback with
    | some l' =>
      have hheld := hfree.latch.write (m := m'.latch cur (some t)) (m'.heap.set cur (.leaf l'))
      refine solo_instr (.update cur k callback) true
        ((m'.latch cur (some t)).write (m'.heap.set cur (.leaf l')))
        (fun a m' => by simp [soloInstr, execInstr, Granted, hl, hupdate]) ?_
      refine solo_unlatchExclusive hheld ⟨hheld.unlatch List.not_mem_nil, ?_⟩
      simp [pass, hseq, hupdate]
    | none =>
      refine solo_instr (.update cur k callback) false (m'.latch cur (some t))
        (fun a m' => by simp [soloInstr, execInstr, Granted, hl, hupdate]) ?_
      refine solo_unlatchExclusive hfree.latch ⟨hfree.latch.unlatch List.not_mem_nil, ?_⟩
      simp [pass, hseq, hupdate]

theorem removeAtPage_alone {latched : List PID} (hheld : Latched t latched m)
    (hnodup : latched.Nodup) {l : Leaf K V} (hl : m.heap.page cur = .leaf l) :
    Solo c t (fun r m' => Latched t [] m' ∧ m'.heap = m.heap.set cur (.leaf (l.remove k).1) ∧
      r = some (.removed (l.remove k).2)) (removeAtPage k latched cur) m := by
  have hunlatch : ∀ (latched : List PID) (m : Pages T K V), Latched t latched m → latched.Nodup →
      Solo c t (fun _ m' => Latched t [] m' ∧ m'.heap = m.heap)
        (latched.forM (unlatchExclusive (K := K) (V := V))) m := by
    intro latched
    induction latched with
    | nil => exact fun m hheld _ => ⟨hheld, rfl⟩
    | cons pid latched ih =>
      intro m hheld hnodup
      obtain ⟨hpid, hnodup⟩ := List.nodup_cons.mp hnodup
      show Solo c t _ (unlatchExclusive pid >>= fun _ => latched.forM unlatchExclusive) m
      exact solo_unlatchExclusive hheld (ih _ (hheld.unlatch hpid) hnodup)
  rw [removeAtPage]
  refine solo_instr (.remove cur k) (l.remove k).2
    (m.write (m.heap.set cur (.leaf (l.remove k).1)))
    (fun a m' => by simp [soloInstr, execInstr, Granted, hl]) ?_
  refine (hunlatch latched _ (hheld.write _) hnodup).bind fun _ m' hm' => ?_
  exact ⟨hm'.1, hm'.2, rfl⟩

theorem mergeAtPage_alone {parent : PID} {l : Leaf K V} {r : Region K}
    (inv : TreeInv c entryPage m.heap G root height) (hheld : Latched t [cur, parent] m)
    (hne : parent ≠ entryPage)
    (hleads : Leads parent (m.heap.page parent) (G parent) cur r) (hk : r.Holds k)
    (hl : m.heap.page cur = .leaf l) :
    Solo c t (fun res m' => Latched t [] m' ∧ ∃ removed,
        mergeAndRemove c m.heap k parent cur l = .ok (m'.heap, removed) ∧
        res = some (.removed removed)) (mergeAtPage c k parent cur) m := by
  obtain ⟨hG, -⟩ := inv.leads hleads
  have hcur := (inv.leads_ne hleads).symm
  rcases hleads with ⟨rfl, -⟩ | ⟨s, n, i, hs, hn, hlevel, hslot⟩
  · exact absurd rfl hne
  have hpos : n.lowerBound k = i := by
    obtain ⟨level, -, hok⟩ := inv.innerOK hs hn
    refine hok.shape.lowerBound_eq_of_inRange (hok.slot_le hslot) ?_
    rw [hslot.lower_eq, hslot.upper_eq]
    exact hk
  rw [mergeAtPage]
  refine solo_read (by simp [hn]) ?_
  simp only [hn, hpos]
  by_cases hroom : 2 ≤ n.count ∧ i + 1 < n.count
  · obtain ⟨right, q, l', hright, hl', sib⟩ := inv.siblings hG hl hs hn hslot hroom.2
    obtain ⟨hne₁, hne₂, hne₃⟩ := sib.ne inv
    have hnew : right ∉ [cur, parent] := by simp [hne₁.symm, hne₃.symm]
    rw [if_pos hroom, hright, Option.getD_some]
    refine solo_fixExclusive hheld hnew (solo_read (by simp [hl]) (solo_read (by simp [hl']) ?_))
    simp only [Pages.latch_heap, hl, hl', Page.leafCount]
    by_cases hfit : c.leaf ≤ l.count + l'.count
    · rw [if_pos hfit]
      refine (removeAtPage_alone hheld.latch (by simp [hcur, hne₁.symm, hne₃.symm]) hl).mono ?_
      rintro res m' ⟨hfree, hheap, hres⟩
      refine ⟨hfree, _, ?_, hres⟩
      simp [mergeAndRemove, hn, hpos, hroom, hright, hl', hfit, hheap]
    · rw [if_neg hfit]
      refine solo_instr (.merge parent cur right i) ()
        ((m.latch right (some t)).write (mergeInto m.heap parent cur right n i l l'))
        (fun a m' => by simp [soloInstr, execInstr, Granted, hn, hl, hl']) ?_
      have hmerged : (mergeInto m.heap parent cur right n i l l').page cur =
          .leaf (l.mergeRight l') := by simp [mergeInto, hne₁, hcur]
      have hwritten := hheld.latch.write (m := m.latch right (some t))
        (mergeInto m.heap parent cur right n i l l')
      refine solo_unlatchExclusive hwritten ?_
      refine (removeAtPage_alone (hwritten.unlatch hnew) (by simp [hcur]) hmerged).mono ?_
      rintro res m' ⟨hfree, hheap, hres⟩
      refine ⟨hfree, _, ?_, hres⟩
      simp [mergeAndRemove, hn, hpos, hroom, hright, hl', hfit, hheap]
  · rw [if_neg hroom]
    refine (removeAtPage_alone hheld (by simp [hcur]) hl).mono ?_
    rintro res m' ⟨hfree, hheap, hres⟩
    refine ⟨hfree, _, ?_, hres⟩
    simp only [mergeAndRemove, hn, hpos, if_neg hroom, hheap]

theorem removeAttempt_alone (inv : TreeInv c entryPage m.heap G root height)
    (hfree : Latched t [] m) (hturns : height < turns) :
    Solo c t (PassEnd c t turns m.heap (.remove k)) (removeAttempt c entryPage k turns) m := by
  rw [removeAttempt]
  refine (toLeafNode_alone inv hfree (Search.sound_lowerBound k) ⟨by simp, by simp⟩ hturns).bind ?_
  rintro d m' ⟨rfl, gp, gn, l, rfl, hgp, hgn, ⟨r, hleads, hk⟩, hl, hrun⟩
  have hne := inv.leads_ne hleads
  refine solo_peek hgn (by simp [hl]) ?_
  simp only [hl, Page.isUnderflow]
  by_cases hunder : l.isUnderflow c = true ∧ gp.pid ≠ entryPage
  · rw [if_pos hunder]
    refine solo_upgrade hfree List.not_mem_nil hgp ?_
    refine solo_upgrade hfree.latch (by simpa using hne.symm)
      (by simpa [hne.symm] using hgn) ?_
    refine (mergeAtPage_alone (m := (m'.latch gp.pid (some t)).latch gn.pid (some t)) inv
      hfree.latch.latch hunder.2 hleads hk hl).mono ?_
    rintro res m'' ⟨hfree', b, hb, hres⟩
    refine ⟨hfree', ?_⟩
    simp only [Pages.latch_heap] at hb
    simp [pass, remove, inv.entry_page, hrun, hl, hunder, hb, hres, Except.map]
  · rw [if_neg hunder]
    refine solo_upgrade hfree List.not_mem_nil hgn (solo_retry (by simpa [hne] using hgp) ?_)
    refine (removeAtPage_alone hfree.latch (by simp) hl).mono ?_
    rintro res m'' ⟨hfree', hheap, hres⟩
    refine ⟨hfree', ?_⟩
    simp only [Pages.latch_heap] at hheap
    simp only [pass, remove, inv.entry_page, hrun, hl, if_neg hunder, hheap, hres, Except.map]

theorem scan_Attempt_alone (inv : TreeInv c entryPage m.heap G root height)
    (hfree : Latched t [] m) (hturns : height < turns) {dir : Direction} {func : Callback K V}
    {isFirstTraversal : Bool} {seen : List (K × V)} :
    Solo c t (PassEnd c t turns m.heap (.scan_ dir func isFirstTraversal k seen))
      (scan_Attempt entryPage dir func isFirstTraversal k seen turns) m := by
  rw [scan_Attempt]
  have hroot : Reaches dir isFirstTraversal k none none := by
    cases dir <;> cases isFirstTraversal <;> exact ⟨by simp, by simp⟩
  refine (toLeafNode_alone inv hfree (nextNode_sound dir isFirstTraversal k) hroot hturns).bind ?_
  rintro d m' ⟨rfl, gp, gn, l, rfl, hgp, hgn, -, hl, hrun⟩
  simp only [upgradeShared_bind]
  refine solo_tryLatchShared hfree (solo_retry hgn (solo_retry hgp ?_))
  refine solo_read (m := m'.share gn.pid {t}) (by simp [hl]) (solo_unlatchShared hfree ⟨hfree, ?_⟩)
  simp [pass, scanStep, inv.entry_page, hrun, hl, Except.map]

end Calls

/-- Every attempt, alone, is a pass. -/
theorem attempt_alone {m : Pages T K V} {G : Layout K} {root : PID} {height turns : Nat}
    (inv : TreeInv c entryPage m.heap G root height) (hfree : Latched t [] m)
    (hturns : height < turns) (op : Call K V) :
    Solo c t (PassEnd c t turns m.heap op) (attempt c entryPage op turns) m := by
  cases op with
  | insert k v => exact insertAttempt_alone inv hfree v
  | remove k => exact removeAttempt_alone inv hfree hturns
  | lookup k => exact lookupAttempt_alone inv hfree
  | lookup_opt k => exact lookup_optAttempt_alone inv hfree (Nat.zero_lt_of_lt hturns)
  | lookupAndUpdate k callback => exact lookupAndUpdateAttempt_alone inv hfree callback
  | scan_ dir func isFirstTraversal k seen => exact scan_Attempt_alone inv hfree hturns

/-! ## Whole calls -/

/-- The sequential function, pass by pass; its loops go round as often as the tree is high. -/
def passes (c : Capacity) (op : Call K V) : Nat → Heap K V → Except Fault (Heap K V × Reply K V)
  | 0, _ => .error .fuel
  | n + 1, h =>
      match pass c ((h.page entryPage).height + 1) h op with
      | .ok (h', some a) => .ok (h', a)
      | .ok (h', none) => passes c op n h'
      | .error e => .error e

theorem passes_insert (k : K) (v : V) (n : Nat) (h : Heap K V) :
    passes c (.insert k v) n h = (insert c entryPage k v n h).map fun h' => (h', .done) := by
  induction n generalizing h with
  | zero => rfl
  | succ n ih =>
    simp only [passes, pass, insert]
    rcases insertPass c entryPage h k v with e | ⟨h', done⟩
    · rfl
    · cases done
      · exact ih h'
      · rfl

theorem PassResult.tree {h : Heap K V} {G : Layout K} {root : PID} {height : Nat} {k : K} {v : V}
    {res : Heap K V × Bool} (hres : PassResult c entryPage h G root height k v res)
    (hsplit : res.2 = false) :
    ∃ G' root' height', TreeInv c entryPage res.1 G' root' height' := by
  cases hres with
  | inserted => cases hsplit
  | split _ _ _ _ _ _ _ G' root' height' _ _ _ hinv => exact ⟨G', root', height', hinv⟩

/-- Only `insert` starts again. -/
theorem pass_insert {turns : Nat} {h h' : Heap K V} {op : Call K V}
    (hpass : pass c turns h op = .ok (h', none)) :
    ∃ k v, op = .insert k v ∧ insertPass c entryPage h k v = .ok (h', false) := by
  cases op with
  | insert k v =>
    refine ⟨k, v, rfl, ?_⟩
    simp only [pass] at hpass
    rcases hrun : insertPass c entryPage h k v with e | ⟨h'', done⟩
    · simp [hrun, Except.map] at hpass
    · cases done <;> simp_all [Except.map]
  | remove k =>
    simp only [pass] at hpass
    rcases hrun : remove c entryPage h k turns with e | ⟨h'', removed⟩ <;>
      simp [hrun, Except.map] at hpass
  | scan_ dir func isFirstTraversal k seen =>
    simp only [pass] at hpass
    rcases hrun : scanStep entryPage dir func turns h isFirstTraversal k seen with
      e | ⟨seen', res⟩ <;> simp [hrun, Except.map] at hpass
  | lookupAndUpdate k callback =>
    simp only [pass] at hpass
    split at hpass <;> simp at hpass
  | _ => simp [pass] at hpass

/-- A pass does not depend on how often its loops could have gone round. -/
theorem TreeInv.pass_turns {h : Heap K V} {G : Layout K} {root : PID} {height turns turns' : Nat}
    (inv : TreeInv c entryPage h G root height) (op : Call K V) (hturns : height < turns)
    (hturns' : height < turns') : pass c turns h op = pass c turns' h op := by
  cases op with
  | remove k =>
    obtain ⟨h', -, b, hrun, -⟩ := inv.remove k
    simp only [pass, hrun turns hturns, hrun turns' hturns']
  | scan_ dir func isFirstTraversal k seen =>
    obtain ⟨-, -, r, l, -, -, -, -, hrun⟩ := inv.scanStep dir func isFirstTraversal k
    simp only [pass, hrun turns hturns, hrun turns' hturns']
  | insert | lookup | lookup_opt | lookupAndUpdate => rfl

/-- The sequential function comes to an end. -/
theorem TreeInv.passes {h : Heap K V} {G : Layout K} {root : PID} {height : Nat}
    (inv : TreeInv c entryPage h G root height) (op : Call K V) :
    ∃ n h' a, BTree.passes c op n h = .ok (h', a) := by
  -- an attempt of anybody shows how the first pass ends
  let m : Pages Unit K V := ⟨h, fun _ => 0, fun _ => none, fun _ => ∅⟩
  have hfree : Latched () [] m := ⟨fun _ => by simp [m], fun _ => rfl⟩
  obtain ⟨r, m', ⟨-, hpass⟩, -⟩ := (attempt_alone (m := m) inv hfree
    (show height < (h.page entryPage).height + 1 by simp [inv.entry_page, Page.height]) op).runs
  cases r with
  | some a => exact ⟨1, m'.heap, a, by simp only [BTree.passes]; rw [hpass]⟩
  | none =>
    obtain ⟨k, v, rfl, -⟩ := pass_insert hpass
    obtain ⟨h', -, -, -, bound, hrun, -⟩ := inv.insert k v
    exact ⟨bound, h', .done, by rw [passes_insert, hrun bound le_rfl]; rfl⟩

/-- The loops of an attempt may go round as often as the tree is high. -/
def Enough (m : Pages T K V) (turns : Nat) : Prop := (m.heap.page entryPage).height < turns

/-- Whatever its instructions answer when the worker is alone, the call returns `a` and leaves the
pages `h` behind, none of them latched. -/
def ReturnsAlone (c : Capacity) (t : T) (op : Call K V) (a : Reply K V) (h : Heap K V)
    (m : Pages T K V) : Prop :=
  ∀ turns, Enough m turns →
    Prog.Returns (soloInstr c t) ((workers T c).attempt op) Enough
      (fun a' m' => a' = a ∧ m'.heap = h ∧ ∀ pid, m'.holder pid = none ∧ m'.sharers pid = ∅)
      ((workers T c).attempt op turns) m

/-- Alone, the worker does what the sequential function does. -/
theorem returns_of_passes {m : Pages T K V} {G : Layout K} {root : PID} {height n : Nat}
    {op : Call K V} {h' : Heap K V} {a : Reply K V}
    (inv : TreeInv c entryPage m.heap G root height) (hfree : Latched t [] m)
    (hpasses : passes c op n m.heap = .ok (h', a)) : ReturnsAlone c t op a h' m := by
  let ready (n : Nat) (m : Pages T K V) : Prop := Latched t [] m ∧
    (∃ G root height, TreeInv c entryPage m.heap G root height) ∧
      passes c op n m.heap = .ok (h', a)
  have hready : ready n m := ⟨hfree, ⟨G, root, height, inv⟩, hpasses⟩
  refine fun turns hturns => returns_of_attempts ready ?_ hready hturns
  rintro n m ⟨hfree, ⟨G, root, height, inv⟩, hpasses⟩ turns hturns
  have hheight : height < turns := by simpa [Enough, inv.entry_page, Page.height] using hturns
  refine (attempt_alone inv hfree hheight op).mono ?_
  rintro r m' ⟨hfree', hpass⟩
  have hturns' : height < (m.heap.page entryPage).height + 1 := by
    simp [inv.entry_page, Page.height]
  rw [inv.pass_turns op hheight hturns'] at hpass
  cases n with
  | zero => cases hpasses
  | succ n =>
    simp only [passes, hpass] at hpasses
    cases r with
    | some a' =>
      obtain ⟨rfl, rfl⟩ : m'.heap = h' ∧ a' = a := by simpa using hpasses
      exact ⟨rfl, rfl, latched_nil.mp hfree'⟩
    | none =>
      obtain ⟨k, v, rfl, hrun⟩ := pass_insert hpass
      obtain ⟨res, hrun', hres⟩ := inv.insertPass k v
      obtain rfl := Except.ok.inj (hrun.symm.trans hrun')
      exact ⟨n, Nat.lt_succ_self n, hfree', hres.tree rfl, hpasses⟩

/-- One of the runs in which the worker returns. -/
theorem ReturnsAlone.moves {s : WorkerStates T K V} {op : Call K V} {h' : Heap K V}
    {a : Reply K V} (h : ReturnsAlone c t op a h' s.memory) (hidle : s.call t = .idle) :
    ∃ m, m.heap = h' ∧ (∀ pid, m.holder pid = none ∧ m.sharers pid = ∅) ∧
      (workers T c).system.Moves s [.call t op, .return t a] { s with memory := m } := by
  have hsub : ∀ (i : Instr K V) m a m', soloInstr c t i m a m' → (workers T c).exec t i m a m' :=
    fun _ _ _ _ h => h.1
  obtain ⟨a', m, ⟨rfl, hheap, hfree⟩, hmoves⟩ :=
    moves_of_returns hsub (fun m => ⟨_, Nat.lt_succ_self (m.heap.page entryPage).height⟩) h hidle
  exact ⟨m, hheap, hfree, hmoves⟩

/-- From every state without latches a worker that is left alone returns from any call, however
its instructions turn out, with the answer and the pages of the sequential function. -/
theorem alone_worker_returns {ls : List (Event T (Call K V) (Reply K V))} {s : WorkerStates T K V}
    (ht : (workers T c).system.Trace ls s)
    (hfree : ∀ pid, s.memory.holder pid = none ∧ s.memory.sharers pid = ∅)
    (hidle : s.call t = .idle) (op : Call K V) :
    ∃ n h' a m, passes c op n s.memory.heap = .ok (h', a) ∧ m.heap = h' ∧
      (∀ pid, m.holder pid = none ∧ m.sharers pid = ∅) ∧
      (workers T c).system.Moves s [.call t op, .return t a] { s with memory := m } ∧
      ReturnsAlone c t op a h' s.memory := by
  obtain ⟨g, hinv, -⟩ := reached_invariant ht
  obtain ⟨root, height, inv⟩ := hinv.tree
  obtain ⟨n, h', a, hpasses⟩ := inv.passes op
  have hreturns : ReturnsAlone c t op a h' s.memory :=
    returns_of_passes inv (latched_nil.mpr hfree) hpasses
  obtain ⟨m, hheap, hfree', hmoves⟩ := hreturns.moves hidle
  exact ⟨n, h', a, m, hpasses, hheap, hfree', hmoves, hreturns⟩

/-- A new tree, with all workers idle. -/
def newTree : WorkerStates T K V :=
  ⟨⟨create, fun _ => 0b100, fun _ => none, fun _ => ∅⟩, fun _ => .idle⟩

theorem newTree_trace : (workers T c).system.Trace [] (newTree : WorkerStates T K V) :=
  .init ⟨⟨rfl, fun _ => rfl, fun _ => rfl⟩, fun _ => rfl⟩

/-- Leaves of two entries. -/
def tinyNodes : Capacity := ⟨2, 5, le_rfl, le_rfl⟩

theorem new_tree_worker_returns : ∃ n h' a m,
    passes tinyNodes (.insert 10 1 : Call Nat Nat) n create = .ok (h', a) ∧ m.heap = h' ∧
      (∀ pid, m.holder pid = none ∧ m.sharers pid = ∅) ∧
      (workers Unit tinyNodes).system.Moves newTree [.call () (.insert 10 1), .return () a]
        { newTree with memory := m } ∧
      ReturnsAlone tinyNodes () (.insert 10 1) a h' newTree.memory :=
  alone_worker_returns newTree_trace (fun _ => ⟨rfl, rfl⟩) rfl (.insert 10 1)

/-! ## Sessions -/

/-- One call after the other, with the answers. -/
def session (c : Capacity) (n : Nat) :
    List (Call K V) → Heap K V → Except Fault (Heap K V × List (Reply K V))
  | [], h => .ok (h, [])
  | op :: ops, h =>
      match passes c op n h with
      | .ok (h', a) => (session c n ops h').map fun (h'', as) => (h'', a :: as)
      | .error e => .error e

/-- What is seen of a session. -/
def exchange (t : T) : List (Call K V) → List (Reply K V) → List (Event T (Call K V) (Reply K V))
  | op :: ops, a :: as => .call t op :: .return t a :: exchange t ops as
  | _, _ => []

/-- A worker that has the pages for itself gets the answers of the sequential functions. -/
theorem session_moves {ls : List (Event T (Call K V) (Reply K V))} {s : WorkerStates T K V}
    (ht : (workers T c).system.Trace ls s)
    (hfree : ∀ pid, s.memory.holder pid = none ∧ s.memory.sharers pid = ∅)
    (hidle : s.call t = .idle) (n : Nat) (ops : List (Call K V)) {h' : Heap K V}
    {as : List (Reply K V)} (hrun : session c n ops s.memory.heap = .ok (h', as)) :
    ∃ m, m.heap = h' ∧ (∀ pid, m.holder pid = none ∧ m.sharers pid = ∅) ∧
      (workers T c).system.Trace (ls ++ exchange t ops as) { s with memory := m } := by
  induction ops generalizing s ls as with
  | nil =>
    obtain ⟨rfl, rfl⟩ : s.memory.heap = h' ∧ [] = as := by simpa [session] using hrun
    exact ⟨s.memory, rfl, hfree, by simpa [exchange] using ht⟩
  | cons op ops ih =>
    obtain ⟨g, hinv, -⟩ := reached_invariant ht
    obtain ⟨root, height, inv⟩ := hinv.tree
    simp only [session] at hrun
    rcases hpasses : passes c op n s.memory.heap with e | ⟨h₁, a⟩
    · simp [hpasses] at hrun
    · simp only [hpasses] at hrun
      rcases hsession : session c n ops h₁ with e | ⟨h₂, as'⟩
      · simp [hsession, Except.map] at hrun
      · obtain ⟨rfl, rfl⟩ : h₂ = h' ∧ a :: as' = as := by simpa [hsession, Except.map] using hrun
        obtain ⟨m, rfl, hfree₁, hmoves⟩ :=
          (returns_of_passes inv (latched_nil.mpr hfree) hpasses).moves hidle
        obtain ⟨m', hheap, hfree₂, htrace⟩ :=
          ih (s := { s with memory := m }) (ht.moves hmoves) hfree₁ hidle hsession
        exact ⟨m', hheap, hfree₂, by simpa [exchange] using htrace⟩

end ScaleStore.BTree
