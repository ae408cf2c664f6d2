/-
# Who waits for whom

The descents hold nothing while they wait.  Latches are waited for upwards by an insert
that splits its leaf, downwards below a page that is held, and sideways by a removal
that merges; only the last can close a circle.  The first two go together since whoever
goes down has found the page unlatched, and nobody has latched that page since who
would now wait for the one above.

A removal that merges holds its leaf and the page above and waits for the right
sibling, whatever the sibling's holder is doing.  An insert that holds this sibling,
because it is full, waits for the page above: then both wait forever, and with them
everybody who gets to these pages.
-/

import ScaleStore.BTree.Linearizability
import ScaleStore.Protocol.CircularWait

namespace ScaleStore.BTree

variable {T K V : Type} [LinearOrder K] {c : Capacity} {s : WorkerStates T K V}

/-! ## Waiting -/

/-- Worker `u` has latched what the instruction needs. -/
def Blocks (m : Pages T K V) (u : T) : Instr K V → Prop
  | .fixOptimistic pid | .fixShared pid => m.holder pid = some u
  | .fixExclusive pid => m.holder pid = some u ∨ u ∈ m.sharers pid
  | _ => False

def WaitsFor (s : WorkerStates T K V) (t u : T) : Prop :=
  ∃ i, s.Next t i ∧ Blocks s.memory u i

/-- Worker `t` waits for an exclusive latch that `u` has exclusively. -/
def Spins (s : WorkerStates T K V) (t u : T) : Prop :=
  ∃ pid, s.Next t (.fixExclusive pid) ∧ s.memory.holder pid = some u

omit [LinearOrder K] in
theorem Spins.waitsFor {t u : T} (h : Spins s t u) : WaitsFor s t u := by
  obtain ⟨pid, hnext, hholder⟩ := h
  exact ⟨_, hnext, Or.inl hholder⟩

omit [LinearOrder K] in
/-- Who blocks others has latched something. -/
theorem Blocks.held {m : Pages T K V} {u : T} {i : Instr K V} (h : Blocks m u i) :
    (∃ pid, m.holder pid = some u) ∨ ∃ pid, u ∈ m.sharers pid := by
  cases i with
  | fixOptimistic pid => exact .inl ⟨pid, h⟩
  | fixShared pid => exact .inl ⟨pid, h⟩
  | fixExclusive pid => exact h.imp (fun h => ⟨pid, h⟩) fun h => ⟨pid, h⟩
  | _ => exact h.elim

omit [LinearOrder K] in
theorem Blocks.mono {m m' : Pages T K V} {u : T} {i : Instr K V} (h : Blocks m u i)
    (hkeeps : ∀ pid, (m.holder pid = some u → m'.holder pid = some u) ∧
      (u ∈ m.sharers pid → u ∈ m'.sharers pid)) : Blocks m' u i := by
  cases i with
  | fixOptimistic pid => exact (hkeeps pid).1 h
  | fixShared pid => exact (hkeeps pid).1 h
  | fixExclusive pid => exact h.imp (hkeeps pid).1 (hkeeps pid).2
  | _ => exact h.elim

/-- A removal holds an underfull leaf and the page above, and waits for the leaf's right sibling. -/
def Merging (c : Capacity) (s : WorkerStates T K V) (t : T) (right : PID) : Prop :=
  s.Next t (.fixExclusive right) ∧ ∃ parent cur pos n l,
    (∀ q, s.memory.holder q = some t ↔ q = parent ∨ q = cur) ∧
    s.memory.heap.page parent = .inner n ∧ s.memory.heap.page cur = .leaf l ∧
    l.isUnderflow c = true ∧ n.children[pos]? = some cur ∧ n.children[pos + 1]? = some right

/-- An insert holds a leaf and waits for a page above the leaves. -/
def Splitting (s : WorkerStates T K V) (u : T) (leaf : PID) : Prop :=
  (∀ q, s.memory.holder q = some u ↔ q = leaf) ∧ (∃ l, s.memory.heap.page leaf = .leaf l) ∧
    ∃ above, s.Next u (.fixExclusive above) ∧
      (above = entryPage ∨ ∃ n, s.memory.heap.page above = .inner n)

omit [LinearOrder K] in
theorem WorkerStates.Next.unique {t : T} {i i' : Instr K V} (h : s.Next t i) (h' : s.Next t i') :
    i = i' := by
  obtain ⟨op, next, h⟩ := h
  obtain ⟨op', next', h'⟩ := h'
  rw [h] at h'
  cases h'
  rfl

section Order

variable {m : Pages T K V} {g : Ghost T K V} {t u : T} {pid : PID} {i : Instr K V}

/-- The level of a page; the entry page is above the root. -/
def Ghost.levelOf (g : Ghost T K V) (height : Nat) (pid : PID) : Nat :=
  match g.layout pid with
  | some r => r.level
  | none => height + 1

/-- A worker that holds one page is ranked by its level, and above all others if that is a leaf. -/
def Ranked (m : Pages T K V) (g : Ghost T K V) (height : Nat) (t : T) (rank : Nat) : Prop :=
  ∃ p, (∀ q, m.holder q = some t ↔ q = p) ∧
    rank = if g.levelOf height p = 0 then height + 2 else g.levelOf height p

/-- A removal that merges waits for the right sibling of its leaf. -/
def Aside (c : Capacity) (m : Pages T K V) (g : Ghost T K V) (t : T) (right : PID) : Prop :=
  ∃ parent cur pos n l l' p r q, (∀ q, m.holder q = some t ↔ q = parent ∨ q = cur) ∧
    Siblings m.heap g.layout parent cur right n pos l l' p r q ∧ l.isUnderflow c = true ∧
    2 ≤ n.count ∧ pos + 1 < n.count

section Levels

variable {root : PID} {height : Nat} {parent : PID} {r : Region K}

theorem TreeInv.levelOf_le (inv : TreeInv c entryPage m.heap g.layout root height) (pid : PID) :
    g.levelOf height pid ≤ height + 1 := by
  unfold Ghost.levelOf
  split
  · rename_i r hr
    have := inv.level_le pid r hr
    omega
  · exact le_rfl

theorem TreeInv.levelOf_lt (inv : TreeInv c entryPage m.heap g.layout root height)
    (hleads : Leads parent (m.heap.page parent) (g.layout parent) pid r) :
    g.levelOf height pid < g.levelOf height parent := by
  obtain ⟨hr, hparent⟩ := inv.leads hleads
  rcases hparent with ⟨rfl, rfl⟩ | ⟨s, n, i, hs, hlevel, -⟩
  · have := inv.level_le _ _ hr
    simp only [Ghost.levelOf, hr, inv.entry_free]
    omega
  · simp only [Ghost.levelOf, hr, hs]
    omega

theorem TreeInv.levelOf_pos (inv : TreeInv c entryPage m.heap g.layout root height)
    (hleads : Leads parent (m.heap.page parent) (g.layout parent) pid r) :
    0 < g.levelOf height parent :=
  Nat.zero_lt_of_lt (inv.levelOf_lt hleads)

end Levels

variable [Inhabited K]

/-- A worker that waits shares nothing, and holds something only in a fix. -/
theorem Safe.waiting (hsafe : Safe c t i m g) (hblock : Blocks m u i) :
    (∀ q, t ∉ m.sharers q) ∧
      ((∀ q, m.holder q ≠ some t) ∨ ∃ pid, i = .fixExclusive pid ∧ Way c t pid m g) := by
  cases i with
  | fixOptimistic | fixShared => exact ⟨hsafe.2, .inl hsafe.1⟩
  | fixExclusive pid => exact ⟨hsafe.2.1, .inr ⟨pid, rfl, hsafe.2.2⟩⟩
  | _ => exact hblock.elim

/-- Who blocks a waiting worker, and waits as well, holds the page and waits for another one. -/
theorem Safe.blocked {i' : Instr K V} (hblock : Blocks m u i) (hsafe : Safe c u i' m g)
    {v : T} (hblock' : Blocks m v i') :
    ∃ pid pid', i' = .fixExclusive pid' ∧ (i = .fixOptimistic pid ∨ i = .fixShared pid ∨
      i = .fixExclusive pid) ∧ m.holder pid = some u ∧ Way c u pid' m g := by
  obtain ⟨hshares, hway⟩ := hsafe.waiting hblock'
  have hheld : ∃ pid, (i = .fixOptimistic pid ∨ i = .fixShared pid ∨ i = .fixExclusive pid) ∧
      m.holder pid = some u := by
    cases i with
    | fixOptimistic pid => exact ⟨pid, .inl rfl, hblock⟩
    | fixShared pid => exact ⟨pid, .inr (.inl rfl), hblock⟩
    | fixExclusive pid => exact ⟨pid, .inr (.inr rfl), hblock.resolve_right (hshares pid)⟩
    | _ => exact hblock.elim
  obtain ⟨pid, hi, hholder⟩ := hheld
  rcases hway with hfree | ⟨pid', rfl, hway⟩
  · exact absurd hholder (hfree pid)
  · exact ⟨pid, pid', rfl, hi, hholder, hway⟩

omit [Inhabited K] in
/-- Apart from merges, waiting goes down in rank. -/
theorem Way.rank_lt {root : PID} {height : Nat} {pid' : PID}
    (inv : TreeInv c entryPage m.heap g.layout root height) (hholder : m.holder pid = some u)
    (hu : Way c u pid' m g) (huaside : ¬ Aside c m g u pid')
    (ht : ∀ q, m.holder q = some t → Way c t pid m g ∧ ¬ Aside c m g t pid) :
    ∃ rank, Ranked m g height u rank ∧ ∀ rank', Ranked m g height t rank' → rank < rank' := by
  cases hu with
  | free h => exact absurd hholder (h pid)
  | @up leaf r hheld hr hlevel hclaim =>
    obtain rfl := (hheld pid).mp hholder
    refine ⟨_, ⟨pid, hheld, rfl⟩, ?_⟩
    rintro rank' ⟨p, hp, -⟩
    -- nobody that holds something waits for a leaf
    obtain ⟨hway, hnot⟩ := ht p ((hp p).mpr rfl)
    cases hway with
    | free h => exact absurd ((hp p).mpr rfl) (h p)
    | up _ _ _ _ hpid =>
      rcases hpid with rfl | ⟨s, hs, hle⟩
      · exact absurd rfl (inv.ne_entry hr)
      · obtain rfl := Option.some.inj (hr.symm.trans hs)
        omega
    | down _ _ hclaim' => simp [hclaim] at hclaim'
    | side hheld' sib hunder htwo hpos =>
      exact absurd ⟨_, _, _, _, _, _, _, _, _, hheld', sib, hunder, htwo, hpos⟩ hnot
  | @down parent r hheld hleads =>
    obtain rfl := (hheld pid).mp hholder
    have hpos := inv.levelOf_pos hleads
    refine ⟨g.levelOf height pid, ⟨pid, hheld, by rw [if_neg (by omega)]⟩, ?_⟩
    rintro rank' ⟨p, hp, rfl⟩
    obtain ⟨hway, hnot⟩ := ht p ((hp p).mpr rfl)
    cases hway with
    | free h => exact absurd ((hp p).mpr rfl) (h p)
    | @up leaf s hheld' hs hlevel =>
      obtain rfl := (hheld' p).mp ((hp p).mpr rfl)
      have hleaf : g.levelOf height p = 0 := by simp [Ghost.levelOf, hs, hlevel]
      have := inv.levelOf_le pid
      rw [if_pos hleaf]
      omega
    | @down above s hheld' hleads' =>
      obtain rfl := (hheld' p).mp ((hp p).mpr rfl)
      have := inv.levelOf_lt hleads'
      rw [if_neg (by omega)]
      exact this
    | side hheld' sib hunder htwo hpos =>
      exact absurd ⟨_, _, _, _, _, _, _, _, _, hheld', sib, hunder, htwo, hpos⟩ hnot
  | side hheld sib hunder htwo hpos =>
    exact absurd ⟨_, _, _, _, _, _, _, _, _, hheld, sib, hunder, htwo, hpos⟩ huaside

omit [Inhabited K] in
/-- Whoever holds the sibling waits for a page above it. -/
theorem splitting_of_aside {right : PID} {root : PID} {height : Nat} (haside : Aside c m g t right)
    (inv : TreeInv c entryPage m.heap g.layout root height) (ht : m.holder right ≠ some t)
    (hu : m.holder right = some u) (hway : Way c u pid m g) :
    (∀ q, m.holder q = some u ↔ q = right) ∧ (∃ l, m.heap.page right = .leaf l) ∧
      (pid = entryPage ∨ ∃ n, m.heap.page pid = .inner n) := by
  obtain ⟨parent, cur, pos, n, l, l', p, r, q, hheld, sib, -⟩ := haside
  cases hway with
  | free h => exact absurd hu (h right)
  | up hheld' hr hlevel hclaim hpid =>
    obtain rfl := (hheld' right).mp hu
    refine ⟨hheld', ⟨l', sib.right_page⟩, hpid.imp_right ?_⟩
    rintro ⟨s, hs, hle⟩
    obtain ⟨n', hn', -⟩ := inv.inner_page hs (show s.level = (s.level - 1) + 1 by omega)
    exact ⟨n', hn'⟩
  | down hheld' hleads =>
    -- nothing is below a leaf
    obtain rfl := (hheld' right).mp hu
    rcases hleads with ⟨-, height, hpage, -⟩ | ⟨s, n', i, -, hpage, -⟩ <;>
      simp [sib.right_page] at hpage
  | @side parent' cur' pos' n' k k' p' r' q' hheld' sib' =>
    rcases (hheld' right).mp hu with rfl | rfl
    · have hpage := sib'.parent_page
      simp [sib.right_page] at hpage
    · -- two removals under one page would both hold it
      obtain rfl := inv.parent_unique sib.parent_region sib'.parent_region sib.parent_page
        sib'.parent_page sib.right_slot sib'.cur_slot
      have htu := ((hheld parent).mpr (.inl rfl)).symm.trans ((hheld' parent).mpr (.inl rfl))
      exact absurd (htu ▸ hu) ht

end Order

/-! ## Knots -/

section Knots

variable [Inhabited K] {g : Ghost T K V}

/-- Somebody in a knot waits for a sibling, and who holds it waits for a page above. -/
theorem aside_of_knot (hinv : Consistent c s.memory g)
    (hsafe : ∀ t i, s.Next t i → Safe c t i s.memory g) {S : Set T} (hne : S.Nonempty)
    (hall : ∀ t ∈ S, ∃ u ∈ S, WaitsFor s t u) :
    ∃ t ∈ S, ∃ u ∈ S, ∃ right, s.Next t (.fixExclusive right) ∧ Aside c s.memory g t right ∧
      Splitting s u right := by
  obtain ⟨root, height, inv⟩ := hinv.tree
  have haside : ∃ t ∈ S, ∃ right, s.Next t (.fixExclusive right) ∧ Aside c s.memory g t right := by
    by_contra hnone
    push Not at hnone
    refine @no_knot T (fun t u => t ∈ S ∧ u ∈ S ∧ WaitsFor s t u) (Ranked s.memory g height) ?_
      S hne fun t ht => (hall t ht).imp fun u hu => ⟨hu.1, ht, hu.1, hu.2⟩
    rintro t u v ⟨ht, hu, i, hi, hblock⟩ ⟨-, -, i', hi', hblock'⟩
    obtain ⟨pid, pid', rfl, hpid, hholder, hway⟩ := (hsafe u i' hi').blocked hblock hblock'
    refine hway.rank_lt inv hholder (hnone u hu pid' hi') fun q hq => ?_
    obtain ⟨-, hfree | ⟨pid'', rfl, hway'⟩⟩ := (hsafe t i hi).waiting hblock
    · exact absurd hq (hfree q)
    · obtain rfl : pid'' = pid := by simpa using hpid
      exact ⟨hway', hnone t ht _ hi⟩
  obtain ⟨t, ht, right, hnext, aside⟩ := haside
  obtain ⟨u, hu, i, hi, hblock⟩ := hall t ht
  obtain rfl := hnext.unique hi
  obtain ⟨v, hv, i', hi', hblock'⟩ := hall u hu
  obtain ⟨pid, pid', rfl, hpid, hholder, hway⟩ := (hsafe u i' hi').blocked hblock hblock'
  obtain rfl : right = pid := by simpa using hpid
  obtain ⟨hheld, hleaf, habove⟩ := splitting_of_aside aside inv (hsafe t _ hnext).1 hholder hway
  exact ⟨t, ht, u, hu, right, hnext, aside, hheld, hleaf, pid', hi', habove⟩

theorem merging_of_knot (hinv : Consistent c s.memory g)
    (hsafe : ∀ t i, s.Next t i → Safe c t i s.memory g) {S : Set T} (hne : S.Nonempty)
    (hall : ∀ t ∈ S, ∃ u ∈ S, WaitsFor s t u) :
    ∃ t ∈ S, ∃ u ∈ S, ∃ right, Merging c s t right ∧ Splitting s u right := by
  obtain ⟨t, ht, u, hu, right, hnext, aside, hsplitting⟩ := aside_of_knot hinv hsafe hne hall
  obtain ⟨parent, cur, pos, n, l, l', p, r, q, hheld, sib, hunder, -⟩ := aside
  exact ⟨t, ht, u, hu, right, ⟨hnext, parent, cur, pos, n, l, hheld, sib.parent_page, sib.cur_page,
    hunder, sib.cur_slot.1, sib.right_slot.1⟩, hsplitting⟩

end Knots

/-! ## Going on -/

section Progress

variable [DecidableEq T] [Inhabited K]

/-- The page that a fix asks for. -/
def Instr.fixed : Instr K V → Option PID
  | .fixOptimistic pid | .fixShared pid | .fixExclusive pid => some pid
  | _ => none

/-- The worker is about to fix a page that is not there any more: a merge has reclaimed it.
Nothing is said about whether the buffer manager lets such a fix return. -/
def FixesReclaimed (s : WorkerStates T K V) (t : T) : Prop :=
  ∃ i pid, s.Next t i ∧ i.fixed = some pid ∧ s.memory.heap.page pid = .unmapped

/-- The worker is in a call, and can execute its next instruction, return, or start again. -/
inductive GoesOn (c : Capacity) (s : WorkerStates T K V) (t : T) : Prop
  | instr {i : Instr K V} {a : i.Answer} {m : Pages T K V} (h : s.Next t i)
      (hthere : ¬ FixesReclaimed s t) (hexec : execInstr c entryPage t i s.memory a m)
  | ret {op : Call K V} {r : Option (Reply K V)} (h : s.call t = .running op (.ret r))

omit [DecidableEq T] [Inhabited K] in
/-- The pages of the tree are there. -/
theorem TreeInv.mapped {h : Heap K V} {G : Layout K} {root pid : PID} {height : Nat} {r : Region K}
    (inv : TreeInv c entryPage h G root height) (hr : G pid = some r) : h.page pid ≠ .unmapped := by
  rcases hlevel : r.level with _ | level
  · obtain ⟨l, hl, -⟩ := inv.leaf_page hr hlevel
    simp [hl]
  · obtain ⟨n, hn, -⟩ := inv.inner_page hr hlevel
    simp [hn]

omit [DecidableEq T] in
/-- Whoever holds something only asks for pages of the tree. -/
theorem Safe.fixes_reclaimed {m : Pages T K V} {g : Ghost T K V} {t : T} {i : Instr K V} {pid : PID}
    {root : PID} {height : Nat} (inv : TreeInv c entryPage m.heap g.layout root height)
    (hsafe : Safe c t i m g) (hi : i.fixed = some pid) (hpage : m.heap.page pid = .unmapped) :
    (∀ q, m.holder q ≠ some t) ∧ ∀ q, t ∉ m.sharers q := by
  cases i with
  | fixOptimistic | fixShared => exact hsafe
  | fixExclusive pid' =>
    obtain rfl := Option.some.inj hi
    obtain ⟨-, hshares, hway⟩ := hsafe
    refine ⟨?_, hshares⟩
    cases hway with
    | free h => exact h
    | up hheld hr hlevel hclaim hpid =>
      rcases hpid with rfl | ⟨s, hs, -⟩
      · simp [inv.entry_page] at hpage
      · exact absurd hpage (inv.mapped hs)
    | down hheld hleads => exact absurd hpage (inv.mapped (inv.leads hleads).1)
    | side hheld sib => simp [sib.right_page] at hpage
  | _ => cases hi

/-- With nobody in the way an instruction can be executed. -/
theorem Safe.executes {m : Pages T K V} {g : Ghost T K V} {t : T} {i : Instr K V}
    (hsafe : Safe c t i m g) (hfree : ∀ u, ¬ Blocks m u i) :
    ∃ a m', execInstr c entryPage t i m a m' := by
  have hholder : ∀ pid, (∀ u, m.holder pid ≠ some u) → m.holder pid = none :=
    fun pid h => Option.eq_none_iff_forall_ne_some.mpr h
  cases i with
  | fixOptimistic pid => exact ⟨_, _, hholder pid hfree, rfl, rfl⟩
  | fixShared pid => exact ⟨(), _, hholder pid hfree, rfl⟩
  | fixExclusive pid =>
    simp only [Blocks, not_or] at hfree
    exact ⟨_, _, hholder pid fun u => (hfree u).1,
      Finset.eq_empty_iff_forall_notMem.mpr fun u => (hfree u).2, rfl, rfl⟩
  | tryLatchShared pid => exact ⟨false, m, .inr ⟨rfl, rfl⟩⟩
  | unlatchExclusive pid => exact ⟨(), _, hsafe, rfl⟩
  | unlatchShared pid => exact ⟨(), _, hsafe, rfl⟩
  | retry og => exact ⟨_, m, rfl, rfl⟩
  | peek og => exact ⟨_, m, fun _ _ => rfl, rfl⟩
  | read pid => exact ⟨_, m, fun _ => rfl, rfl⟩
  | find pid k => exact ⟨_, m, ⟨_, fun _ => rfl, rfl⟩, rfl⟩
  | insert pid k v =>
    obtain ⟨-, l, ⟨r, -, -, hl⟩, -⟩ := hsafe
    exact ⟨(), _, by simp only [execInstr, hl]; rfl⟩
  | remove pid k =>
    obtain ⟨-, l, r, -, -, hl⟩ := hsafe
    exact ⟨_, _, by simp only [execInstr, hl]; exact ⟨rfl, rfl⟩⟩
  | update pid k callback =>
    obtain ⟨-, l, r, -, -, hl⟩ := hsafe
    rcases hupdate : l.update k callback with _ | l'
    · exact ⟨_, _, by simp only [execInstr, hl, hupdate]; exact ⟨rfl, rfl⟩⟩
    · exact ⟨_, _, by simp only [execInstr, hl, hupdate]; exact ⟨rfl, rfl⟩⟩
  | split parent cur =>
    obtain ⟨-, -, h, hsplit⟩ := hsafe
    exact ⟨_, _, by simp only [execInstr, hsplit]; exact ⟨rfl, rfl⟩⟩
  | merge parent cur right pos =>
    obtain ⟨-, -, -, n, l, r, hn, hl, hr, -⟩ := hsafe
    exact ⟨(), _, by simp only [execInstr, hn, hl, hr]; rfl⟩

variable {ls ls' : List (Event T (Call K V) (Reply K V))} {s' : WorkerStates T K V}

/-! ## For ever -/

/-- A worker gives back its own latches only. -/
theorem execInstr_keeps {m m' : Pages T K V} {t u : T} {i : Instr K V} {a : i.Answer}
    (hexec : execInstr c entryPage u i m a m') (hne : t ≠ u) (pid : PID) :
    (m.holder pid = some t → m'.holder pid = some t) ∧
      (t ∈ m.sharers pid → t ∈ m'.sharers pid) := by
  -- no change to a latch
  have hsame : ∀ {m''}, m''.holder = m.holder → m''.sharers = m.sharers → m' = m'' →
      (m.holder pid = some t → m'.holder pid = some t) ∧
        (t ∈ m.sharers pid → t ∈ m'.sharers pid) := by
    rintro m'' hh hs rfl
    rw [hh, hs]
    exact ⟨id, id⟩
  have hlatch : ∀ {q o}, (m.holder q ≠ some t) → m' = m.latch q o →
      (m.holder pid = some t → m'.holder pid = some t) ∧
        (t ∈ m.sharers pid → t ∈ m'.sharers pid) := by
    rintro q o hq rfl
    refine ⟨fun h => ?_, id⟩
    have hpid : pid ≠ q := by rintro rfl; exact hq h
    simpa [Function.update_of_ne hpid] using h
  have hshare : ∀ {q S}, (t ∈ m.sharers q → t ∈ S) → m' = m.share q S →
      (m.holder pid = some t → m'.holder pid = some t) ∧
        (t ∈ m.sharers pid → t ∈ m'.sharers pid) := by
    rintro q S hq rfl
    refine ⟨id, fun h => ?_⟩
    by_cases hpid : pid = q
    · subst hpid
      simpa using hq h
    · simpa [Function.update_of_ne hpid] using h
  have hwrite : ∀ {h : Heap K V}, m' = m.write h →
      (m.holder pid = some t → m'.holder pid = some t) ∧
        (t ∈ m.sharers pid → t ∈ m'.sharers pid) :=
    fun h => hsame (m.write_holder _) (m.write_sharers _) h
  cases i with
  | fixOptimistic q => exact hsame rfl rfl hexec.2.2
  | fixExclusive q => exact hlatch (by simp [hexec.1]) hexec.2.2.2
  | fixShared q => exact hshare (Finset.mem_insert_of_mem) hexec.2
  | tryLatchShared q =>
    rcases hexec with ⟨-, -, h⟩ | ⟨-, h⟩
    · exact hshare Finset.mem_insert_of_mem h
    · exact hsame rfl rfl h
  | unlatchExclusive q => exact hlatch (by simp [hexec.1, hne.symm]) hexec.2
  | unlatchShared q => exact hshare (fun h => Finset.mem_erase.mpr ⟨hne, h⟩) hexec.2
  | retry | peek | read | find => exact hsame rfl rfl hexec.2
  | insert =>
    simp only [execInstr] at hexec
    split at hexec
    exacts [hwrite hexec, hsame rfl rfl hexec]
  | remove =>
    simp only [execInstr] at hexec
    split at hexec
    exacts [hwrite hexec.2, hsame rfl rfl hexec]
  | update =>
    simp only [execInstr] at hexec
    split at hexec
    · split at hexec
      exacts [hwrite hexec.2, hsame rfl rfl hexec.2]
    · exact hsame rfl rfl hexec
  | split =>
    simp only [execInstr] at hexec
    split at hexec
    exacts [hwrite hexec.2, hsame rfl rfl hexec.2]
  | merge =>
    simp only [execInstr] at hexec
    split at hexec
    exacts [hwrite hexec, hsame rfl rfl hexec]

/-- A blocked instruction is not executed. -/
theorem Blocks.not_executed {m m' : Pages T K V} {t u : T} {i : Instr K V} {a : i.Answer}
    (hblock : Blocks m u i) : ¬ execInstr c entryPage t i m a m' := by
  intro hexec
  cases i with
  | fixOptimistic pid => exact absurd (hblock.symm.trans hexec.1) (by simp)
  | fixShared pid => exact absurd (hblock.symm.trans hexec.1) (by simp)
  | fixExclusive pid =>
    obtain ⟨hholder, hsharers, -⟩ := hexec
    rcases hblock with h | h
    · exact absurd (h.symm.trans hholder) (by simp)
    · simp [hsharers] at h
  | _ => exact hblock.elim

/-- A step of anybody leaves a knot as it is. -/
theorem step_knot {S : Set T} {l : Option (Event T (Call K V) (Reply K V))}
    (hall : ∀ t ∈ S, ∃ u ∈ S, WaitsFor s t u) (hstep : (workers T c).Step s l s') :
    (∀ t ∈ S, s'.call t = s.call t) ∧ ∀ t ∈ S, ∃ u ∈ S, WaitsFor s' t u := by
  -- who steps is not in the knot
  have hcalls : ∀ {v : T} {call : CallState (Call K V) (Instr K V) Instr.Answer (Reply K V)} {m},
      v ∉ S → (∀ u ∈ S, ∀ i, Blocks s.memory u i → Blocks m u i) →
      s' = ⟨m, Function.update s.call v call⟩ →
      (∀ t ∈ S, s'.call t = s.call t) ∧ ∀ t ∈ S, ∃ u ∈ S, WaitsFor s' t u := by
    rintro v call m hv hblocks rfl
    have hcall : ∀ t ∈ S, Function.update s.call v call t = s.call t := fun t ht =>
      Function.update_of_ne (by rintro rfl; exact hv ht) ..
    refine ⟨hcall, fun t ht => ?_⟩
    obtain ⟨u, hu, i, ⟨op, next, hnext⟩, hblock⟩ := hall t ht
    exact ⟨u, hu, i, ⟨op, next, (hcall t ht).trans hnext⟩, hblocks u hu i hblock⟩
  have hnext : ∀ t ∈ S, ∃ op i next, s.call t = .running op (.instr i next) ∧
      ∃ u, Blocks s.memory u i := by
    intro t ht
    obtain ⟨u, -, i, ⟨op, next, h⟩, hblock⟩ := hall t ht
    exact ⟨op, i, next, h, u, hblock⟩
  cases hstep with
  | @call t op n h =>
    refine hcalls (v := t) (fun ht => ?_) (fun _ _ _ => id) rfl
    obtain ⟨op', i, next, h', -⟩ := hnext t ht
    simp [h] at h'
  | @instr t op i next a m h hexec =>
    have ht : t ∉ S := by
      intro ht
      obtain ⟨op', i', next', h', u, hblock⟩ := hnext t ht
      rw [h] at h'
      cases h'
      exact hblock.not_executed hexec
    refine hcalls ht (fun u hu i' hblock => hblock.mono fun pid => ?_) rfl
    exact execInstr_keeps hexec (by rintro rfl; exact ht hu) pid
  | @restart t op n h =>
    refine hcalls (v := t) (fun ht => ?_) (fun _ _ _ => id) rfl
    obtain ⟨op', i, next, h', -⟩ := hnext t ht
    simp [h] at h'
  | @«return» t op a h =>
    refine hcalls (v := t) (fun ht => ?_) (fun _ _ _ => id) rfl
    obtain ⟨op', i, next, h', -⟩ := hnext t ht
    simp [h] at h'
  | @environment m h =>
    obtain ⟨hholder, hsharers, -⟩ := Moved.holder h
    refine ⟨fun _ _ => rfl, fun t ht => ?_⟩
    obtain ⟨u, hu, i, hi, hblock⟩ := hall t ht
    exact ⟨u, hu, i, hi, hblock.mono fun pid => by rw [hholder, hsharers]; exact ⟨id, id⟩⟩

/-- Workers that wait for each other do so for ever. -/
theorem knots_last {S : Set T} (hall : ∀ t ∈ S, ∃ u ∈ S, WaitsFor s t u)
    (hm : (workers T c).system.Moves s ls s') :
    (∀ t ∈ S, s'.call t = s.call t) ∧ ∀ t ∈ S, ∃ u ∈ S, WaitsFor s' t u := by
  induction hm with
  | refl => exact ⟨fun _ _ => rfl, hall⟩
  | tail _ hstep ih =>
    obtain ⟨hcall, hwait⟩ := ih
    obtain ⟨hcall', hwait'⟩ := step_knot hwait hstep
    exact ⟨fun t ht => (hcall' t ht).trans (hcall t ht), hwait'⟩

end Progress

end ScaleStore.BTree
