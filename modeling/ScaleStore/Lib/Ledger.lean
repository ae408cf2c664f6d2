/-
# Possession by epochs

An abstract account of who possesses a page, for any set of nodes and workers.
A directory hands out possession epoch by epoch.  The copies that are in use all
belong to one epoch; every later epoch has one worker under way that still has
to collect the members of the epoch before its own.  Within an epoch that is not
exclusive, further workers may join.

The directory runs ahead of the copies: it is changed when a request is granted,
long before the copies it supersedes are gone.  What keeps the two together is
that each worker under way knows whom it displaces.
-/

import Mathlib.Data.Set.Insert
import Mathlib.Logic.Function.Basic
import Mathlib.Tactic.Common

namespace ScaleStore

universe u v

/-- A copy in use. -/
structure Copy where
  epoch : Nat
  excl : Bool

/-- A granted acquisition that has not finished. -/
structure Acquisition (Node : Type u) where
  node : Node
  epoch : Nat
  /-- The worker that opened its epoch; otherwise it joined one. -/
  first : Bool
  excl : Bool
  /-- Members of the epoch before that still have to give up their copies. -/
  targets : Set Node
  /-- The page has been transferred. -/
  ready : Bool
  /-- An upgrade: the node's own copy of the epoch before stays in use. -/
  keeps : Bool

structure Ledger (Node : Type u) (W : Type v) where
  /-- The latest epoch handed out. -/
  epoch : Nat
  dir : Set Node
  dirExcl : Bool
  live : Node → Option Copy
  acq : W → Option (Acquisition Node)
  /-- Nodes that gave up joining an epoch and have not been told yet that it is over. -/
  left : Node → Option Nat

namespace Ledger

variable {Node : Type u} {W : Type v} {a b : Ledger Node W} {l : Nat}

/-- Some acquisition is under way at `n`. -/
def Busy (a : Ledger Node W) (n : Node) : Prop := ∃ w q, a.acq w = some q ∧ q.node = n

/-- The ledger is in order, with the copies in use at epoch `l`. -/
structure Ok (a : Ledger Node W) (l : Nat) : Prop where
  le_epoch : l ≤ a.epoch
  live_epoch : ∀ n c, a.live n = some c → c.epoch = l
  first_of : ∀ e, l < e → e ≤ a.epoch → ∃ w q, a.acq w = some q ∧ q.first = true ∧ q.epoch = e
  first_range : ∀ w q, a.acq w = some q → q.first = true → l < q.epoch ∧ q.epoch ≤ a.epoch
  first_unique : ∀ w w' q q', a.acq w = some q → a.acq w' = some q' → q.first = true →
    q'.first = true → q.epoch = q'.epoch → w = w'
  join_range : ∀ w q, a.acq w = some q → q.first = false →
    l ≤ q.epoch ∧ q.epoch ≤ a.epoch ∧ q.excl = false ∧ q.keeps = false
  join_ready : ∀ w q, a.acq w = some q → q.first = false → q.ready = true → q.epoch = l
  live_dir : ∀ n c, a.live n = some c → l = a.epoch → n ∈ a.dir ∧ c.excl = a.dirExcl
  live_target : ∀ n c w q, a.live n = some c → a.acq w = some q → q.first = true →
    q.epoch = l + 1 → n ∈ q.targets ∨ (q.keeps = true ∧ q.node = n)
  acq_dir : ∀ w q, a.acq w = some q → q.epoch = a.epoch → q.node ∈ a.dir ∧ q.excl = a.dirExcl
  acq_target : ∀ w w' q q', a.acq w = some q → a.acq w' = some q' → q'.first = true →
    q'.epoch = q.epoch + 1 → q.node ∈ q'.targets
  excl_alone : ∀ n m c d, a.live n = some c → c.excl = true → a.live m = some d → m = n
  excl_no_join : ∀ n c w q, a.live n = some c → c.excl = true → a.acq w = some q →
    q.first = false → q.epoch ≠ l
  first_excl_no_join : ∀ w w' q q', a.acq w = some q → q.first = true → q.excl = true →
    a.acq w' = some q' → q'.first = false → q'.epoch ≠ q.epoch
  node_unique : ∀ w w' q q', a.acq w = some q → a.acq w' = some q' → q.node = q'.node → w = w'
  live_acq : ∀ n c w q, a.live n = some c → a.acq w = some q → q.node = n → q.keeps = true

/-- A ledger without copies and without acquisitions. -/
theorem Ok.empty (hl : ∀ n, a.live n = none) (ha : ∀ w, a.acq w = none) : Ok a a.epoch := by
  constructor <;> simp [hl, ha]

/-- An acquisition that has nobody left to wait for is the next in turn. -/
theorem Ok.first_epoch {w : W} {q : Acquisition Node} (h : Ok a l) (hq : a.acq w = some q)
    (hf : q.first = true) (ht : ∀ n ∈ q.targets, ¬ a.Busy n) : q.epoch = l + 1 := by
  obtain ⟨hlt, hle⟩ := h.first_range w q hq hf
  by_contra hne
  -- otherwise the epoch before has an acquisition under way, whose node is still a target
  obtain ⟨w', q', hq', -, he'⟩ := h.first_of (q.epoch - 1) (by omega) (by omega)
  have hmem : q'.node ∈ q.targets := h.acq_target w' w q' q hq' hq hf (by omega)
  exact ht _ hmem ⟨w', q', hq', rfl⟩

/-! ## Opening and joining epochs -/

/-- From `a` to `b`, the acquisition of `w` becomes `q` and nobody else's changes. -/
structure Sets (a b : Ledger Node W) (w : W) (q : Option (Acquisition Node)) : Prop where
  self : b.acq w = q
  other : ∀ w', w' ≠ w → b.acq w' = a.acq w'

theorem Sets.cases {w w' : W} {q : Option (Acquisition Node)} {q' : Acquisition Node}
    (h : Sets a b w q) (hw : b.acq w' = some q') :
    (w' = w ∧ q = some q') ∨ (w' ≠ w ∧ a.acq w' = some q') := by
  by_cases hww : w' = w
  · subst hww
    exact .inl ⟨rfl, h.self.symm.trans hw⟩
  · exact .inr ⟨hww, (h.other w' hww).symm.trans hw⟩

/-- The worker `w` opens a new epoch with the acquisition `q`. -/
structure Grants (a b : Ledger Node W) (w : W) (q : Acquisition Node) : Prop where
  sets : Sets a b w (some q)
  idle : a.acq w = none
  epoch : b.epoch = a.epoch + 1
  first : q.first = true
  at_epoch : q.epoch = a.epoch + 1
  dir : b.dir = {q.node}
  excl : b.dirExcl = q.excl
  free : ¬ a.Busy q.node
  live : ∀ n c, b.live n = some c → a.live n = some c
  keeps : ∀ c, b.live q.node = some c → q.keeps = true
  targets : ∀ n ∈ a.dir, n ∈ q.targets ∨ (q.keeps = true ∧ q.node = n) ∨
    (b.live n = none ∧ ¬ a.Busy n)

theorem Ok.grant {w : W} {q : Acquisition Node} (h : Ok a l) (g : Grants a b w q) : Ok b l := by
  have split := @Sets.cases _ _ a b w
  have hmem : q.node ∈ b.dir := by simp [g.dir]
  obtain ⟨sets, hnone, hepoch, hfirst, hq, -, hexcl, hfree, hlive, hkeeps, htargets⟩ := g
  obtain ⟨h1, h2, h3, h4, h5, h6, h7, h8, h9, h10, h11, h12, h13, h14, h15, h16⟩ := h
  constructor
  case first_of =>
    intro e he he'
    by_cases hee : e = a.epoch + 1
    · exact ⟨w, q, sets.self, hfirst, by omega⟩
    · obtain ⟨w', q', hq', hf', he''⟩ := h3 e he (by omega)
      have hne : w' ≠ w := by
        rintro rfl
        simp [hnone] at hq'
      exact ⟨w', q', (sets.other w' hne).trans hq', hf', he''⟩
  all_goals grind [Busy]

/-- The worker `w` joins the latest epoch with the acquisition `q`. -/
structure Joins (a b : Ledger Node W) (w : W) (q : Acquisition Node) : Prop where
  sets : Sets a b w (some q)
  idle : a.acq w = none
  epoch : b.epoch = a.epoch
  first : q.first = false
  at_epoch : q.epoch = a.epoch
  excl : q.excl = false
  keeps : q.keeps = false
  dir : b.dir = insert q.node a.dir
  dirExcl : a.dirExcl = false ∧ b.dirExcl = false
  free : ¬ a.Busy q.node
  live : ∀ n, b.live n = a.live n
  no_live : a.live q.node = none
  ready : q.ready = true → ∃ n c, a.live n = some c ∧ c.epoch = a.epoch

theorem Ok.join {w : W} {q : Acquisition Node} (h : Ok a l) (g : Joins a b w q) : Ok b l := by
  have split := @Sets.cases _ _ a b w
  have hmem : ∀ n, n ∈ b.dir ↔ n = q.node ∨ n ∈ a.dir := by simp [g.dir]
  obtain ⟨sets, hidle, hepoch, hfirst, hq, hexcl, hkeeps, -, hde, hfree, hlive, hno, hready⟩ := g
  obtain ⟨h1, h2, h3, h4, h5, h6, h7, h8, h9, h10, h11, h12, h13, h14, h15, h16⟩ := h
  constructor
  case first_of =>
    intro e he he'
    obtain ⟨w', q', hq', hf', he''⟩ := h3 e he (by omega)
    have hne : w' ≠ w := by
      rintro rfl
      simp [hidle] at hq'
    exact ⟨w', q', (sets.other w' hne).trans hq', hf', he''⟩
  all_goals grind [Busy]

/-- The only copy, an exclusive one at `n`, is relabelled as the first of a new shared epoch. -/
structure Bumps (a b : Ledger Node W) (n : Node) : Prop where
  acq : ∀ w, b.acq w = a.acq w
  had : a.live n = some ⟨a.epoch, true⟩
  epoch : b.epoch = a.epoch + 1
  dir : b.dir = {n}
  excl : b.dirExcl = false
  live : b.live n = some ⟨a.epoch + 1, false⟩
  other : ∀ m, m ≠ n → b.live m = a.live m

/-- While an exclusive copy of the latest epoch is in use, no acquisition is under way. -/
theorem Ok.quiet {n : Node} (h : Ok a l) (hn : a.live n = some ⟨a.epoch, true⟩) :
    l = a.epoch ∧ ∀ w, a.acq w = none := by
  have hl : a.epoch = l := h.live_epoch n _ hn
  refine ⟨hl.symm, fun w => ?_⟩
  rcases hw : a.acq w with _ | q
  · rfl
  · exfalso
    cases hf : q.first with
    | true =>
      obtain ⟨h1, h2⟩ := h.first_range w q hw hf
      omega
    | false =>
      obtain ⟨h1, h2, -⟩ := h.join_range w q hw hf
      exact h.excl_no_join n _ w q hn rfl hw hf (by omega)

theorem Ok.bump {n : Node} (h : Ok a l) (g : Bumps a b n) : Ok b (l + 1) := by
  obtain ⟨hl, hacq⟩ := h.quiet g.had
  have hmem : n ∈ b.dir := by simp [g.dir]
  have hepoch := g.epoch
  have hexcl := g.excl
  have hsame : ∀ w, b.acq w = none := fun w => (g.acq w).trans (hacq w)
  -- the exclusive copy was alone
  have halone : ∀ m c, b.live m = some c → m = n ∧ c = ⟨a.epoch + 1, false⟩ := by
    intro m c hc
    by_cases hm : m = n
    · subst hm
      exact ⟨rfl, Option.some.inj (hc.symm.trans g.live)⟩
    · rw [g.other m hm] at hc
      exact absurd (h.excl_alone n m _ c g.had rfl hc) hm
  constructor
  all_goals grind

/-! ## Collecting the epoch before -/

/-- The directory stays as it is. -/
structure SameDir (a b : Ledger Node W) : Prop where
  epoch : b.epoch = a.epoch
  dir : b.dir = a.dir
  excl : b.dirExcl = a.dirExcl

/-- The worker `w` collects the member `c`; with `r` it now has the page. -/
structure Takes (a b : Ledger Node W) (w : W) (q : Acquisition Node) (c : Node) (r : Bool) :
    Prop where
  had : a.acq w = some q
  sets : Sets a b w (some { q with targets := q.targets \ {c}, ready := r })
  dir : SameDir a b
  first : q.first = true
  free : ¬ a.Busy c
  live : b.live c = none
  other : ∀ n, n ≠ c → b.live n = a.live n

theorem Ok.take {w : W} {q : Acquisition Node} {c : Node} {r : Bool} (h : Ok a l)
    (g : Takes a b w q c r) : Ok b l := by
  have split := @Sets.cases _ _ a b w
  have hmem : ∀ n, n ∈ q.targets \ {c} ↔ n ∈ q.targets ∧ n ≠ c := by simp
  obtain ⟨hhad, sets, ⟨he, hd, hx⟩, hfirst, hfree, hlive, hother⟩ := g
  obtain ⟨h1, h2, h3, h4, h5, h6, h7, h8, h9, h10, h11, h12, h13, h14, h15, h16⟩ := h
  constructor
  case first_of =>
    intro e hl hle
    obtain ⟨w', q', hq', hf', he''⟩ := h3 e hl (by omega)
    by_cases hw : w' = w
    · subst hw
      have hqq : q = q' := Option.some.inj (hhad.symm.trans hq')
      subst hqq
      exact ⟨w', _, sets.self, hfirst, he''⟩
    · exact ⟨w', q', (sets.other w' hw).trans hq', hf', he''⟩
  all_goals grind [Busy]

/-- A shared first acquisition that has collected everybody turns into the first member of its
epoch. -/
structure Settles (a b : Ledger Node W) (w : W) (q : Acquisition Node) : Prop where
  had : a.acq w = some q
  sets : Sets a b w (some { q with first := false, ready := true })
  dir : SameDir a b
  first : q.first = true
  excl : q.excl = false
  keeps : q.keeps = false
  targets : q.targets = ∅
  live : ∀ n, b.live n = a.live n

theorem Ok.settle {w : W} {q : Acquisition Node} (h : Ok a l) (g : Settles a b w q) :
    Ok b (l + 1) := by
  have hepoch : q.epoch = l + 1 := h.first_epoch g.had g.first (by simp [g.targets])
  have hno : ∀ n, n ∉ q.targets := by simp [g.targets]
  have split := @Sets.cases _ _ a b w
  obtain ⟨hhad, sets, ⟨he, hd, hx⟩, hfirst, hexcl, hkeeps, -, hlive⟩ := g
  obtain ⟨h1, h2, h3, h4, h5, h6, h7, h8, h9, h10, h11, h12, h13, h14, h15, h16⟩ := h
  constructor
  case first_of =>
    intro e hl hle
    obtain ⟨w', q', hq', hf', he''⟩ := h3 e (by omega) (by omega)
    have hne : w' ≠ w := by
      rintro rfl
      have hqq : q = q' := Option.some.inj (hhad.symm.trans hq')
      subst hqq
      omega
    exact ⟨w', q', (sets.other w' hne).trans hq', hf', he''⟩
  all_goals grind

/-- A joining worker has received a copy of its epoch. -/
structure CopiesIn (a b : Ledger Node W) (w : W) (q : Acquisition Node) : Prop where
  had : a.acq w = some q
  sets : Sets a b w (some { q with ready := true })
  dir : SameDir a b
  first : q.first = false
  live : ∀ n, b.live n = a.live n
  source : ∃ n c, a.live n = some c ∧ c.epoch = q.epoch

theorem Ok.copyIn {w : W} {q : Acquisition Node} (h : Ok a l) (g : CopiesIn a b w q) :
    Ok b l := by
  have split := @Sets.cases _ _ a b w
  obtain ⟨hhad, sets, ⟨he, hd, hx⟩, hfirst, hlive, hsource⟩ := g
  obtain ⟨h1, h2, h3, h4, h5, h6, h7, h8, h9, h10, h11, h12, h13, h14, h15, h16⟩ := h
  constructor
  case first_of =>
    intro e hl hle
    obtain ⟨w', q', hq', hf', he''⟩ := h3 e hl (by omega)
    have hne : w' ≠ w := by
      rintro rfl
      grind
    exact ⟨w', q', (sets.other w' hne).trans hq', hf', he''⟩
  all_goals grind

/-! ## Finishing -/

/-- An exclusive first acquisition that has collected everybody becomes the copy in use. -/
structure Finishes (a b : Ledger Node W) (w : W) (q : Acquisition Node) : Prop where
  had : a.acq w = some q
  sets : Sets a b w none
  dir : SameDir a b
  first : q.first = true
  excl : q.excl = true
  targets : q.targets = ∅
  live : b.live q.node = some ⟨q.epoch, true⟩
  other : ∀ n, n ≠ q.node → b.live n = a.live n

theorem Ok.finish {w : W} {q : Acquisition Node} (h : Ok a l) (g : Finishes a b w q) :
    Ok b (l + 1) := by
  have hepoch : q.epoch = l + 1 := h.first_epoch g.had g.first (by simp [g.targets])
  have hno : ∀ n, n ∉ q.targets := by simp [g.targets]
  have split := @Sets.cases _ _ a b w
  obtain ⟨hhad, sets, ⟨he, hd, hx⟩, hfirst, hexcl, -, hlive, hother⟩ := g
  obtain ⟨h1, h2, h3, h4, h5, h6, h7, h8, h9, h10, h11, h12, h13, h14, h15, h16⟩ := h
  -- nobody else is left in the epoch before
  have halone : ∀ n c, b.live n = some c → n = q.node ∧ c = ⟨q.epoch, true⟩ := by
    intro n c hc
    by_cases hn : n = q.node
    · subst hn
      exact ⟨rfl, Option.some.inj (hc.symm.trans hlive)⟩
    · rw [hother n hn] at hc
      rcases h9 n c w q hc hhad hfirst hepoch with hmem | ⟨-, he⟩
      · exact absurd hmem (hno n)
      · exact absurd he.symm hn
  constructor
  case first_of =>
    intro e hl hle
    obtain ⟨w', q', hq', hf', he''⟩ := h3 e (by omega) (by omega)
    have hne : w' ≠ w := by
      rintro rfl
      grind
    exact ⟨w', q', (sets.other w' hne).trans hq', hf', he''⟩
  all_goals grind

/-- A joining worker that has its copy becomes a member of the epoch in use. -/
structure JoinFinishes (a b : Ledger Node W) (w : W) (q : Acquisition Node) : Prop where
  had : a.acq w = some q
  sets : Sets a b w none
  dir : SameDir a b
  first : q.first = false
  ready : q.ready = true
  live : b.live q.node = some ⟨q.epoch, false⟩
  other : ∀ n, n ≠ q.node → b.live n = a.live n

theorem Ok.joinFinish {w : W} {q : Acquisition Node} (h : Ok a l) (g : JoinFinishes a b w q) :
    Ok b l := by
  have split := @Sets.cases _ _ a b w
  obtain ⟨hhad, sets, ⟨he, hd, hx⟩, hfirst, hready, hlive, hother⟩ := g
  obtain ⟨h1, h2, h3, h4, h5, h6, h7, h8, h9, h10, h11, h12, h13, h14, h15, h16⟩ := h
  have hepoch := h7 w q hhad hfirst hready
  constructor
  case first_of =>
    intro e hl hle
    obtain ⟨w', q', hq', hf', he''⟩ := h3 e hl (by omega)
    have hne : w' ≠ w := by
      rintro rfl
      grind
    exact ⟨w', q', (sets.other w' hne).trans hq', hf', he''⟩
  all_goals grind

/-- A joining worker gives up. -/
structure Abandons (a b : Ledger Node W) (w : W) (q : Acquisition Node) : Prop where
  had : a.acq w = some q
  sets : Sets a b w none
  epoch : b.epoch = a.epoch
  excl : b.dirExcl = a.dirExcl
  sub : ∀ n ∈ b.dir, n ∈ a.dir
  dir : ∀ n ∈ a.dir, n = q.node ∨ n ∈ b.dir
  first : q.first = false
  live : ∀ n, b.live n = a.live n

theorem Ok.abandon {w : W} {q : Acquisition Node} (h : Ok a l) (g : Abandons a b w q) :
    Ok b l := by
  have split := @Sets.cases _ _ a b w
  obtain ⟨hhad, sets, he, hx, hsub, hd, hfirst, hlive⟩ := g
  obtain ⟨h1, h2, h3, h4, h5, h6, h7, h8, h9, h10, h11, h12, h13, h14, h15, h16⟩ := h
  constructor
  case first_of =>
    intro e hl hle
    obtain ⟨w', q', hq', hf', he''⟩ := h3 e hl (by omega)
    have hne : w' ≠ w := by
      rintro rfl
      grind
    exact ⟨w', q', (sets.other w' hne).trans hq', hf', he''⟩
  all_goals grind

/-! ## Copies that disappear or change hands -/

/-- Copies disappear, and their nodes may leave the directory. -/
structure Drops (a b : Ledger Node W) : Prop where
  acq : ∀ w, b.acq w = a.acq w
  epoch : b.epoch = a.epoch
  excl : b.dirExcl = a.dirExcl
  live : ∀ n c, b.live n = some c → a.live n = some c
  dir : ∀ n ∈ a.dir, n ∈ b.dir ∨ (b.live n = none ∧ ¬ a.Busy n)

theorem Ok.drop (h : Ok a l) (g : Drops a b) : Ok b l := by
  obtain ⟨hacq, he, hx, hlive, hd⟩ := g
  obtain ⟨h1, h2, h3, h4, h5, h6, h7, h8, h9, h10, h11, h12, h13, h14, h15, h16⟩ := h
  constructor
  all_goals grind [Busy]

/-- The copy of `n` goes over to `m`, within the latest epoch. -/
structure HandsOver (a b : Ledger Node W) (n m : Node) : Prop where
  acq : ∀ w, b.acq w = a.acq w
  had : ∃ c, a.live n = some c ∧ c.epoch = a.epoch
  ne : n ≠ m
  free : ¬ a.Busy n ∧ ¬ a.Busy m
  epoch : b.epoch = a.epoch
  excl : b.dirExcl = a.dirExcl
  gone : b.live n = none
  live : b.live m = some ⟨a.epoch, a.dirExcl⟩
  other : ∀ k, k ≠ n → k ≠ m → b.live k = a.live k
  dir : b.dir = insert m (a.dir \ {n})

theorem Ok.handOver {n m : Node} (h : Ok a l) (g : HandsOver a b n m) : Ok b l := by
  have hmem : ∀ k, k ∈ b.dir ↔ k = m ∨ (k ∈ a.dir ∧ k ≠ n) := by simp [g.dir]
  obtain ⟨hacq, ⟨c, hc, hce⟩, hne, ⟨hfree, hfree'⟩, he, hx, hgone, hlive, hother, -⟩ := g
  obtain ⟨h1, h2, h3, h4, h5, h6, h7, h8, h9, h10, h11, h12, h13, h14, h15, h16⟩ := h
  have hl : l = a.epoch := by rw [← hce, h2 n c hc]
  have hcx := (h8 n c hc hl).2
  constructor
  all_goals grind [Busy]

/-- A ledger whose only copy is at `n`. -/
theorem Ok.single {n : Node} (hl : b.live n = some ⟨b.epoch, b.dirExcl⟩)
    (ho : ∀ m, m ≠ n → b.live m = none) (ha : ∀ w, b.acq w = none) (hd : n ∈ b.dir) :
    Ok b b.epoch := by
  constructor
  all_goals grind

end Ledger

end ScaleStore
