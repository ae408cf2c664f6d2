/-
# Moves of a ledger

The transitions of a ledger as one relation.  A move that loses a copy behind
the directory's back is marked; every move keeps the ledger in order, and the
others also keep account of everything.
-/

import ScaleStore.Lib.LedgerExact

namespace ScaleStore.Ledger

universe u v

variable {Node : Type u} {W : Type v}

/-- Somebody has a copy or is acquiring one. -/
def InUse (a : Ledger Node W) : Prop :=
  (∃ w q, a.acq w = some q) ∨ ∃ n c, a.live n = some c

/-- `Moves k a b`: the ledger goes from `a` to `b`; with `k` nothing is lost. -/
inductive Moves (k : Bool) : Ledger Node W → Ledger Node W → Prop where
  | refl (a : Ledger Node W) : Moves k a a
  | trans {a b c : Ledger Node W} : Moves k a b → Moves k b c → InUse b → Moves k a c
  /-- The page is handed over at once only where a copy of the latest epoch is in use, and an
  exclusive copy is given up with it. -/
  | grant {a b : Ledger Node W} {w : W} {q : Acquisition Node} : Grants a b w q →
    (∀ n, b.left n = a.left n) → a.left q.node = none →
    (∀ n ∈ q.targets, n ∈ a.dir ∧ b.live n = a.live n) →
    (∀ n c, a.live n = some c → b.live n = some c ∨ c.epoch = a.epoch) →
    (q.ready = true → ∃ n c, a.live n = some c ∧ c.epoch = a.epoch ∧
      (c.excl = true → b.live n = none)) →
    (q.keeps = true → q.ready = true ∧ ∃ c, b.live q.node = some c) → Moves k a b
  | join {a b : Ledger Node W} {w : W} {q : Acquisition Node} : Joins a b w q →
    (∀ n, b.left n = a.left n) → a.left q.node = none → Moves k a b
  | bump {a b : Ledger Node W} {n : Node} : Bumps a b n → (∀ n, b.left n = a.left n) → Moves k a b
  /-- The page comes with the first copy that is collected, or from a node that gave up joining. -/
  | take {a b : Ledger Node W} {w : W} {q : Acquisition Node} {c : Node} {r : Bool} :
    Takes a b w q c r → c ∈ q.targets → b.left c = none → (∀ n, n ≠ c → b.left n = a.left n) →
    (q.ready = true → r = true) →
    (r = true → q.ready = true ∨ (∃ d, a.live c = some d) ∨ ∃ e, a.left c = some e) → Moves k a b
  | settle {a b : Ledger Node W} {w : W} {q : Acquisition Node} : Settles a b w q →
    (∀ n, b.left n = a.left n) → q.ready = true → Moves k a b
  | copyIn {a b : Ledger Node W} {w : W} {q : Acquisition Node} : CopiesIn a b w q →
    (∀ n, b.left n = a.left n) → Moves k a b
  | finish {a b : Ledger Node W} {w : W} {q : Acquisition Node} : Finishes a b w q →
    (∀ n, b.left n = a.left n) → q.ready = true → Moves k a b
  | joinFinish {a b : Ledger Node W} {w : W} {q : Acquisition Node} : JoinFinishes a b w q →
    (∀ n, b.left n = a.left n) → Moves k a b
  | abandon {a b : Ledger Node W} {w : W} {q : Acquisition Node} : Abandons a b w q →
    (∀ n, n ∈ b.dir ↔ n ∈ a.dir) → b.left q.node = some q.epoch →
    (∀ n, n ≠ q.node → b.left n = a.left n) →
    (∃ w' q', a.acq w' = some q' ∧ q'.first = true ∧ q'.ready = true ∧ q.node ∈ q'.targets) →
    Moves k a b
  | abandonLatest {a b : Ledger Node W} {w : W} {q : Acquisition Node} : Abandons a b w q →
    q.epoch = a.epoch → q.node ∉ b.dir → (∀ n, b.left n = a.left n) → Moves k a b
  | drop {a b : Ledger Node W} {n : Node} : Drops a b →
    (∃ c, a.live n = some c ∧ c.epoch = a.epoch) → (∀ m ∈ b.dir, m ∈ a.dir ∧ m ≠ n) →
    (∀ m, m ≠ n → b.live m = a.live m) → (∀ m, b.left m = a.left m) → Moves k a b
  | handOver {a b : Ledger Node W} {n m : Node} : HandsOver a b n m →
    (∀ n, b.left n = a.left n) → Moves k a b
  /-- The directory of a page nobody uses is set up. -/
  | appear {a b : Ledger Node W} {n : Node} : a.epoch = 0 → a.dir = ∅ →
    (∀ w, b.acq w = a.acq w) → b.live n = some ⟨b.epoch, b.dirExcl⟩ →
    (∀ m, m ≠ n → b.live m = a.live m) → b.dir = {n} → (∀ m, b.left m = a.left m) → Moves k a b
  /-- The last copy goes, and the directory with it. -/
  | vanish {a b : Ledger Node W} : (∃ n c, a.live n = some c ∧ c.epoch = a.epoch) →
    (∀ n ∈ a.dir, b.live n = none ∧ ¬ a.Busy n) → (∀ n c, b.live n = some c → a.live n = some c) →
    (∀ w, b.acq w = a.acq w) → b.dir = ∅ → (∀ n, b.left n = a.left n) → Moves k a b
  | lose {a b : Ledger Node W} : k = false → Drops a b → (∃ n c, a.live n = some c) → Moves k a b

variable {a b : Ledger Node W} {l : Nat}

theorem Moves.of_eq {k : Bool} (h : b = a) : Moves k a b := by
  rw [h]
  exact .refl a

/-- A ledger whose copies belong to the latest epoch has acquisitions only for members of its
directory. -/
theorem Ok.acq_of_latest {w : W} {q : Acquisition Node} (h : Ok a l) (hl : l = a.epoch)
    (hq : a.acq w = some q) : q.node ∈ a.dir := by
  cases hf : q.first with
  | true =>
    have hr := h.first_range w q hq hf
    omega
  | false =>
    have hr := h.join_range w q hq hf
    exact (h.acq_dir w q hq (by omega)).1

/-- A directory that names nobody at epoch zero goes with an empty ledger. -/
theorem Ok.of_blank (h : Ok a l) (he : a.epoch = 0) (hd : a.dir = ∅) :
    (∀ n, a.live n = none) ∧ ∀ w, a.acq w = none := by
  have hl : l = a.epoch := by
    have := h.le_epoch
    omega
  constructor
  · intro n
    rcases hn : a.live n with _ | c
    · rfl
    · have hm := (h.live_dir n c hn hl).1
      simp [hd] at hm
  · intro w
    rcases hw : a.acq w with _ | q
    · rfl
    · have hm := h.acq_of_latest hl hw
      simp [hd] at hm

/-- When the last copy goes, nothing is under way. -/
theorem Ok.of_vanish (h : Ok a l) (hlive : ∃ n c, a.live n = some c ∧ c.epoch = a.epoch)
    (hdir : ∀ n ∈ a.dir, b.live n = none ∧ ¬ a.Busy n)
    (hsub : ∀ n c, b.live n = some c → a.live n = some c) :
    (∀ n, b.live n = none) ∧ ∀ w, a.acq w = none := by
  obtain ⟨n₀, c₀, hn₀, he₀⟩ := hlive
  have hl : l = a.epoch := (h.live_epoch n₀ c₀ hn₀).symm.trans he₀
  constructor
  · intro n
    rcases hn : b.live n with _ | c
    · rfl
    · have hm := (h.live_dir n c (hsub n c hn) hl).1
      simp [(hdir n hm).1] at hn
  · intro w
    rcases hw : a.acq w with _ | q
    · rfl
    · exact absurd ⟨w, q, hw, rfl⟩ (hdir _ (h.acq_of_latest hl hw)).2

/-- Every move keeps the ledger in order. -/
theorem Moves.ok {k : Bool} (m : Moves k a b) : ∀ l, Ok a l → ∃ l', Ok b l' := by
  induction m with
  | refl => exact fun l h => ⟨l, h⟩
  | trans _ _ _ ih₁ ih₂ =>
    intro l h
    obtain ⟨l', h'⟩ := ih₁ l h
    exact ih₂ l' h'
  | grant g => exact fun l h => ⟨l, h.grant g⟩
  | join g => exact fun l h => ⟨l, h.join g⟩
  | bump g => exact fun l h => ⟨l + 1, h.bump g⟩
  | take g => exact fun l h => ⟨l, h.take g⟩
  | settle g => exact fun l h => ⟨l + 1, h.settle g⟩
  | copyIn g => exact fun l h => ⟨l, h.copyIn g⟩
  | finish g => exact fun l h => ⟨l + 1, h.finish g⟩
  | joinFinish g => exact fun l h => ⟨l, h.joinFinish g⟩
  | abandon g => exact fun l h => ⟨l, h.abandon g⟩
  | abandonLatest g => exact fun l h => ⟨l, h.abandon g⟩
  | drop g => exact fun l h => ⟨l, h.drop g⟩
  | handOver g => exact fun l h => ⟨l, h.handOver g⟩
  | appear he hd hacq hlive hother hdir _ =>
    intro l h
    obtain ⟨h1, h2⟩ := h.of_blank he hd
    exact ⟨_, Ok.single hlive (fun m hm => (hother m hm).trans (h1 m))
      (fun w => (hacq w).trans (h2 w)) (by simp [hdir])⟩
  | vanish hlive hdir hsub hacq _ _ =>
    intro l h
    obtain ⟨h1, h2⟩ := h.of_vanish hlive hdir hsub
    exact ⟨_, Ok.empty h1 fun w => (hacq w).trans (h2 w)⟩
  | lose _ g _ => exact fun l h => ⟨l, h.drop g⟩

/-- While nothing is under way, nobody has given up joining. -/
theorem Exact.left_none (x : Exact a l) (h : ∀ w, a.acq w = none) (n : Node) :
    a.left n = none := by
  rcases hn : a.left n with _ | e
  · rfl
  · obtain ⟨w, q, hq, -⟩ := x.left_target n e hn
    simp [h w] at hq

/-- A worker that takes the page from a node takes a copy in use. -/
theorem Exact.take_source {w : W} {q : Acquisition Node} {c : Node} (x : Exact a l) (h : Ok a l)
    (hq : a.acq w = some q) (hf : q.first = true) (hc : c ∈ q.targets) (hb : ¬ a.Busy c) :
    q.ready = true ∨ ∃ d, a.live c = some d := by
  rcases hd : a.live c with _ | d
  · obtain ⟨e, he, -⟩ := x.target_idle hq hf hc hb hd
    exact .inl (x.left_ready h he hq hf hc)
  · exact .inr ⟨d, rfl⟩

/-- A move that loses nothing keeps account of everything. -/
theorem Moves.exact {k : Bool} (m : Moves k a b) : k = true →
    ∀ l, Ok a l → Exact a l → ∃ l', Ok b l' ∧ Exact b l' := by
  intro hk
  induction m with
  | refl => exact fun l h x => ⟨l, h, x⟩
  | trans _ _ _ ih₁ ih₂ =>
    intro l h x
    obtain ⟨l', h', x'⟩ := ih₁ l h x
    exact ih₂ l' h' x'
  | grant g hleft hself hsub hdrop hready hkeeps =>
    intro l h x
    refine ⟨l, h.grant g, x.grant h g hleft hself hsub hdrop ?_ ?_ hkeeps⟩
    · intro hr
      obtain ⟨n, c, hn, he, -⟩ := hready hr
      exact ⟨n, c, hn, he⟩
    · -- the copies in use are of one kind; an exclusive one is alone and given up
      intro hr m d hm
      obtain ⟨n, c, hn, he, hx⟩ := hready hr
      have hl := (h.live_epoch n c hn).symm.trans he
      have hc := (h.live_dir n c hn hl).2
      have hd := (h.live_dir m d (g.live m d hm) hl).2
      cases hce : c.excl with
      | false => rw [hd, ← hc, hce]
      | true =>
        have hmn := h.excl_alone n m c d hn hce (g.live m d hm)
        rw [hmn, hx hce] at hm
        cases hm
  | join g hleft hself => exact fun l h x => ⟨l, h.join g, x.join g hleft hself⟩
  | bump g hleft => exact fun l h x => ⟨l + 1, h.bump g, x.bump h g hleft⟩
  | take g hc hleft hother hkeep _ =>
    exact fun l h x => ⟨l, h.take g, x.take h g hc hleft hother hkeep fun _ =>
      x.take_source h g.had g.first hc g.free⟩
  | settle g hleft _ => exact fun l h x => ⟨l + 1, h.settle g, x.settle h g hleft⟩
  | copyIn g hleft => exact fun l h x => ⟨l, h.copyIn g, x.copyIn g hleft⟩
  | finish g hleft _ => exact fun l h x => ⟨l + 1, h.finish g, x.finish h g hleft⟩
  | joinFinish g hleft => exact fun l h x => ⟨l, h.joinFinish g, x.joinFinish h g hleft⟩
  | abandon g hdir hleft hother hwanted =>
    exact fun l h x => ⟨l, h.abandon g, x.abandon h g hdir hleft hother hwanted⟩
  | abandonLatest g hepoch hdir hleft =>
    exact fun l h x => ⟨l, h.abandon g, x.abandonLatest h g hepoch hdir hleft⟩
  | drop g hn hdir hlive hleft => exact fun l h x => ⟨l, h.drop g, x.drop h g hn hdir hlive hleft⟩
  | handOver g hleft => exact fun l h x => ⟨l, h.handOver g, x.handOver h g hleft⟩
  | appear he hd hacq hlive hother hdir hleft =>
    intro l h x
    obtain ⟨h1, h2⟩ := h.of_blank he hd
    have hnone := fun w => (hacq w).trans (h2 w)
    refine ⟨_, Ok.single hlive (fun m hm => (hother m hm).trans (h1 m)) hnone (by simp [hdir]),
      Exact.quiet ?_ hnone fun m => (hleft m).trans (x.left_none h2 m)⟩
    intro m hm
    rw [hdir, Set.mem_singleton_iff] at hm
    exact hm ▸ ⟨_, hlive⟩
  | vanish hlive hdir hsub hacq hd hleft =>
    intro l h x
    obtain ⟨h1, h2⟩ := h.of_vanish hlive hdir hsub
    have hnone := fun w => (hacq w).trans (h2 w)
    exact ⟨_, Ok.empty h1 hnone, Exact.quiet (by simp [hd]) hnone fun n =>
      (hleft n).trans (x.left_none h2 n)⟩
  | lose hf _ _ => simp [hk] at hf

/-! ## The age of copies -/

/-- Whatever the node has of the page, or is about to get, belongs to the epoch `e` or later. -/
structure Since (a : Ledger Node W) (n : Node) (e : Nat) : Prop where
  epoch : e ≤ a.epoch
  live : ∀ c, a.live n = some c → e ≤ c.epoch
  acq : ∀ w q, a.acq w = some q → q.node = n → e ≤ q.epoch

/-- A member of the directory has nothing older, while possession is shared. -/
theorem Exact.since {n : Node} (x : Exact a l) (h : Ok a l) (hn : n ∈ a.dir)
    (hexcl : a.dirExcl = false)
    (hkeeps : ∀ w q, a.acq w = some q → q.keeps = true → q.excl = true) :
    Since a n a.epoch := by
  rcases x.dir_mem n hn with ⟨c, hc, hl⟩ | ⟨w, q, hq, hqn, hqe⟩
  · refine ⟨Nat.le_refl _, fun d hd => ?_, fun w q hq hqn => ?_⟩
    · rw [h.live_epoch n d hd, hl]
    · cases hf : q.first with
      | true =>
        have hr := h.first_range w q hq hf
        omega
      | false =>
        have hr := h.join_range w q hq hf
        omega
  · refine ⟨Nat.le_refl _, fun d hd => ?_, fun w' q' hq' hqn' => ?_⟩
    · -- the copy of an upgrade, which would be exclusive
      have hk := hkeeps w q hq (h.live_acq n d w q hd hq hqn)
      have hx := (h.acq_dir w q hq hqe).2
      simp [hk, hexcl] at hx
    · obtain rfl := h.node_unique w w' q q' hq hq' (hqn.trans hqn'.symm)
      rw [hq] at hq'
      obtain rfl := Option.some.inj hq'
      exact Nat.le_of_eq hqe.symm

/-- No move makes a node older. -/
theorem Moves.since {k : Bool} {n : Node} {e : Nat} (m : Moves k a b) :
    ∀ l, Ok a l → Since a n e → InUse b → Since b n e := by
  induction m with
  | refl => exact fun _ _ h _ => h
  | trans m₁ _ hmid ih₁ ih₂ =>
    intro l hok h hb
    obtain ⟨l', hok'⟩ := m₁.ok l hok
    exact ih₂ l' hok' (ih₁ l hok h hmid) hb
  | grant g =>
    rintro l hok ⟨he, hlive, hacq⟩ -
    refine ⟨by rw [g.epoch]; omega, fun c hc => hlive c (g.live _ c hc), fun w' q' hw' hn' => ?_⟩
    rcases g.sets.cases hw' with ⟨-, heq⟩ | ⟨-, hw'⟩
    · obtain rfl := Option.some.inj heq
      rw [g.at_epoch]
      omega
    · exact hacq w' q' hw' hn'
  | join g =>
    rintro l hok ⟨he, hlive, hacq⟩ -
    refine ⟨by rw [g.epoch]; exact he, fun c hc => hlive c ((g.live _).symm.trans hc),
      fun w' q' hw' hn' => ?_⟩
    rcases g.sets.cases hw' with ⟨-, heq⟩ | ⟨-, hw'⟩
    · obtain rfl := Option.some.inj heq
      rw [g.at_epoch]
      exact he
    · exact hacq w' q' hw' hn'
  | @bump a b m g =>
    rintro l hok ⟨he, hlive, hacq⟩ -
    refine ⟨by rw [g.epoch]; omega, fun c hc => ?_,
      fun w' q' hw' hn' => hacq w' q' ((g.acq w').symm.trans hw') hn'⟩
    by_cases hn : n = m
    · rw [hn, g.live] at hc
      rw [← Option.some.inj hc]
      exact Nat.le_succ_of_le he
    · exact hlive c ((g.other n hn).symm.trans hc)
  | @take a b w q m r g =>
    rintro l hok ⟨he, hlive, hacq⟩ -
    refine ⟨g.dir.epoch ▸ he, fun c hc => ?_, fun w' q' hw' hn' => ?_⟩
    · by_cases hn : n = m
      · rw [hn, g.live] at hc
        cases hc
      · exact hlive c ((g.other n hn).symm.trans hc)
    · rcases g.sets.cases hw' with ⟨-, heq⟩ | ⟨-, hw'⟩
      · obtain rfl := Option.some.inj heq
        exact hacq w q g.had hn'
      · exact hacq w' q' hw' hn'
  | @settle a b w q g | @copyIn a b w q g =>
    rintro l hok ⟨he, hlive, hacq⟩ -
    refine ⟨g.dir.epoch ▸ he, fun c hc => hlive c ((g.live _).symm.trans hc),
      fun w' q' hw' hn' => ?_⟩
    rcases g.sets.cases hw' with ⟨-, heq⟩ | ⟨-, hw'⟩
    · obtain rfl := Option.some.inj heq
      exact hacq w q g.had hn'
    · exact hacq w' q' hw' hn'
  | @finish a b w q g | @joinFinish a b w q g =>
    rintro l hok ⟨he, hlive, hacq⟩ -
    refine ⟨g.dir.epoch ▸ he, fun c hc => ?_, fun w' q' hw' hn' => ?_⟩
    · by_cases hn : n = q.node
      · rw [hn, g.live] at hc
        rw [← Option.some.inj hc]
        exact hacq w q g.had hn.symm
      · exact hlive c ((g.other n hn).symm.trans hc)
    · rcases g.sets.cases hw' with ⟨-, heq⟩ | ⟨-, hw'⟩
      · cases heq
      · exact hacq w' q' hw' hn'
  | abandon g | abandonLatest g =>
    rintro l hok ⟨he, hlive, hacq⟩ -
    refine ⟨g.epoch ▸ he, fun c hc => hlive c ((g.live _).symm.trans hc),
      fun w' q' hw' hn' => ?_⟩
    rcases g.sets.cases hw' with ⟨-, heq⟩ | ⟨-, hw'⟩
    · cases heq
    · exact hacq w' q' hw' hn'
  | drop g =>
    rintro l hok ⟨he, hlive, hacq⟩ -
    exact ⟨g.epoch ▸ he, fun c hc => hlive c (g.live _ c hc),
      fun w' q' hw' hn' => hacq w' q' ((g.acq w').symm.trans hw') hn'⟩
  | lose _ g _ =>
    rintro l hok ⟨he, hlive, hacq⟩ -
    exact ⟨g.epoch ▸ he, fun c hc => hlive c (g.live _ c hc),
      fun w' q' hw' hn' => hacq w' q' ((g.acq w').symm.trans hw') hn'⟩
  | @handOver a b i j g =>
    rintro l hok ⟨he, hlive, hacq⟩ -
    refine ⟨g.epoch ▸ he, fun c hc => ?_,
      fun w' q' hw' hn' => hacq w' q' ((g.acq w').symm.trans hw') hn'⟩
    by_cases hi : n = i
    · rw [hi, g.gone] at hc
      cases hc
    · by_cases hj : n = j
      · rw [hj, g.live] at hc
        rw [← Option.some.inj hc]
        exact he
      · exact hlive c ((g.other n hi hj).symm.trans hc)
  | @appear a b m he₀ _ hacq₀ _ _ _ _ =>
    rintro l hok ⟨he, hlive, hacq⟩ -
    obtain rfl : e = 0 := by omega
    exact ⟨Nat.zero_le _, fun _ _ => Nat.zero_le _, fun _ _ _ _ => Nat.zero_le _⟩
  | vanish hlive₀ hdir hsub hacq₀ _ _ =>
    rintro l hok - (⟨w, q, hq⟩ | ⟨m, c, hc⟩)
    · rw [hacq₀ w, (hok.of_vanish hlive₀ hdir hsub).2 w] at hq
      cases hq
    · rw [(hok.of_vanish hlive₀ hdir hsub).1 m] at hc
      cases hc

/-- While somebody has the page or is acquiring it, the epochs only grow. -/
theorem Moves.epoch_le {k : Bool} (m : Moves k a b) :
    ∀ l, Ok a l → InUse b → a.epoch ≤ b.epoch := by
  induction m with
  | refl => exact fun _ _ _ => Nat.le_refl _
  | trans m₁ _ hmid ih₁ ih₂ =>
    intro l hok hb
    obtain ⟨l', hok'⟩ := m₁.ok l hok
    exact Nat.le_trans (ih₁ l hok hmid) (ih₂ l' hok' hb)
  | grant g | bump g =>
    intro _ _ _
    have he := g.epoch
    omega
  | take g | settle g | copyIn g | finish g | joinFinish g =>
    exact fun _ _ _ => Nat.le_of_eq g.dir.epoch.symm
  | join g | abandon g | abandonLatest g | drop g | handOver g | lose _ g =>
    exact fun _ _ _ => Nat.le_of_eq g.epoch.symm
  | appear he =>
    intro _ _ _
    omega
  | vanish hlive hdir hsub hacq _ _ =>
    rintro l hok (⟨w, q, hq⟩ | ⟨n, c, hc⟩)
    · rw [hacq w, (hok.of_vanish hlive hdir hsub).2 w] at hq
      cases hq
    · rw [(hok.of_vanish hlive hdir hsub).1 n] at hc
      cases hc

/-! ## Ledgers without a copy -/

/-- Nobody has a copy of the page or is about to get one.  The directory does not know. -/
structure Dead (a : Ledger Node W) : Prop where
  live : ∀ n, a.live n = none
  left : ∀ n, a.left n = none
  ready : ∀ w q, a.acq w = some q → q.ready = false
  named : a.epoch = 0 → a.dirExcl = true ∧ a.dir.Nonempty ∧ ∀ w, a.acq w = none

/-- No move brings the page back. -/
theorem Moves.dead {k : Bool} (m : Moves k a b) : Dead a → Dead b := by
  induction m with
  | refl => exact id
  | trans _ _ _ ih₁ ih₂ => exact fun h => ih₂ (ih₁ h)
  | @grant a b w q g hleft _ _ _ hready _ =>
    intro h
    have hnot : q.ready = false := by
      by_contra hne
      obtain ⟨n, c, hn, -⟩ := hready (by simpa using hne)
      simp [h.live n] at hn
    refine ⟨fun n => ?_, fun n => (hleft n).trans (h.left n), fun w' q' hw' => ?_, fun he => ?_⟩
    · rcases hn : b.live n with _ | c
      · rfl
      · exact absurd ((h.live n).symm.trans (g.live n c hn)) (by simp)
    · rcases g.sets.cases hw' with ⟨-, heq⟩ | ⟨-, hw'⟩
      · exact Option.some.inj heq ▸ hnot
      · exact h.ready w' q' hw'
    · exact absurd (g.epoch.symm.trans he) (by omega)
  | @join a b w q g hleft _ =>
    intro h
    have hnot : q.ready = false := by
      by_contra hne
      obtain ⟨n, c, hn, -⟩ := g.ready (by simpa using hne)
      simp [h.live n] at hn
    refine ⟨fun n => (g.live n).trans (h.live n), fun n => (hleft n).trans (h.left n),
      fun w' q' hw' => ?_, fun he => ?_⟩
    · rcases g.sets.cases hw' with ⟨-, heq⟩ | ⟨-, hw'⟩
      · exact Option.some.inj heq ▸ hnot
      · exact h.ready w' q' hw'
    · exact absurd ((h.named (g.epoch.symm.trans he)).1.symm.trans g.dirExcl.1) (by simp)
  | bump g _ =>
    intro h
    exact absurd ((h.live _).symm.trans g.had) (by simp)
  | @take a b w q c r g hc hleft hother _ hsource =>
    intro h
    have hq := h.ready w q g.had
    have hr : r = false := by
      by_contra hne
      rcases hsource (by simpa using hne) with hready | ⟨d, hd⟩ | ⟨e, he⟩
      · simp [hq] at hready
      · simp [h.live c] at hd
      · simp [h.left c] at he
    refine ⟨fun n => ?_, fun n => ?_, fun w' q' hw' => ?_, fun he => ?_⟩
    · by_cases hn : n = c
      · exact hn ▸ g.live
      · exact (g.other n hn).trans (h.live n)
    · by_cases hn : n = c
      · exact hn ▸ hleft
      · exact (hother n hn).trans (h.left n)
    · rcases g.sets.cases hw' with ⟨-, heq⟩ | ⟨-, hw'⟩
      · exact Option.some.inj heq ▸ hr
      · exact h.ready w' q' hw'
    · exact absurd (((h.named (g.dir.epoch.symm.trans he)).2.2 w).symm.trans g.had) (by simp)
  | settle g _ hready =>
    intro h
    simp [h.ready _ _ g.had] at hready
  | copyIn g _ =>
    intro h
    obtain ⟨n, c, hn, -⟩ := g.source
    simp [h.live n] at hn
  | finish g _ hready =>
    intro h
    simp [h.ready _ _ g.had] at hready
  | joinFinish g _ =>
    intro h
    exact absurd ((h.ready _ _ g.had).symm.trans g.ready) (by simp)
  | abandon _ _ _ _ hwanted =>
    intro h
    obtain ⟨w', q', hw', -, hready, -⟩ := hwanted
    simp [h.ready w' q' hw'] at hready
  | @abandonLatest a b w q g _ _ hleft =>
    intro h
    refine ⟨fun n => (g.live n).trans (h.live n), fun n => (hleft n).trans (h.left n),
      fun w' q' hw' => ?_, fun he => ?_⟩
    · rcases g.sets.cases hw' with ⟨-, heq⟩ | ⟨-, hw'⟩
      · cases heq
      · exact h.ready w' q' hw'
    · exact absurd (((h.named (g.epoch.symm.trans he)).2.2 w).symm.trans g.had) (by simp)
  | @drop a b n _ hn _ _ _ =>
    intro h
    obtain ⟨c, hc, -⟩ := hn
    simp [h.live n] at hc
  | handOver g _ =>
    intro h
    obtain ⟨c, hc, -⟩ := g.had
    simp [h.live] at hc
  | appear he hd _ _ _ _ _ =>
    intro h
    exact absurd hd (h.named he).2.1.ne_empty
  | vanish hlive _ _ _ _ _ =>
    intro h
    obtain ⟨n, c, hn, -⟩ := hlive
    simp [h.live n] at hn
  | lose _ _ hlive =>
    intro h
    obtain ⟨n, c, hn⟩ := hlive
    simp [h.live n] at hn

/-- The loss of an exclusive copy behind the directory's back. -/
theorem Exact.dead {n : Node} {c : Copy} (x : Exact a l) (h : Ok a l) (hn : a.live n = some c)
    (hc : c.excl = true) (hacq : ∀ w, b.acq w = a.acq w) (hdir : SameDir a b)
    (hlive : b.live n = none) (hother : ∀ m, m ≠ n → b.live m = a.live m)
    (hleft : ∀ m, m ≠ n → b.left m = a.left m) (hself : b.left n = none) : Dead b := by
  have hnone : ∀ w q, a.acq w = some q → q.ready = false := by
    intro w q hq
    by_contra hne
    have hready : q.ready = true := by simpa using hne
    cases hf : q.first with
    | true => simp [x.ready_excl w q n c hq hf hready hn] at hc
    | false => exact h.excl_no_join n c w q hn hc hq hf (h.join_ready w q hq hf hready)
  refine ⟨fun m => ?_, fun m => ?_, fun w q hq => hnone w q ((hacq w).symm.trans hq), fun he => ?_⟩
  · by_cases hm : m = n
    · exact hm ▸ hlive
    · rw [hother m hm]
      rcases hd : a.live m with _ | d
      · rfl
      · exact absurd (h.excl_alone n m c d hn hc hd) hm
  · by_cases hm : m = n
    · exact hm ▸ hself
    · rw [hleft m hm]
      rcases he : a.left m with _ | e
      · rfl
      · obtain ⟨w, q, hq, -, hready, -⟩ := x.left_target m e he
        simp [hnone w q hq] at hready
  · have hzero : a.epoch = 0 := hdir.epoch.symm.trans he
    have hl : l = a.epoch := by
      have := h.le_epoch
      omega
    obtain ⟨hmem, hx⟩ := h.live_dir n c hn hl
    refine ⟨hdir.excl.trans (hx.symm.trans hc), ⟨n, hdir.dir ▸ hmem⟩, fun w => ?_⟩
    rw [hacq w]
    rcases hq : a.acq w with _ | q
    · rfl
    · exfalso
      cases hf : q.first with
      | true =>
        have := h.first_range w q hq hf
        omega
      | false =>
        have := h.join_range w q hq hf
        exact h.excl_no_join n c w q hn hc hq hf (by omega)

end ScaleStore.Ledger
