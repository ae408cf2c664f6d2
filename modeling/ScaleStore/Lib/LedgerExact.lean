/-
# Ledgers that have lost nothing

As long as no copy disappears without the directory knowing, a ledger says more:
every member of the directory and every node an acquisition waits for is
accounted for, and a page that has been transferred is the one in use.
-/

import ScaleStore.Lib.Ledger

namespace ScaleStore.Ledger

universe u v

variable {Node : Type u} {W : Type v} {a b : Ledger Node W} {l : Nat} {w : W}
  {q : Acquisition Node}

/-- Nothing has been lost. -/
structure Exact (a : Ledger Node W) (l : Nat) : Prop where
  dir_mem : ∀ n ∈ a.dir, (∃ c, a.live n = some c ∧ l = a.epoch) ∨
    ∃ w q, a.acq w = some q ∧ q.node = n ∧ q.epoch = a.epoch
  target_mem : ∀ w q, a.acq w = some q → q.first = true → ∀ n ∈ q.targets,
    (∃ c, a.live n = some c ∧ q.epoch = l + 1) ∨
    (∃ w' q', a.acq w' = some q' ∧ q'.node = n ∧ q'.epoch + 1 = q.epoch) ∨
    ∃ e, a.left n = some e ∧ e + 1 = q.epoch
  ready_epoch : ∀ w q, a.acq w = some q → q.first = true → q.ready = true → q.epoch = l + 1
  ready_excl : ∀ w q n c, a.acq w = some q → q.first = true → q.ready = true →
    a.live n = some c → c.excl = false
  keeps_live : ∀ w q, a.acq w = some q → q.keeps = true →
    q.first = true ∧ q.ready = true ∧ ∃ c, a.live q.node = some c
  left_live : ∀ n e c, a.left n = some e → a.live n ≠ some c
  left_free : ∀ n e w q, a.left n = some e → a.acq w = some q → q.node ≠ n
  left_target : ∀ n e, a.left n = some e →
    ∃ w q, a.acq w = some q ∧ q.first = true ∧ q.ready = true ∧ n ∈ q.targets

/-- A ledger without acquisitions whose copies make up the directory. -/
theorem Exact.quiet (hd : ∀ n ∈ a.dir, ∃ c, a.live n = some c) (ha : ∀ w, a.acq w = none)
    (hl : ∀ n, a.left n = none) : Exact a a.epoch := by
  constructor
  all_goals grind

/-- A target that is not busy and has no copy has given up joining. -/
theorem Exact.target_idle {n : Node} (x : Exact a l) (hq : a.acq w = some q)
    (hf : q.first = true) (hn : n ∈ q.targets) (hb : ¬ a.Busy n) (hl : a.live n = none) :
    ∃ e, a.left n = some e ∧ e + 1 = q.epoch := by
  rcases x.target_mem w q hq hf n hn with ⟨c, hc, -⟩ | ⟨w', q', hw', hn', -⟩ | h
  · simp [hl] at hc
  · exact absurd ⟨w', q', hw', hn'⟩ hb
  · exact h

/-- A node that gave up joining is waited for by a worker that already has the page. -/
theorem Exact.left_ready {n : Node} {e : Nat} (x : Exact a l) (h : Ok a l)
    (hn : a.left n = some e) (hq : a.acq w = some q) (hf : q.first = true)
    (ht : n ∈ q.targets) : q.ready = true := by
  obtain ⟨w', q', hw', hf', hr', hm'⟩ := x.left_target n e hn
  have same : ∀ w₁ q₁, a.acq w₁ = some q₁ → q₁.first = true → n ∈ q₁.targets →
      q₁.epoch = e + 1 := by
    intro w₁ q₁ h₁ hf₁ hm₁
    rcases x.target_mem w₁ q₁ h₁ hf₁ n hm₁ with ⟨c, hc, -⟩ | ⟨w₂, q₂, h₂, hn₂, -⟩ | ⟨e', he', hl⟩
    · exact absurd hc (x.left_live n e c hn)
    · exact absurd hn₂ (x.left_free n e w₂ q₂ hn h₂)
    · rw [hn] at he'
      obtain rfl := Option.some.inj he'
      exact hl.symm
  have he := (same w q hq hf ht).trans (same w' q' hw' hf' hm').symm
  obtain rfl := h.first_unique w w' q q' hq hw' hf hf' he
  rw [hq] at hw'
  obtain rfl := Option.some.inj hw'
  exact hr'

/-- Nobody waits for its own node, except in an upgrade. -/
theorem Exact.not_own_target (x : Exact a l) (h : Ok a l) (hq : a.acq w = some q)
    (hf : q.first = true) (hk : q.keeps = false) : q.node ∉ q.targets := by
  intro hm
  rcases x.target_mem w q hq hf _ hm with ⟨c, hc, -⟩ | ⟨w', q', hq', hn, he⟩ | ⟨e, he, -⟩
  · have := h.live_acq _ c w q hc hq rfl
    simp [hk] at this
  · obtain rfl := h.node_unique w' w q' q hq' hq hn
    rw [hq] at hq'
    obtain rfl := Option.some.inj hq'
    omega
  · exact x.left_free _ e w q he hq rfl

/-! ## Opening and joining epochs -/

theorem Exact.grant (x : Exact a l) (h : Ok a l) (g : Grants a b w q)
    (hleft : ∀ n, b.left n = a.left n) (hself : a.left q.node = none)
    (hsub : ∀ n ∈ q.targets, n ∈ a.dir ∧ b.live n = a.live n)
    (hdrop : ∀ n c, a.live n = some c → b.live n = some c ∨ c.epoch = a.epoch)
    (hready : q.ready = true → ∃ n c, a.live n = some c ∧ c.epoch = a.epoch)
    (hshared : q.ready = true → ∀ n c, b.live n = some c → c.excl = false)
    (hkeeps : q.keeps = true → q.ready = true ∧ ∃ c, b.live q.node = some c) : Exact b l := by
  have split := @Sets.cases _ _ a b w
  have hdir : ∀ n, n ∈ b.dir ↔ n = q.node := by simp [g.dir]
  obtain ⟨sets, hnone, hepoch, hfirst, hq, -, hexcl, hfree, hlive, -, -⟩ := g
  obtain ⟨x1, x2, x3, x4, x5, x6, x7, x8⟩ := x
  have h4 := h.first_range
  have h2 := h.live_epoch
  have keep : ∀ w' q', a.acq w' = some q' → b.acq w' = some q' := by
    intro w' q' hq'
    have hne : w' ≠ w := by
      rintro rfl
      simp [hnone] at hq'
    exact (sets.other w' hne).trans hq'
  constructor
  case target_mem =>
    intro w' q' hw' hf n hn
    rcases split sets hw' with ⟨rfl, he⟩ | ⟨hne, hw'⟩
    · obtain rfl := Option.some.inj he
      rcases x1 n (hsub n hn).1 with ⟨c, hc, hl⟩ | ⟨w₁, q₁, h₁, h₂, h₃⟩
      · exact .inl ⟨c, by rw [(hsub n hn).2, hc], by omega⟩
      · exact .inr (.inl ⟨w₁, q₁, keep w₁ q₁ h₁, h₂, by omega⟩)
    · rcases x2 w' q' hw' hf n hn with ⟨c, hc, hl⟩ | ⟨w₁, q₁, h₁, h₂, h₃⟩ | ⟨e, he, hl⟩
      · have hr := h4 w' q' hw' hf
        have he := h2 n c hc
        rcases hdrop n c hc with hc' | hc'
        · exact .inl ⟨c, hc', hl⟩
        · omega
      · exact .inr (.inl ⟨w₁, q₁, keep w₁ q₁ h₁, h₂, h₃⟩)
      · exact .inr (.inr ⟨e, (hleft n).trans he, hl⟩)
  case left_target =>
    intro n e hn
    rw [hleft] at hn
    obtain ⟨w', q', hw', hf, hr, hm⟩ := x8 n e hn
    exact ⟨w', q', keep w' q' hw', hf, hr, hm⟩
  case dir_mem =>
    intro n hn
    exact .inr ⟨w, q, sets.self, ((hdir n).mp hn).symm, by omega⟩
  case keeps_live =>
    intro w' q' hw' hk
    rcases split sets hw' with ⟨rfl, he⟩ | ⟨hne, hw'⟩
    · obtain rfl := Option.some.inj he
      exact ⟨hfirst, hkeeps hk⟩
    · obtain ⟨hf, hr, c, hc⟩ := x5 w' q' hw' hk
      rcases hdrop _ c hc with hc' | hc'
      · exact ⟨hf, hr, c, hc'⟩
      · have := h4 w' q' hw' hf
        have := h2 _ c hc
        omega
  all_goals grind

theorem Exact.join (x : Exact a l) (g : Joins a b w q) (hleft : ∀ n, b.left n = a.left n)
    (hself : a.left q.node = none) : Exact b l := by
  have split := @Sets.cases _ _ a b w
  have hmem : ∀ n, n ∈ b.dir ↔ n = q.node ∨ n ∈ a.dir := by simp [g.dir]
  obtain ⟨sets, hidle, hepoch, hfirst, hq, hexcl, hkeeps, -, hde, hfree, hlive, hno, hready⟩ := g
  obtain ⟨x1, x2, x3, x4, x5, x6, x7, x8⟩ := x
  have keep : ∀ w' q', a.acq w' = some q' → b.acq w' = some q' := by
    intro w' q' hq'
    have hne : w' ≠ w := by
      rintro rfl
      simp [hidle] at hq'
    exact (sets.other w' hne).trans hq'
  constructor
  case dir_mem =>
    intro n hn
    rcases (hmem n).mp hn with rfl | hn
    · exact .inr ⟨w, q, sets.self, rfl, by omega⟩
    · rcases x1 n hn with ⟨c, hc, hl⟩ | ⟨w₁, q₁, h₁, h₂, h₃⟩
      · exact .inl ⟨c, (hlive n).trans hc, by omega⟩
      · exact .inr ⟨w₁, q₁, keep w₁ q₁ h₁, h₂, by omega⟩
  case target_mem =>
    intro w' q' hw' hf n hn
    rcases split sets hw' with ⟨rfl, he⟩ | ⟨hne, hw'⟩
    · grind
    · rcases x2 w' q' hw' hf n hn with ⟨c, hc, hl⟩ | ⟨w₁, q₁, h₁, h₂, h₃⟩ | ⟨e, he, hl⟩
      · exact .inl ⟨c, (hlive n).trans hc, hl⟩
      · exact .inr (.inl ⟨w₁, q₁, keep w₁ q₁ h₁, h₂, h₃⟩)
      · exact .inr (.inr ⟨e, (hleft n).trans he, hl⟩)
  case left_target =>
    intro n e hn
    rw [hleft] at hn
    obtain ⟨w', q', hw', hf, hr, hm⟩ := x8 n e hn
    exact ⟨w', q', keep w' q' hw', hf, hr, hm⟩
  all_goals grind

theorem Exact.bump {n : Node} (x : Exact a l) (h : Ok a l) (g : Bumps a b n)
    (hleft : ∀ n, b.left n = a.left n) : Exact b (l + 1) := by
  obtain ⟨hl, hacq⟩ := h.quiet g.had
  have hnone : ∀ w, b.acq w = none := fun w => (g.acq w).trans (hacq w)
  have hempty : ∀ m, b.left m = none := by
    intro m
    rw [hleft]
    rcases hm : a.left m with _ | e
    · rfl
    · obtain ⟨w, q, hq, -⟩ := x.left_target m e hm
      simp [hacq] at hq
  have hdir : ∀ m ∈ b.dir, ∃ c, b.live m = some c := by
    intro m hm
    rw [g.dir, Set.mem_singleton_iff] at hm
    subst hm
    exact ⟨_, g.live⟩
  have := Exact.quiet hdir hnone hempty
  rwa [g.epoch, ← hl] at this

/-! ## Collecting and finishing -/

/-- Where an acquisition is found again after `w` has changed its own. -/
theorem Sets.keep {q' : Option (Acquisition Node)} {w' : W} {q₁ : Acquisition Node}
    (s : Sets a b w q') (hne : w' ≠ w) (h : a.acq w' = some q₁) : b.acq w' = some q₁ :=
  (s.other w' hne).trans h

theorem Exact.take {c : Node} {r : Bool} (x : Exact a l) (h : Ok a l) (g : Takes a b w q c r)
    (hc : c ∈ q.targets) (hleft : b.left c = none) (hother : ∀ n, n ≠ c → b.left n = a.left n)
    (hkeep : q.ready = true → r = true)
    (hready : r = true → q.ready = true ∨ ∃ d, a.live c = some d) : Exact b l := by
  have split := @Sets.cases _ _ a b w
  have hmem : ∀ n, n ∈ q.targets \ {c} ↔ n ∈ q.targets ∧ n ≠ c := by simp
  have halone := h.excl_alone
  have hunique := h.first_unique
  have hrange := h.first_range w q g.had g.first
  obtain ⟨hhad, sets, ⟨he, hd, hx⟩, hfirst, hfree, hlive, hlother⟩ := g
  have hbusy : ∀ w' q', a.acq w' = some q' → q'.node ≠ c := by
    intro w' q' hw' hn
    exact hfree ⟨w', q', hw', hn⟩
  obtain ⟨x1, x2, x3, x4, x5, x6, x7, x8⟩ := x
  -- a worker found before is found again, on the same node and in the same epoch
  have again : ∀ w' q', a.acq w' = some q' → ∃ q₁, b.acq w' = some q₁ ∧ q₁.node = q'.node ∧
      q₁.epoch = q'.epoch ∧ q₁.first = q'.first ∧ (q'.ready = true → q₁.ready = true) ∧
      (∀ n ∈ q'.targets, n ≠ c → n ∈ q₁.targets) := by
    intro w' q' hw'
    by_cases hne : w' = w
    · subst hne
      rw [hhad] at hw'
      obtain rfl := Option.some.inj hw'
      exact ⟨_, sets.self, rfl, rfl, rfl, hkeep, fun n hn hnc => (hmem n).mpr ⟨hn, hnc⟩⟩
    · exact ⟨q', sets.keep hne hw', rfl, rfl, rfl, id, fun n hn _ => hn⟩
  have hqc := x2 w q hhad hfirst c hc
  constructor
  case dir_mem => grind
  case target_mem =>
    have old : ∀ w' q', a.acq w' = some q' → q'.first = true → ∀ n ∈ q'.targets, n ≠ c →
        (∃ d, b.live n = some d ∧ q'.epoch = l + 1) ∨
        (∃ w₁ q₁, b.acq w₁ = some q₁ ∧ q₁.node = n ∧ q₁.epoch + 1 = q'.epoch) ∨
        ∃ e, b.left n = some e ∧ e + 1 = q'.epoch := by
      intro w' q' hw' hf n hn hnc
      rcases x2 w' q' hw' hf n hn with ⟨d, hd, hl⟩ | ⟨w₁, q₁, h₁, h₂, h₃⟩ | ⟨e, he, hl⟩
      · exact .inl ⟨d, (hlother n hnc).trans hd, hl⟩
      · obtain ⟨q₂, h₄, h₅, h₆, -⟩ := again w₁ q₁ h₁
        exact .inr (.inl ⟨w₁, q₂, h₄, h₅.trans h₂, by omega⟩)
      · exact .inr (.inr ⟨e, (hother n hnc).trans he, hl⟩)
    intro w' q' hw' hf n hn
    rcases split sets hw' with ⟨rfl, he⟩ | ⟨hne, hw'⟩
    · obtain rfl := Option.some.inj he
      obtain ⟨hn, hnc⟩ := (hmem n).mp hn
      exact old w' q hhad hfirst n hn hnc
    · by_cases hnc : n = c
      · -- only one worker waits for a node that is not busy
        subst hnc
        exfalso
        rcases hqc with ⟨d, hd, hl⟩ | ⟨w₁, q₁, h₁, h₂, h₃⟩ | ⟨e, he, hl⟩ <;>
          rcases x2 w' q' hw' hf n hn with
            ⟨d', hd', hl'⟩ | ⟨w₂, q₂, h₄, h₅, h₆⟩ | ⟨e', he', hl'⟩ <;>
          grind
      · exact old w' q' hw' hf n hn hnc
  case left_target =>
    intro n e hn
    have hnc : n ≠ c := by
      rintro rfl
      simp [hleft] at hn
    rw [hother n hnc] at hn
    obtain ⟨w', q', hw', hf, hr, hm⟩ := x8 n e hn
    obtain ⟨q₁, h₁, -, -, h₂, h₃, h₄⟩ := again w' q' hw'
    exact ⟨w', q₁, h₁, h₂.trans hf, h₃ hr, h₄ n hm hnc⟩
  case ready_excl =>
    intro w' q' n d hw' hf hr hn
    have hnc : n ≠ c := by
      rintro rfl
      simp [hlive] at hn
    rw [hlother n hnc] at hn
    rcases split sets hw' with ⟨rfl, he⟩ | ⟨hne, hw'⟩
    · obtain rfl := Option.some.inj he
      rcases hready hr with hr | ⟨d', hd'⟩
      · exact x4 w' q n d hhad hfirst hr hn
      · by_contra hx'
        exact hnc (halone n c d d' hn (by simpa using hx') hd').symm
    · exact x4 w' q' n d hw' hf hr hn
  case left_live =>
    intro n e d hn hd
    by_cases hnc : n = c
    · subst hnc
      simp [hleft] at hn
    · rw [hother n hnc] at hn
      rw [hlother n hnc] at hd
      exact x6 n e d hn hd
  all_goals grind

/-- What becomes of the rest when the worker next in turn moves on to its epoch: nobody else has
a page in hand, and nobody has given up. -/
theorem Exact.turn (x : Exact a l) (h : Ok a l) (hq : a.acq w = some q) (hf : q.first = true)
    (ht : q.targets = ∅) :
    q.epoch = l + 1 ∧ (∀ n, a.left n = none) ∧
    ∀ w' q', a.acq w' = some q' → q'.first = true → q'.ready = true → w' = w := by
  have he : q.epoch = l + 1 := h.first_epoch hq hf (by simp [ht])
  have hone : ∀ w' q', a.acq w' = some q' → q'.first = true → q'.ready = true → w' = w := by
    intro w' q' hw' hf' hr'
    have he' := x.ready_epoch w' q' hw' hf' hr'
    exact h.first_unique w' w q' q hw' hq hf' hf (by omega)
  refine ⟨he, fun n => ?_, hone⟩
  rcases hn : a.left n with _ | e
  · rfl
  · exfalso
    obtain ⟨w', q', hw', hf', hr', hm⟩ := x.left_target n e hn
    obtain rfl := hone w' q' hw' hf' hr'
    rw [hq] at hw'
    obtain rfl := Option.some.inj hw'
    simp [ht] at hm

theorem Exact.settle (x : Exact a l) (h : Ok a l) (g : Settles a b w q)
    (hleft : ∀ n, b.left n = a.left n) : Exact b (l + 1) := by
  have split := @Sets.cases _ _ a b w
  obtain ⟨hepoch, hnone, hone⟩ := x.turn h g.had g.first g.targets
  obtain ⟨hhad, sets, ⟨he, hd, hx⟩, hfirst, hexcl, hkeeps, -, hlive⟩ := g
  have hrange := h.first_range
  have hunique := h.first_unique
  obtain ⟨x1, x2, x3, x4, x5, x6, x7, x8⟩ := x
  have again : ∀ w' q', a.acq w' = some q' → ∃ q₁, b.acq w' = some q₁ ∧ q₁.node = q'.node ∧
      q₁.epoch = q'.epoch := by
    intro w' q' hw'
    by_cases hne : w' = w
    · subst hne
      rw [hhad] at hw'
      obtain rfl := Option.some.inj hw'
      exact ⟨_, sets.self, rfl, rfl⟩
    · exact ⟨q', sets.keep hne hw', rfl, rfl⟩
  constructor
  all_goals grind

theorem Exact.copyIn (x : Exact a l) (g : CopiesIn a b w q)
    (hleft : ∀ n, b.left n = a.left n) : Exact b l := by
  have split := @Sets.cases _ _ a b w
  obtain ⟨hhad, sets, ⟨he, hd, hx⟩, hfirst, hlive, -⟩ := g
  obtain ⟨x1, x2, x3, x4, x5, x6, x7, x8⟩ := x
  have again : ∀ w' q', a.acq w' = some q' → ∃ q₁, b.acq w' = some q₁ ∧ q₁.node = q'.node ∧
      q₁.epoch = q'.epoch ∧ q₁.first = q'.first ∧ q₁.targets = q'.targets ∧
      (q'.ready = true → q₁.ready = true) := by
    intro w' q' hw'
    by_cases hne : w' = w
    · subst hne
      rw [hhad] at hw'
      obtain rfl := Option.some.inj hw'
      exact ⟨_, sets.self, rfl, rfl, rfl, rfl, fun _ => rfl⟩
    · exact ⟨q', sets.keep hne hw', rfl, rfl, rfl, rfl, id⟩
  constructor
  all_goals grind

theorem Exact.finish (x : Exact a l) (h : Ok a l) (g : Finishes a b w q)
    (hleft : ∀ n, b.left n = a.left n) : Exact b (l + 1) := by
  have split := @Sets.cases _ _ a b w
  obtain ⟨hepoch, hnone, hone⟩ := x.turn h g.had g.first g.targets
  obtain ⟨hhad, sets, ⟨he, hd, hx⟩, hfirst, hexcl, -, hlive, hother⟩ := g
  have hrange := h.first_range
  have hunique := h.first_unique
  obtain ⟨x1, x2, x3, x4, x5, x6, x7, x8⟩ := x
  have keep : ∀ w' q', w' ≠ w → a.acq w' = some q' → b.acq w' = some q' :=
    fun w' q' hne hw' => sets.keep hne hw'
  constructor
  all_goals grind

theorem Exact.joinFinish (x : Exact a l) (h : Ok a l) (g : JoinFinishes a b w q)
    (hleft : ∀ n, b.left n = a.left n) : Exact b l := by
  have split := @Sets.cases _ _ a b w
  obtain ⟨hhad, sets, ⟨he, hd, hx⟩, hfirst, hready, hlive, hother⟩ := g
  have hepoch := h.join_ready w q hhad hfirst hready
  have hacq := h.live_acq
  have hjoin := h.join_range
  have hnode := h.node_unique
  obtain ⟨x1, x2, x3, x4, x5, x6, x7, x8⟩ := x
  have keep : ∀ w' q', w' ≠ w → a.acq w' = some q' → b.acq w' = some q' :=
    fun w' q' hne hw' => sets.keep hne hw'
  constructor
  all_goals grind

/-! ## Giving up and losing copies -/

/-- A joining worker gives up because its epoch is being collected. -/
theorem Exact.abandon (x : Exact a l) (h : Ok a l) (g : Abandons a b w q)
    (hdir : ∀ n, n ∈ b.dir ↔ n ∈ a.dir) (hleft : b.left q.node = some q.epoch)
    (hother : ∀ n, n ≠ q.node → b.left n = a.left n)
    (hwanted : ∃ w' q', a.acq w' = some q' ∧ q'.first = true ∧ q'.ready = true ∧
      q.node ∈ q'.targets) : Exact b l := by
  have split := @Sets.cases _ _ a b w
  obtain ⟨hhad, sets, he, hx, -, -, hfirst, hlive⟩ := g
  have hacq := h.live_acq
  have hjoin := h.join_range w q hhad hfirst
  have hrange := h.first_range
  have hnode := h.node_unique
  obtain ⟨x1, x2, x3, x4, x5, x6, x7, x8⟩ := x
  have keep : ∀ w' q', w' ≠ w → a.acq w' = some q' → b.acq w' = some q' :=
    fun w' q' hne hw' => sets.keep hne hw'
  -- the epoch of `q` is over, so the directory does not name its node any more
  have hnot : q.node ∉ a.dir := by
    obtain ⟨w', q', hw', hf', -, hm'⟩ := hwanted
    intro hmem
    rcases x1 _ hmem with ⟨c, hc, -⟩ | ⟨w₁, q₁, h₁, h₂, h₃⟩
    · grind
    · rcases x2 w' q' hw' hf' _ hm' with ⟨c, hc, -⟩ | ⟨w₂, q₂, h₄, h₅, h₆⟩ | ⟨e, he, -⟩
      · grind
      · grind
      · grind
  constructor
  case left_target =>
    have other : ∀ n w' q', a.acq w' = some q' → q'.first = true → q'.ready = true →
        n ∈ q'.targets → ∃ w₁ q₁, b.acq w₁ = some q₁ ∧ q₁.first = true ∧ q₁.ready = true ∧
          n ∈ q₁.targets := by
      intro n w' q' hw' hf hr hm
      have hne : w' ≠ w := by
        rintro rfl
        grind
      exact ⟨w', q', keep w' q' hne hw', hf, hr, hm⟩
    intro n e hn
    by_cases hq : n = q.node
    · subst hq
      obtain ⟨w', q', hw', hf, hr, hm⟩ := hwanted
      exact other _ w' q' hw' hf hr hm
    · rw [hother n hq] at hn
      obtain ⟨w', q', hw', hf, hr, hm⟩ := x8 n e hn
      exact other n w' q' hw' hf hr hm
  all_goals grind

/-- The owner gives up copying the page back, and leaves the directory. -/
theorem Exact.abandonLatest (x : Exact a l) (h : Ok a l) (g : Abandons a b w q)
    (hepoch : q.epoch = a.epoch) (hdir : q.node ∉ b.dir)
    (hleft : ∀ n, b.left n = a.left n) : Exact b l := by
  have split := @Sets.cases _ _ a b w
  obtain ⟨hhad, sets, he, hx, hsub, -, hfirst, hlive⟩ := g
  have hacq := h.live_acq
  have hjoin := h.join_range w q hhad hfirst
  have hrange := h.first_range
  have hnode := h.node_unique
  obtain ⟨x1, x2, x3, x4, x5, x6, x7, x8⟩ := x
  have keep : ∀ w' q', w' ≠ w → a.acq w' = some q' → b.acq w' = some q' :=
    fun w' q' hne hw' => sets.keep hne hw'
  constructor
  all_goals grind

/-- A copy of the latest epoch is dropped, and its node leaves the directory. -/
theorem Exact.drop {n : Node} (x : Exact a l) (h : Ok a l) (g : Drops a b)
    (hn : ∃ c, a.live n = some c ∧ c.epoch = a.epoch)
    (hdir : ∀ m, m ∈ b.dir → m ∈ a.dir ∧ m ≠ n) (hlive : ∀ m, m ≠ n → b.live m = a.live m)
    (hleft : ∀ m, b.left m = a.left m) : Exact b l := by
  obtain ⟨hacq, he, hx, hsub, -⟩ := g
  have h2 := h.live_epoch
  have hrange := h.first_range
  obtain ⟨x1, x2, x3, x4, x5, x6, x7, x8⟩ := x
  constructor
  all_goals grind [Busy]

theorem Exact.handOver {n m : Node} (x : Exact a l) (h : Ok a l) (g : HandsOver a b n m)
    (hleft : ∀ k, b.left k = a.left k) : Exact b l := by
  have hmem : ∀ k, k ∈ b.dir ↔ k = m ∨ (k ∈ a.dir ∧ k ≠ n) := by simp [g.dir]
  obtain ⟨hacq, hhad, hne, ⟨hfree, hfree'⟩, he, hx, hgone, hlive, hother, -⟩ := g
  have h2 := h.live_epoch
  have hrange := h.first_range
  obtain ⟨x1, x2, x3, x4, x5, x6, x7, x8⟩ := x
  constructor
  all_goals grind [Busy]

end ScaleStore.Ledger
