/-
# One page behind one latch

For whoever uses guards, the frames of all nodes, the owner's directory and the
messages amount to a single page behind a single latch.  The latch is taken
exclusively or shared, or only remembered, and what has been remembered may
turn out to be out of date at any time; but as long as it is not, nobody has the
latch exclusively, on whatever node.

The machine refines this page step by step in all runs in which no frame is removed
against the owner's word, no READ is taken for complete before it has landed, no
conversion of an exclusive guard is disturbed and the page is not reclaimed.
-/

import ScaleStore.Lib.Refinement
import ScaleStore.Protocol.Fix
import ScaleStore.Protocol.LastWrite

namespace ScaleStore.Protocol

variable {W C : Type} {cfg : Config} {o : NodeID} {node : W → NodeID} {s s' : PageState W C}

/-! ## The page -/

/-- What a worker has of a page, and what it sees there. -/
inductive Grip (C : Type) where
  | none
  | exclusive (page : Option C)
  | shared (page : Option C)
  /-- The latch is remembered: whether a check would succeed now, and what was read last. -/
  | optimistic (valid : Bool) (seen : Option C)
  /-- The exclusive latch has been given back, and is to be taken again in shared mode. -/
  | downgrading (valid : Bool)

namespace Grip

/-- The worker may count on the page. -/
def Relies : Grip C → Prop
  | .none => False
  | .exclusive _ => True
  | .shared _ => True
  | .optimistic valid _ => valid = true
  | .downgrading valid => valid = true

def IsExclusive : Grip C → Prop
  | .exclusive _ => True
  | _ => False

/-- What is remembered may go out of date. -/
inductive Expires : Grip C → Grip C → Prop
  | same (g) : Expires g g
  | optimistic (seen) : Expires (.optimistic true seen) (.optimistic false seen)
  | downgrading : Expires (.downgrading true) (.downgrading false)

end Grip

structure LatchedPage (W C : Type) where
  /-- Nothing before the page is allocated. -/
  content : Option C
  grip : W → Grip C

section Page

variable [DecidableEq W]

def LatchedPage.hold (a : LatchedPage W C) (w : W) (g : Grip C) : LatchedPage W C :=
  { a with grip := Function.update a.grip w g }

inductive LatchedPage.Step (a : LatchedPage W C) : LatchedPage W C → Prop
  | allocate (w : W) (c : C) : a.content = none → (∀ u, a.grip u = .none) →
    Step a { a.hold w (.exclusive (some c)) with content := some c }
  | latchExclusive {w : W} : a.grip w = .none → (∀ u, ¬ (a.grip u).Relies) →
    Step a (a.hold w (.exclusive a.content))
  | latchShared {w : W} : a.grip w = .none → (∀ u, ¬ (a.grip u).IsExclusive) →
    Step a (a.hold w (.shared a.content))
  | remember {w : W} {g : Grip C} : a.grip w = .none → (∀ u, ¬ (a.grip u).IsExclusive) →
    g = .optimistic true none ∨ g = .downgrading true → Step a (a.hold w g)
  | write {w : W} {page : Option C} (c : C) : a.grip w = .exclusive page →
    Step a { a.hold w (.exclusive (some c)) with content := some c }
  /-- What is read through a guard that is out of date can be anything. -/
  | read {w : W} {valid : Bool} {seen : Option C} (c : C) : a.grip w = .optimistic valid seen →
    (valid = true → a.content = some c) → Step a (a.hold w (.optimistic valid (some c)))
  | exclusiveToShared {w : W} {page : Option C} : a.grip w = .exclusive page →
    Step a (a.hold w (.downgrading true))
  | exclusiveToOptimistic {w : W} {page : Option C} : a.grip w = .exclusive page →
    Step a (a.hold w (.optimistic true none))
  | sharedToOptimistic {w : W} {page : Option C} : a.grip w = .shared page →
    Step a (a.hold w (.optimistic true none))
  | optimisticToShared {w : W} {seen : Option C} : a.grip w = .optimistic true seen →
    Step a (a.hold w (.shared a.content))
  | downgraded {w : W} : a.grip w = .downgrading true → Step a (a.hold w (.shared a.content))
  | release (w : W) : Step a (a.hold w .none)
  | expire {grip : W → Grip C} : (∀ u, (a.grip u).Expires (grip u)) → Step a { a with grip }

/-- A page that nobody uses. -/
def latchedPage (W C : Type) [DecidableEq W] : System (LatchedPage W C) where
  Init a := ∀ w, a.grip w = .none
  Step := LatchedPage.Step

end Page

/-! ## What the machine shows of it -/

/-- The worker has no guard and remembers no version that it trusts. -/
def Pc.bare : Pc C → Bool
  | .guardX | .guardS _ | .guardO _ _ | .downgrade _ _ => false
  | _ => true

/-- The grip of a worker whose node has the page `page`, behind a latch at `version`. -/
def Pc.grip (page : Option C) (version : Nat) : Pc C → Grip C
  | .guardX => .exclusive page
  | .guardS _ => .shared page
  | .guardO v seen => .optimistic (decide (version = v)) seen
  | .downgrade v _ => .downgrading (decide (version = v))
  | _ => .none

/-- What the workers have of the page, and what its latest exclusive guard has left in it. -/
def PageState.latched (node : W → NodeID) (s : PageState W C) : LatchedPage W C where
  content := if s.known = true then some s.last else none
  grip w := (s.pc w).grip ((s.frame (node w)).bind fun f => f.page) (s.version (node w))

theorem Pc.grip_of_bare {p : Pc C} (h : p.bare = true) (page : Option C) (v : Nat) :
    p.grip page v = .none := by
  cases p <;> first | rfl | cases h

theorem Pc.guardX_of_isExclusive {p : Pc C} {page : Option C} {v : Nat}
    (h : (p.grip page v).IsExclusive) : p = .guardX := by
  cases p <;> first | rfl | exact h.elim

/-- Somebody who counts on the page remembers the current version of the latch, or has it. -/
theorem Pc.cases_of_relies {p : Pc C} {page : Option C} {v : Nat} (h : (p.grip page v).Relies) :
    p = .guardX ∨ p.shares = true ∨ (p.stamp = some v ∧ p.trusts = true) := by
  cases p with
  | guardX => exact .inl rfl
  | guardS => exact .inr (.inl rfl)
  | guardO v' | downgrade v' =>
    obtain rfl : v = v' := of_decide_eq_true h
    exact .inr (.inr ⟨rfl, rfl⟩)
  | _ => exact h.elim

theorem Nodes.stamp_le {u : W} {v : Nat} (h : Nodes o node s) (hst : (s.pc u).stamp = some v) :
    v ≤ s.version (node u) := by
  rcases (h (node u)).stamp u v rfl hst with hlt | ⟨heq, -⟩
  · exact hlt.le
  · exact heq.le

/-- While somebody has an exclusive guard, nobody else counts on the page. -/
theorem Coherent.not_relies {w u : W} {page : Option C} (h : Coherent o node s)
    (hpc : s.pc w = .guardX) (hu : u ≠ w) :
    ¬ ((s.pc u).grip page (s.version (node u))).Relies := by
  intro hr
  obtain ⟨f, hf, hh⟩ := (h.nodes (node w)).holds w rfl (by simp [hpc, Pc.latched])
  by_cases hn : node u = node w
  · -- on the node of the exclusive guard, nobody else has the latch
    rcases Pc.cases_of_relies hr with hX | hS | ⟨hst, -⟩
    · obtain ⟨g, hg, hh'⟩ := (h.nodes (node u)).holds u rfl (by simp [hX, Pc.latched])
      rw [hn, hf] at hg
      obtain rfl := Option.some.inj hg
      rw [hh] at hh'
      exact hu (by simpa using hh'.symm)
    · have hmem := ((h.nodes (node w)).readers f u hf).mpr ⟨hn, hS⟩
      rw [(h.nodes (node w)).excl f hf (by simp [hh])] at hmem
      exact absurd hmem (Finset.notMem_empty u)
    · obtain ⟨hfree, -⟩ := h.nodes.current hst rfl (hn ▸ hf)
      simp [hh] at hfree
  · have hex := h.excluded hpc hn
    rcases Pc.cases_of_relies hr with hX | hS | ⟨hst, htr⟩
    · exact hex.exclusive u rfl hX
    · obtain ⟨v, hv⟩ : ∃ v, s.pc u = .guardS v := by
        generalize s.pc u = p at hS
        cases p <;> first | exact ⟨_, rfl⟩ | cases hS
      exact hex.shared u v rfl hv
    · rcases (h.nodes (node u)).stamp u _ rfl hst with hlt | ⟨-, g, hg, hfree, -, hhot⟩
      · exact absurd hlt (Nat.lt_irrefl _)
      · exact hex.frame g hg ⟨(hhot htr).1, (hhot htr).2.1, hfree⟩

/-! ## Steps of the machine -/

/-- What a step does to the grip of the worker that takes it, whose node's latch goes from the
version `x` to the version `x'`. -/
inductive Pc.Turns (x x' : Nat) : Pc C → Pc C → Prop where
  | exclusive {p} : p.bare = true → Turns x x' p .guardX
  | shared {p v} : p.bare = true → Turns x x' p (.guardS v)
  | remember {p q v} : p.bare = true → v = x' → q = .guardO v none ∨ (∃ b, q = .downgrade v b) →
    Turns x x' p q
  | read {v a} (c : C) : x' = x → Turns x x' (.guardO v a) (.guardO v (some c))
  | exclusiveToShared {v b} : v = x' → Turns x x' .guardX (.downgrade v b)
  | exclusiveToOptimistic {v} : v = x' → Turns x x' .guardX (.guardO v none)
  | sharedToOptimistic {v v'} : Turns x x' (.guardS v) (.guardO v' none)
  | optimisticToShared {v a} : x = v → Turns x x' (.guardO v a) (.guardS v)
  | downgraded {v b} : x = v → Turns x x' (.downgrade v b) (.guardS v)
  | bare {p q} : q.bare = true → Turns x x' p q

section Steps

variable [DecidableEq W]

/-- What a step is for the grips of all workers. -/
inductive Turn (node : W → NodeID) (s s' : PageState W C) : Prop where
  | nobody : s'.pc = s.pc → s'.last = s.last → Turn node s s'
  | writes {w} : s.pc w = .guardX → s'.pc = s.pc → s'.version = s.version → Turn node s s'
  | goes {w q} : s'.pc = Function.update s.pc w q → s'.last = s.last →
    (s.pc w).Turns (s.version (node w)) (s'.version (node w)) q → Turn node s s'

theorem Turn.on {w : W} {p q : Pc C} (hpc : s.pc w = p) (hpc' : s'.pc = Function.update s.pc w q)
    (hlast : s'.last = s.last) (h : p.Turns (s.version (node w)) (s'.version (node w)) q) :
    Turn node s s' :=
  .goes hpc' hlast (hpc ▸ h)

theorem Enters.bare {n : NodeID} {g : GuardState} {t : Access} {e : Nat} {plan : Plan} {p : Pc C}
    (h : Enters n g t e plan p) : p.bare = true := by
  cases h <;> rfl

theorem WorkerStep.turn (hk : s.known = true) (h : Nodes o node s)
    (st : WorkerStep cfg o node s s') : Turn node s s' := by
  cases st with
  | start _ hpc | peek hpc | retry hpc | load hpc | copyAbandoned hpc | copyAbandonedLocal hpc
  | updateFailed hpc | updateDone hpc | releaseExclusive hpc | releaseShared hpc
  | releaseOptimistic hpc | completeDiscarded hpc =>
    exact .on hpc rfl rfl (.bare rfl)
  | insert c hpc =>
    refine .on hpc rfl rfl (.bare ?_)
    split <;> rfl
  | changeLocal c hpc _ _ _ _ _ hent => exact .on hpc rfl rfl (.bare hent.bare)
  | changeRemote hpc => exact .on hpc rfl rfl (.bare rfl)
  | receive hpc _ _ hent | updateConflict hpc _ _ hent | copyAgain hpc _ _ hent =>
    exact .on hpc rfl rfl (.bare hent.bare)
  | downgradeFailed hpc =>
    refine .on hpc rfl rfl (.bare ?_)
    split <;> rfl
  | reclaimPage _ hpc => exact .on hpc rfl rfl (.bare rfl)
  | hitExclusive hpc | completeExclusive hpc => exact .on hpc rfl rfl (.exclusive rfl)
  | hitShared hpc => exact .on hpc rfl rfl (.shared rfl)
  | hitOptimistic hpc _ hv => exact .on hpc rfl rfl (.remember rfl hv.symm (.inl rfl))
  | completeShared hpc =>
    refine .on hpc rfl rfl (.remember rfl ?_ (.inr ⟨_, rfl⟩))
    simp
  | completeOptimistic hpc =>
    refine .on hpc rfl rfl (.remember rfl ?_ (.inl rfl))
    simp
  | downgraded hpc _ hv => exact .on hpc rfl rfl (.downgraded hv)
  | read c hpc => exact .on hpc rfl rfl (.read c rfl)
  | exclusiveToShared hpc =>
    refine .on hpc rfl rfl (.exclusiveToShared ?_)
    simp
  | exclusiveToOptimistic hpc =>
    refine .on hpc rfl rfl (.exclusiveToOptimistic ?_)
    simp
  | sharedToOptimistic hpc => exact .on hpc rfl rfl .sharedToOptimistic
  | optimisticToShared hpc _ _ hv => exact .on hpc rfl rfl (.optimisticToShared hv)
  | undo => exact .nobody rfl rfl
  | @write w f c hpc hf =>
    refine .writes hpc rfl ?_
    funext n
    by_cases hn : n = node w <;> simp [PageState.setFrame, hn]
  | newPage c hk' => simp [hk] at hk'
  | @allocate w c hpc => exact absurd hpc ((h (node w)).allocated w rfl)

theorem HandlerStep.turn (hk : s.known = true) (st : HandlerStep o node s s') :
    Turn node s s' := by
  cases st with
  | requestLoad | loaded | invalidateRetry | updateRetry => exact .nobody rfl rfl
  | request hpc | copy hpc | copyFailed hpc | update hpc | updateFailed hpc =>
    exact .on hpc rfl rfl (.bare rfl)
  | move hpc _ _ _ _ hent => exact .on hpc rfl rfl (.bare hent.bare)
  | invalidate hpc _ _ _ _ _ hent => exact .on hpc rfl rfl (.bare hent.bare)
  | allocation hk' => simp [hk] at hk'

theorem Step.turn (hk : s.known = true) (h : Nodes o node s) (st : Step cfg o node s s') :
    Turn node s s' := by
  cases st with
  | worker st => exact st.turn hk h
  | handler st => exact st.turn hk
  | provider st => cases st <;> exact .nobody rfl rfl

end Steps

/-! ## Refinement -/

theorem Pc.grip_expires {p : Pc C} {page : Option C} {x x' : Nat}
    (hst : ∀ v, p.stamp = some v → v ≤ x) (hx : x ≤ x') :
    (p.grip page x).Expires (p.grip page x') := by
  -- a version that is current afterwards has been current before
  have hcurrent : ∀ v, p.stamp = some v → decide (x = v) = decide (x' = v) ∨
      (decide (x = v) = true ∧ decide (x' = v) = false) := by
    intro v hv
    have hle := hst v hv
    by_cases hxv : x = v
    · by_cases hxv' : x' = v
      · exact .inl (by simp [hxv, hxv'])
      · exact .inr ⟨by simp [hxv], by simp [hxv']⟩
    · have hxv' : x' ≠ v := by omega
      exact .inl (by simp [hxv, hxv'])
  cases p with
  | guardO v seen =>
    rcases hcurrent v rfl with heq | ⟨ht, hf⟩
    · simp only [grip, heq]
      exact .same _
    · simp only [grip, ht, hf]
      exact .optimistic seen
  | downgrade v =>
    rcases hcurrent v rfl with heq | ⟨ht, hf⟩
    · simp only [grip, heq]
      exact .same _
    · simp only [grip, ht, hf]
      exact .downgrading
  | _ => exact .same _

theorem Pc.grip_page {p : Pc C} {page : Option C} {x : Nat} (h : ¬ (p.grip page x).Relies)
    (page' : Option C) : p.grip page' x = p.grip page x := by
  cases p with
  | guardX | guardS => exact absurd trivial h
  | _ => rfl

theorem SeesLast.latched_grip (h : SeesLast node s) (w : W) :
    (s.latched node).grip w = (s.pc w).grip (some s.last) (s.version (node w)) := by
  show (s.pc w).grip _ _ = _
  rcases hpc : s.pc w
  case guardX =>
    obtain ⟨f, hf, hpage⟩ := h.exclusive w hpc
    simp [Pc.grip, hf, hpage]
  case guardS v =>
    obtain ⟨f, hf, hpage⟩ := h.shared w v hpc
    simp [Pc.grip, hf, hpage]
  all_goals rfl

section Refinement

variable [DecidableEq W] {a : LatchedPage W C} {w : W}

/-- The step of the page that a step of the worker amounts to, when the others have already gone
where they go. -/
theorem Pc.Turns.refines {p q : Pc C} {x x' : Nat} {c : C} (h : p.Turns x x' q)
    (hc : a.content = some c) (hw : a.grip w = p.grip (some c) x)
    (hX : q = .guardX → ∀ u, u ≠ w → ¬ (a.grip u).Relies)
    (hS : (q.grip (some c) x').Relies → ∀ u, u ≠ w → ¬ (a.grip u).IsExclusive)
    (hread : ∀ v c', q = .guardO v (some c') → x' = v → c' = c) :
    Relation.ReflTransGen LatchedPage.Step a (a.hold w (q.grip (some c) x')) := by
  have hfree : p.bare = true → a.grip w = .none := fun hb => hw.trans (Pc.grip_of_bare hb _ _)
  have hnotX : p.bare = true → (q.grip (some c) x').Relies → ∀ u, ¬ (a.grip u).IsExclusive := by
    intro hb hr u
    by_cases hu : u = w
    · rw [hu, hfree hb]
      exact id
    · exact hS hr u hu
  cases h with
  | exclusive hb =>
    rw [Pc.grip, ← hc]
    refine .single (.latchExclusive (hfree hb) fun u => ?_)
    by_cases hu : u = w
    · rw [hu, hfree hb]
      exact id
    · exact hX rfl u hu
  | shared hb =>
    rw [Pc.grip, ← hc]
    exact .single (.latchShared (hfree hb) (hnotX hb trivial))
  | remember hb hv hq =>
    subst hv
    rcases hq with rfl | ⟨b, rfl⟩
    · refine .single (.remember (hfree hb) (hnotX hb ?_) (.inl ?_)) <;> simp [Pc.grip, Grip.Relies]
    · refine .single (.remember (hfree hb) (hnotX hb ?_) (.inr ?_)) <;> simp [Pc.grip, Grip.Relies]
  | @read v a' c' hx =>
    subst hx
    refine .single (.read c' hw fun hvalid => ?_)
    rw [hc, hread v c' rfl (of_decide_eq_true hvalid)]
  | exclusiveToShared hv =>
    simp only [Pc.grip, hv, decide_true]
    exact .single (.exclusiveToShared hw)
  | exclusiveToOptimistic hv =>
    simp only [Pc.grip, hv, decide_true]
    exact .single (.exclusiveToOptimistic hw)
  | @sharedToOptimistic v v' =>
    -- the version that is remembered need not be the current one
    have hto : LatchedPage.Step a (a.hold w (.optimistic true none)) := .sharedToOptimistic hw
    by_cases hv : x' = v'
    · simp only [Pc.grip, hv, decide_true]
      exact .single hto
    · simp only [Pc.grip, hv, decide_false]
      refine .tail (.single hto) (.expire fun u => ?_)
      by_cases hu : u = w
      · subst hu
        simp only [LatchedPage.hold, Function.update_self]
        exact .optimistic none
      · simp only [LatchedPage.hold, Function.update_of_ne hu]
        exact .same _
  | @optimisticToShared v seen hv =>
    simp only [Pc.grip, hv, decide_true] at hw ⊢
    rw [← hc]
    exact .single (.optimisticToShared hw)
  | downgraded hv =>
    simp only [Pc.grip, hv, decide_true] at hw ⊢
    rw [← hc]
    exact .single (.downgraded hw)
  | bare hb =>
    rw [Pc.grip_of_bare hb]
    exact .single (.release w)

/-- First the others go where they go, then the worker does. -/
theorem LatchedPage.expire_others {b : LatchedPage W C} (hc : b.content = a.content)
    (h : ∀ u, u ≠ w → (a.grip u).Expires (b.grip u)) :
    ∃ mid : LatchedPage W C, a.Step mid ∧ mid.content = a.content ∧ mid.grip w = a.grip w ∧
      (∀ u, u ≠ w → mid.grip u = b.grip u) ∧ mid.hold w (b.grip w) = b := by
  refine ⟨{ a with grip := Function.update b.grip w (a.grip w) }, .expire fun u => ?_, rfl,
    Function.update_self .., fun u hu => Function.update_of_ne hu .., ?_⟩
  · by_cases hu : u = w
    · rw [hu, Function.update_self]
      exact .same _
    · rw [Function.update_of_ne hu]
      exact h u hu
  · rw [hold, Function.update_idem, Function.update_eq_self, ← hc]

/-- A step on a page that has been handed out. -/
theorem Intact.refines (hk : s.known = true) (h : Intact o node s) (h' : Intact o node s')
    (st : Step cfg o node s s') :
    Relation.ReflTransGen LatchedPage.Step (s.latched node) (s'.latched node) := by
  have hk' := st.known hk
  obtain ⟨ha, hcont⟩ := h.known hk
  obtain ⟨ha', hcont'⟩ := h'.known hk'
  have hco := ha.coherent
  have hco' := ha'.coherent
  have hgrip := (hcont.seesLast hco.nodes).latched_grip
  have hgrip' := (hcont'.seesLast hco'.nodes).latched_grip
  have hcontent : (s.latched node).content = some s.last := if_pos hk
  have hcontent' : (s'.latched node).content = some s'.last := if_pos hk'
  -- whoever does not move keeps the grip, unless it goes out of date
  have hstay : ∀ u, s'.pc u = s.pc u → s'.last = s.last →
      ((s.latched node).grip u).Expires ((s'.latched node).grip u) := by
    intro u hpc hlast
    rw [hgrip, hgrip', hpc, hlast]
    exact Pc.grip_expires (fun v hv => hco.nodes.stamp_le hv) (st.version_le (node u))
  have heq' : s'.latched node = ⟨some s'.last, (s'.latched node).grip⟩ := by
    rw [← hcontent']
  cases st.turn hk hco.nodes with
  | nobody hpc hlast =>
    rw [heq', hlast, ← hcontent]
    exact .single (.expire fun u => hstay u (congrFun hpc u) hlast)
  | @writes w hpcw hpc hver =>
    have hpage : (s'.latched node).grip =
        Function.update (s.latched node).grip w (.exclusive (some s'.last)) := by
      funext u
      rw [hgrip', hpc, hver]
      by_cases hu : u = w
      · rw [hu, hpcw, Function.update_self]
        rfl
      · rw [Function.update_of_ne hu, hgrip]
        exact Pc.grip_page (hco.not_relies hpcw hu) _
    rw [heq', hpage]
    exact .single (.write s'.last ((hgrip w).trans (by rw [hpcw]; rfl)))
  | @goes w q hpc hlast hturn =>
    have hq : s'.pc w = q := by rw [hpc, Function.update_self]
    have hother : ∀ u, u ≠ w → s'.pc u = s.pc u := fun u hu => by
      rw [hpc, Function.update_of_ne hu]
    obtain ⟨mid, hexpire, hmid, hself, hothers, hend⟩ :=
      LatchedPage.expire_others (w := w) (hcontent'.trans (hlast ▸ hcontent.symm))
        fun u hu => hstay u (hother u hu) hlast
    have hmoves := hturn.refines (hmid.trans hcontent) (hself.trans (hgrip w)) ?_ ?_ ?_
    · rw [← hq, ← hlast, ← hgrip', hend] at hmoves
      exact .head hexpire hmoves
    · intro hX u hu
      rw [hothers u hu, hgrip']
      exact hco'.not_relies (hq.trans hX) hu
    · intro hr u hu hX
      rw [hothers u hu, hgrip'] at hX
      rw [← hq] at hr
      exact hco'.not_relies (Pc.guardX_of_isExclusive hX) (Ne.symm hu) hr
    · intro v c' hv hx
      rw [← hlast]
      exact (hcont'.seesLast hco'.nodes).optimistic w v c' (hq.trans hv) hx

omit [DecidableEq W] in
/-- Before the page is handed out, nobody has anything of it. -/
theorem Fresh.latched (hk : s.known = false) (h : Fresh o node s) :
    s.latched node = ⟨none, fun _ => .none⟩ := by
  have hgrip : (s.latched node).grip = fun _ => .none := by
    funext u
    refine Pc.grip_of_bare ?_ _ _
    rcases h.pc u with hpc | hpc <;> rw [hpc] <;> rfl
  rw [← hgrip]
  simp [PageState.latched, hk]

theorem Fresh.refines (hk : s.known = false) (h : Fresh o node s) (st : Step cfg o node s s') :
    Relation.ReflTransGen LatchedPage.Step (s.latched node) (s'.latched node) := by
  rw [h.latched hk]
  rcases h.step hk st with ⟨hk', h', -⟩ | ⟨hk', -, w, hpc, ⟨f, hf, hpage⟩, -, hidle⟩
  · rw [h'.latched hk']
  · have hend : s'.latched node = { (LatchedPage.hold ⟨none, fun _ => .none⟩ w
        (.exclusive (some s'.last))) with content := some s'.last } := by
      have hgrip : (s'.latched node).grip =
          Function.update (fun _ => .none) w (.exclusive (some s'.last)) := by
        funext u
        by_cases hu : u = w
        · rw [hu, Function.update_self]
          simp [PageState.latched, hpc, Pc.grip, hf, hpage]
        · rw [Function.update_of_ne hu]
          simp [PageState.latched, hidle u hu, Pc.grip]
      rw [LatchedPage.hold, ← hgrip]
      simp [PageState.latched, hk']
    rw [hend]
    exact .single (.allocate w s'.last rfl fun _ => rfl)

/-! ## The whole store -/

/-- An exclusive guard that is to become a shared one does not get the latch back.  The machine lets
go of the latch then; the program does not always do so. -/
def Disturbs (s s' : PageState W C) : Prop :=
  ∃ w v, s.pc w = .downgrade v false ∧ s'.pc w = .idle

/-- Steps that keep the frames as the owner says and do not reclaim the page, overlook no READ and
disturb no conversion. -/
structure Smooth (cfg : Config) (node : W → NodeID) (s s' : PageState W C) : Prop where
  keeps : Keeps cfg node s s'
  landed : ¬ Overlooks s s'
  undisturbed : ¬ Disturbs s s'

section Store

variable {PID : Type} [DecidableEq PID] {owner : PID → NodeID} {σ τ : PID → PageState W C}

/-- The runs of the store in which all this holds of every page. -/
def smooth (cfg : Config) (owner : PID → NodeID) (node : W → NodeID) :
    System (PID → PageState W C) :=
  (world cfg owner node).restrict fun σ σ' => ∀ p, Smooth cfg node (σ p) (σ' p)

theorem smooth_intact (h : (smooth cfg owner node).Reachable σ) (p : PID) :
    Intact (owner p) node (σ p) :=
  keeping_intact (h.weaken fun _ _ hs => ⟨(hs p).keeps, fun q => (hs q).landed⟩)

/-- Every step is one of the machine of a page. -/
theorem smooth_step (h : (smooth cfg owner node).Reachable σ)
    (st : (smooth cfg owner node).Step σ τ) :
    ∃ p s', Step cfg (owner p) node (σ p) s' ∧ τ = Function.update σ p s' := by
  obtain ⟨⟨p, s', hst, rfl⟩, -⟩ := st
  cases hst with
  | step hst => exact ⟨p, s', hst, rfl⟩
  | overwritten ha => simp [nothing_astray h (fun _ _ hs q => (hs q).landed)] at ha

theorem Intact.latched (h : Intact o node s) (h' : Intact o node s') (st : Step cfg o node s s') :
    Relation.ReflTransGen LatchedPage.Step (s.latched node) (s'.latched node) := by
  cases hk : s.known with
  | true => exact h.refines hk h' st
  | false => exact (h.fresh hk).1.refines hk st

/-- The store as its users see it: one page behind one latch for each PID, whatever nodes there
are, whoever owns the pages, and however they are moved, copied, invalidated and evicted. -/
theorem store_refines_latched_pages (cfg : Config) (owner : PID → NodeID) (node : W → NodeID) :
    (smooth (C := C) cfg owner node).Refines (System.beside fun _ => latchedPage W C)
      fun σ p => (σ p).latched node := by
  refine .beside ?_ ?_
  · intro σ hσ p w
    exact Pc.grip_of_bare (by rw [(hσ p).pc w]; rfl) _ _
  · intro σ τ hσ hst
    obtain ⟨p, s', hpage, rfl⟩ := smooth_step hσ hst
    have hi' := smooth_intact (hσ.step hst) p
    rw [Function.update_self] at hi'
    exact ⟨p, s', rfl, (smooth_intact hσ p).latched hi' hpage⟩

/-! ## Snapshots -/

/-- The worker keeps the version `v` that it remembers of the page, through all conversions. -/
def PageState.Remembers (s : PageState W C) (w : W) (v : Nat) : Prop :=
  (s.pc w).stamp = some v ∧ (s.pc w).trusts = true

omit [DecidableEq W] in
theorem Intact.coherent_of_remembers {v : Nat} (h : Intact o node s) (hr : s.Remembers w v) :
    s.known = true ∧ Coherent o node s := by
  cases hk : s.known with
  | true => exact ⟨rfl, (h.known hk).1.coherent⟩
  | false =>
    obtain ⟨hst, -⟩ := hr
    rcases (h.fresh hk).1.pc w with hpc | hpc <;> simp [hpc, Pc.stamp] at hst

omit [DecidableEq W] in
/-- A version that is remembered and current keeps everybody from writing. -/
theorem Intact.nobody_writes {v : Nat} (h : Intact o node s) (hr : s.Remembers w v)
    (hv : s.version (node w) = v) (u : W) : s.pc u ≠ .guardX := by
  intro hpc
  obtain ⟨hst, htr⟩ := hr
  have hu : w ≠ u := by
    rintro rfl
    simp [hpc, Pc.stamp] at hst
  have hrelies : ((s.pc w).grip none (s.version (node w))).Relies := by
    rw [hv]
    generalize s.pc w = p at hst htr
    cases p with
    | guardS => exact trivial
    | guardO | downgrade =>
      obtain rfl := Option.some.inj hst
      exact decide_eq_true rfl
    | peek => cases htr
    | _ => cases hst
  exact (h.coherent_of_remembers ⟨hst, htr⟩).2.not_relies hpc hu hrelies

theorem Intact.last_stays {v : Nat} (h : Intact o node s) (hr : s.Remembers w v)
    (hv : s.version (node w) = v) (st : Step cfg o node s s') : s'.last = s.last := by
  obtain ⟨hk, hco⟩ := h.coherent_of_remembers hr
  cases st.turn hk hco.nodes with
  | nobody _ hlast => exact hlast
  | goes _ hlast => exact hlast
  | writes hpc => exact absurd hpc (h.nobody_writes hr hv _)

/-- From the moment at which a worker gets a version of the page to the last one at which this is
the current one, nobody on any node has the page exclusively, it stays what it is, and all that
the worker reads of it is what it is in the end. -/
theorem remembered_page_stays {p : PID} {v : Nat} (h : (smooth cfg owner node).Reachable σ)
    (hσ : (σ p).Remembers w v)
    (hrun : Relation.ReflTransGen (fun a b => (smooth cfg owner node).Step a b ∧
      (b p).Remembers w v) σ τ)
    (hvalid : (τ p).version (node w) = v) :
    (∀ u, (σ p).pc u ≠ .guardX) ∧ (σ p).last = (τ p).last ∧
      ∀ c, (σ p).pc w = .guardO v (some c) → c = (τ p).last := by
  -- the version has been the current one all the time
  have hkeep : (σ p).version (node w) = v ∧ (σ p).last = (τ p).last := by
    induction hrun using Relation.ReflTransGen.head_induction_on with
    | refl => exact ⟨hvalid, rfl⟩
    | @head σ σ' hst _ ih =>
      obtain ⟨hv, hlast⟩ := ih (h.step hst.1) hst.2
      have hi := smooth_intact h p
      obtain ⟨q, s', hpage, rfl⟩ := smooth_step h hst.1
      by_cases hq : p = q
      · subst hq
        rw [Function.update_self] at hv hlast
        have hle := (hi.coherent_of_remembers hσ).2.nodes.stamp_le hσ.1
        have hgrow := hpage.version_le (node w)
        have hcurrent : (σ p).version (node w) = v := by omega
        exact ⟨hcurrent, (hi.last_stays hσ hcurrent hpage).symm.trans hlast⟩
      · rw [Function.update_of_ne hq] at hv hlast
        exact ⟨hv, hlast⟩
  obtain ⟨hv, hlast⟩ := hkeep
  have hi := smooth_intact h p
  obtain ⟨hk, hco⟩ := hi.coherent_of_remembers hσ
  refine ⟨hi.nobody_writes hσ hv, hlast, fun c hpc => ?_⟩
  rw [← hlast]
  exact ((hi.known hk).2.seesLast hco.nodes).optimistic w v c hpc hv

end Store

end Refinement

/-- The page of `newPageState` has been read after a downgrade. -/
def readPageState : PageState Unit Nat :=
  ((newPageState.setFrame 0 (some { newFrame 0 () 7 with holder := none }) 2).setPc ()
    (.guardO 4 none)).setPc () (.guardO 4 (some 7))

/-- Then the page provider has written it to the SSD. -/
def writtenPageState : PageState Unit Nat :=
  { readPageState.setFrame 0
      (some { newFrame 0 () 7 with holder := none, dirty := false }) 0 with disk := 7 }

theorem smooth_of_idle (hp : ∀ n, s.provider n = .idle) (ha : s'.astray = false)
    (hd : ∀ w v, s.pc w ≠ .downgrade v false) : Smooth ⟨true, true, false⟩ node s s' := by
  refine ⟨⟨not_staleRemoval fun n => by simp [hp n], fun hr => by cases hr⟩, ?_, ?_⟩
  · rintro ⟨-, ha'⟩
    simp [ha] at ha'
  · rintro ⟨w, v, hpc, -⟩
    exact hd w v hpc

/-- A step of the only page there is. -/
theorem smooth_of_step [DecidableEq W] (hst : Step ⟨true, true, false⟩ o node s s')
    (hp : ∀ n, s.provider n = .idle)
    (ha : s'.astray = false) (hd : ∀ w v, s.pc w ≠ .downgrade v false) :
    (smooth ⟨true, true, false⟩ (fun _ : Unit => o) node).Step (fun _ => s) fun _ => s' := by
  refine ⟨⟨(), s', .step hst, ?_⟩, fun _ => smooth_of_idle hp ha hd⟩
  funext p
  simp

theorem readPageState_reachable :
    (smooth ⟨true, true, false⟩ (fun _ : Unit => 0) fun _ : Unit => 0).Reachable
      fun _ => readPageState := by
  have hnew : (smooth ⟨true, true, false⟩ (fun _ : Unit => 0) fun _ : Unit => 0).Reachable
      fun _ => newPageState :=
    .step (.init fun _ => PageState.start_init 0 false)
      (smooth_of_step (.worker (.newPage (w := ()) 7 rfl rfl rfl rfl)) (fun _ => rfl) rfl
        (by simp [PageState.start]))
  have hdowngraded := hnew.step (smooth_of_step (.worker (.exclusiveToOptimistic (w := ())
    (f := newFrame 0 () 7) (by simp [newPageState]) (by simp [newPageState]))) (fun _ => rfl) rfl
    (by simp [newPageState]))
  have hpc : ((newPageState.setFrame 0 (some { newFrame 0 () 7 with holder := none }) 2).setPc ()
      (.guardO 4 none)).pc () = .guardO 4 none := by simp
  have hread : Step ⟨true, true, false⟩ 0 (fun _ : Unit => 0)
      ((newPageState.setFrame 0 (some { newFrame 0 () 7 with holder := none }) 2).setPc ()
        (.guardO 4 none)) readPageState :=
    .worker (.read (w := ()) 7 hpc fun _ =>
      ⟨{ newFrame 0 () 7 with holder := none }, by simp [newPageState], rfl⟩)
  exact hdowngraded.step (smooth_of_step hread (fun _ => rfl) rfl (by simp))

theorem remembered_page_stays_written : (∀ u, readPageState.pc u ≠ .guardX) ∧
    readPageState.last = writtenPageState.last ∧
      ∀ c, readPageState.pc () = .guardO 4 (some c) → c = writtenPageState.last := by
  have hremembers : readPageState.Remembers () 4 ∧ writtenPageState.Remembers () 4 := by
    simp [PageState.Remembers, readPageState, writtenPageState, Pc.stamp, Pc.trusts]
  have hwrite : Step ⟨true, true, false⟩ 0 (fun _ : Unit => 0) readPageState writtenPageState :=
    .provider (.writeBack (f := { newFrame 0 () 7 with holder := none }) (x := 7) rfl rfl
      (by simp [readPageState]) rfl rfl rfl rfl)
  have hrun : Relation.ReflTransGen (fun a b => (smooth ⟨true, true, false⟩ (fun _ : Unit => 0)
      fun _ : Unit => 0).Step a b ∧ (b ()).Remembers () 4)
      (fun _ => readPageState) fun _ => writtenPageState :=
    .single ⟨smooth_of_step hwrite (fun _ => rfl) rfl (by simp [readPageState]), hremembers.2⟩
  exact @remembered_page_stays _ _ _ _ _ () _ _ (fun _ => 0) (fun _ => readPageState)
    (fun _ => writtenPageState) () 4 readPageState_reachable hremembers.1 hrun
    (by simp [writtenPageState, readPageState, newPageState, PageState.start])

end ScaleStore.Protocol
