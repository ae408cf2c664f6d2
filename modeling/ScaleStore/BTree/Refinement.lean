/-
# The tree refines an ordered map

Calls made one after another on a fresh tree, against the same calls on a finite
ordered map.  A call that runs out of its step budget has no outcome; the
theorem says that some budget is enough for the whole sequence, and that then
every call answers what the map answers.
-/

import ScaleStore.BTree.Scan

namespace ScaleStore.BTree

universe u v

variable {K : Type u} {V : Type v}

/-- The calls of the interface. -/
inductive Op (K : Type u) (V : Type v)
  | insert (k : K) (v : V)
  | remove (k : K)
  | lookup (k : K)
  | lookup_opt (k : K)
  | lookupAndUpdate (k : K) (callback : V → V)
  | scan (dir : Direction) (func : Callback K V) (k : K)

/-- What a caller observes; `raised` is the exception of a failed `ensure`, and
`handed` is what a scan gave to its callback. -/
inductive Answer (K : Type u) (V : Type v)
  | done
  | removed (wasBound : Bool)
  | value (v : V)
  | raised
  | handed (entries : List (K × V))
  deriving DecidableEq, Repr

variable [LinearOrder K] [Inhabited K]

/-- Outcome of a call: none when the budget ran out; an exception leaves the
heap as it was. -/
def outcome {α : Type*} (h : Heap K V) (r : Except Fault α) (ok : α → Heap K V × Answer K V) :
    Option (Heap K V × Answer K V) :=
  match r with
  | .ok a => some (ok a)
  | .error .ensure => some (h, .raised)
  | .error .fuel => none

/-- One call on the tree at `entry`. -/
def exec (c : Capacity) (entry : PID) (fuel : Nat) (h : Heap K V) :
    Op K V → Option (Heap K V × Answer K V)
  | .insert k v => outcome h (insert c entry k v fuel h) fun h' => (h', .done)
  | .remove k => outcome h (remove c entry h k fuel) fun (h', b) => (h', .removed b)
  | .lookup k => outcome h (lookup entry h k) fun v => (h, .value v)
  | .lookup_opt k => outcome h (lookup_opt entry h k) fun v => (h, .value v)
  | .lookupAndUpdate k f => outcome h (lookupAndUpdate entry h k f) fun h' => (h', .done)
  | .scan dir func k => outcome h (scan entry dir func fuel h k) fun s => (h, .handed s)

/-- Calls one after another, with all their answers. -/
def run (c : Capacity) (entry : PID) (fuel : Nat) :
    Heap K V → List (Op K V) → Option (Heap K V × List (Answer K V))
  | h, [] => some (h, [])
  | h, op :: ops =>
      match exec c entry fuel h op with
      | none => none
      | some (h', a) =>
          match run c entry fuel h' ops with
          | none => none
          | some (h'', as) => some (h'', a :: as)

/-! ## The ordered map -/

omit [Inhabited K] in
/-- The same call on an ordered map. -/
def specStep (m : OrderedMap K V) : Op K V → OrderedMap K V × Answer K V
  | .insert k v => (m.insert k v, .done)
  | .remove k => (m.erase k, .removed (m.find k).isSome)
  | .lookup k | .lookup_opt k =>
      match m.find k with
      | some v => (m, .value v)
      | none => (m, .raised)
  | .lookupAndUpdate k f =>
      match m.find k with
      | some v => (m.insert k (f v), .done)
      | none => (m, .raised)
  | .scan dir func k => (m, .handed (feed func [] (OrderedMap.range dir m k)).1)

omit [Inhabited K] in
def specRun : OrderedMap K V → List (Op K V) → OrderedMap K V × List (Answer K V)
  | m, [] => (m, [])
  | m, op :: ops =>
      let (m', a) := specStep m op
      let (m'', as) := specRun m' ops
      (m'', a :: as)

/-! ## The simulation -/

variable {c : Capacity} {entry root : PID} {h : Heap K V} {G : Layout K} {height : Nat}
  {m : OrderedMap K V}

omit [Inhabited K] in
theorem Abstracts.insert (hm : Abstracts h G m) {h' : Heap K V} {G' : Layout K} {k : K} {v : V}
    (hupd : BindsUpdate h h' G G' k v) : Abstracts h' G' (m.insert k v) := by
  intro j w
  rw [OrderedMap.mem_insert, hupd j w, ← hm j w]
  simp [and_comm]

omit [Inhabited K] in
theorem Abstracts.erase (hm : Abstracts h G m) {h' : Heap K V} {G' : Layout K} {k : K}
    (herase : BindsErase h h' G G' k) : Abstracts h' G' (m.erase k) := by
  intro j w
  rw [OrderedMap.mem_erase, herase j w, ← hm j w]
  simp [and_comm]

omit [Inhabited K] in
theorem Abstracts.find_some (hm : Abstracts h G m) {k : K} {v : V} (hb : Binds h G k v) :
    m.find k = some v :=
  (m.find_eq_some_iff k v).mpr ((hm k v).mpr hb)

omit [Inhabited K] in
theorem Abstracts.find_none (hm : Abstracts h G m) {k : K} (hb : ∀ v, ¬ Binds h G k v) :
    m.find k = none :=
  (m.find_eq_none_iff k).mpr fun v hv => hb v ((hm k v).mp hv)

/-- One call on a tree that stores `m` answers as `m` does, and stores the next
map afterwards. -/
theorem TreeInv.exec_refines (inv : TreeInv c entry h G root height) (hm : Abstracts h G m)
    (op : Op K V) :
    ∃ h' G' root' height' bound,
      (∀ fuel, bound ≤ fuel → exec c entry fuel h op = some (h', (specStep m op).2)) ∧
      TreeInv c entry h' G' root' height' ∧ Abstracts h' G' (specStep m op).1 := by
  have hlookup : ∀ k, ∃ a, outcome h (BTree.lookup entry h k) (fun v => (h, .value v)) =
      some (h, a) ∧ specStep m (.lookup k) = (m, a) := by
    intro k
    rcases inv.lookup k with ⟨v, hrun, hb⟩ | ⟨hrun, hb⟩
    · exact ⟨.value v, by simp [outcome, hrun], by simp [specStep, hm.find_some hb]⟩
    · exact ⟨.raised, by simp [outcome, hrun], by simp [specStep, hm.find_none hb]⟩
  cases op with
  | insert k v =>
      obtain ⟨h', G', root', height', bound, hrun, hinv, hupd⟩ := inv.insert k v
      refine ⟨h', G', root', height', bound, ?_, hinv, hm.insert hupd⟩
      intro fuel hfuel
      simp [exec, outcome, hrun fuel hfuel, specStep]
  | remove k =>
      obtain ⟨h', G', b, hrun, hinv, herase, hb⟩ := inv.remove k
      refine ⟨h', G', root, height, height + 1, ?_, hinv, hm.erase herase⟩
      intro fuel hfuel
      have hans : b = (m.find k).isSome := by
        rw [Bool.eq_iff_iff, hb, Option.isSome_iff_exists]
        exact exists_congr fun v => by rw [m.find_eq_some_iff, hm k v]
      simp [exec, outcome, hrun fuel hfuel, specStep, hans]
  | lookup k =>
      obtain ⟨a, hrun, hspec⟩ := hlookup k
      rw [hspec]
      exact ⟨h, G, root, height, 0, fun fuel _ => hrun, inv, hm⟩
  | lookup_opt k =>
      obtain ⟨a, hrun, hspec⟩ := hlookup k
      have hspec' : specStep m (.lookup_opt k) = (m, a) := hspec
      rw [hspec']
      exact ⟨h, G, root, height, 0, fun fuel _ => hrun, inv, hm⟩
  | lookupAndUpdate k f =>
      rcases inv.lookupAndUpdate k f with ⟨v, h', hrun, hb, hinv, hupd⟩ | ⟨hrun, hb⟩
      · have hspec : specStep m (.lookupAndUpdate k f) = (m.insert k (f v), .done) := by
          simp [specStep, hm.find_some hb]
        rw [hspec]
        refine ⟨h', G, root, height, 0, ?_, hinv, hm.insert hupd⟩
        intro fuel _
        simp [exec, outcome, hrun]
      · have hspec : specStep m (.lookupAndUpdate k f) = (m, .raised) := by
          simp [specStep, hm.find_none hb]
        rw [hspec]
        refine ⟨h, G, root, height, 0, ?_, inv, hm⟩
        intro fuel _
        simp [exec, outcome, hrun]
  | scan dir func k =>
      obtain ⟨bound, hrun⟩ := inv.scan hm dir func k
      refine ⟨h, G, root, height, bound, ?_, inv, hm⟩
      intro fuel hfuel
      simp [exec, outcome, hrun fuel hfuel, specStep]

theorem TreeInv.run_refines (inv : TreeInv c entry h G root height) (hm : Abstracts h G m)
    (ops : List (Op K V)) :
    ∃ h' G' root' height' bound,
      (∀ fuel, bound ≤ fuel → run c entry fuel h ops = some (h', (specRun m ops).2)) ∧
      TreeInv c entry h' G' root' height' ∧ Abstracts h' G' (specRun m ops).1 := by
  induction ops generalizing h G root height m with
  | nil => exact ⟨h, G, root, height, 0, fun _ _ => rfl, inv, hm⟩
  | cons op ops ih =>
      obtain ⟨h₁, G₁, root₁, height₁, bound₁, hexec, hinv₁, hm₁⟩ := inv.exec_refines hm op
      obtain ⟨h', G', root', height', bound₂, hrun, hinv', hm'⟩ := ih hinv₁ hm₁
      refine ⟨h', G', root', height', max bound₁ bound₂, ?_, hinv', hm'⟩
      intro fuel hfuel
      rw [run, hexec fuel (by omega)]
      simp only [hrun fuel (by omega), specRun]

/-- The tree the constructor builds satisfies the invariant and is empty. -/
theorem create_inv (c : Capacity) : ∃ G : Layout K,
    TreeInv c entryPage (create : Heap K V) G 1 0 ∧
      Abstracts (create : Heap K V) G OrderedMap.empty := by
  let G : Layout K := fun q => if q = 1 then some ⟨0, none, none⟩ else none
  have hG : ∀ q s, G q = some s → q = 1 ∧ s = ⟨0, none, none⟩ := by
    intro q s hq
    simp only [G] at hq
    split at hq
    · exact ⟨‹_›, (Option.some.inj hq).symm⟩
    · cases hq
  refine ⟨G, ⟨rfl, rfl, rfl, ?_, ?_, ?_, ?_, ?_, ?_⟩, ?_⟩
  · intro q s hq
    obtain ⟨rfl, rfl⟩ := hG q s hq
    refine .of_leaf rfl ⟨List.Pairwise.nil, rfl, rfl, ?_, Nat.zero_le _⟩
    intro e he
    cases he
  · intro q s hq
    obtain ⟨rfl, rfl⟩ := hG q s hq
    exact ⟨default, by simp, by simp⟩
  · intro q s hq
    obtain ⟨rfl, rfl⟩ := hG q s hq
    exact le_rfl
  · intro p q s t _ hp hq _ _ _
    rw [(hG p s hp).1, (hG q t hq).1]
  · intro q s hq
    rw [(hG q s hq).1]
    exact Nat.lt_succ_self 1
  · exact Nat.zero_lt_succ 1
  · intro k v
    constructor
    · intro he
      cases he
    · rintro ⟨q, s, l, hq, _, hl, hmem⟩
      obtain ⟨rfl, rfl⟩ := hG q s hq
      have hempty : (create : Heap K V).page 1 = .leaf Leaf.empty := rfl
      rw [hempty] at hl
      cases hl
      cases hmem

/-- Every finite sequence of calls on a fresh tree answers as a finite ordered
map does, once the step budget is large enough. -/
theorem run_create_refines_orderedMap (c : Capacity) (ops : List (Op K V)) :
    ∃ bound, ∀ fuel, bound ≤ fuel →
      (run c entryPage fuel create ops).map Prod.snd =
        some (specRun (OrderedMap.empty : OrderedMap K V) ops).2 := by
  obtain ⟨G, inv, hm⟩ : ∃ G : Layout K, TreeInv c entryPage (create : Heap K V) G 1 0 ∧ _ :=
    create_inv c
  obtain ⟨h', _, _, _, bound, hrun, _, _⟩ := inv.run_refines hm ops
  exact ⟨bound, fun fuel hfuel => by rw [hrun fuel hfuel, Option.map_some]⟩

end ScaleStore.BTree
