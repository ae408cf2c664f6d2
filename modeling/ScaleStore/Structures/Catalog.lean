/-
# The catalog

The catalog is one page with a counter and an array of entries.  Inserting takes
the counter for the id, writes the entry at that index and increments the
counter; reading waits until the counter has reached the id and the entry has a
type.  Every access holds the page's latch, so that calls of any number of nodes
come down to a sequence of passes over the page.

The size of the array is computed but never compared with the counter.  As long
as it is not exceeded the entries are append-only, and that is all that readers
need: an entry that the page has once, it has from then on.
-/

import ScaleStore.Lib.System
import ScaleStore.Storage.ReadPage

namespace ScaleStore.Catalog

open StructLayout Storage

/-! ## The page -/

inductive DS_TYPE where
  | empty
  | barrier
  | table
  | btree
  | llist
  | misc
deriving DecidableEq, Repr

structure CatalogEntry where
  datastructureId : Nat
  type : DS_TYPE
  pid : PID
deriving DecidableEq

/-- The entry of a page of zeroes. -/
def CatalogEntry.zero : CatalogEntry := ⟨0, .empty, 0⟩

/-- `sizeof(CatalogEntry)`, with the padding behind the type. -/
def catalogEntrySize : Nat := (struct [.scalar 3, .scalar 0, .scalar 3]).size

/-- `CatalogPage::maxEntries`. -/
def maxEntries : Nat := (EFFECTIVE_PAGE_SIZE - (8 + 8 + 8 + 1)) / catalogEntrySize

/-- `CatalogPage`; the cells from `maxEntries` on are what follows the array in memory. -/
structure CatalogPage where
  datastructureIds : Nat
  entries : Nat → CatalogEntry

/-- One pass of the loop of `getCatalogEntry`. -/
def CatalogPage.getCatalogEntry (page : CatalogPage) (id : Nat) : Option CatalogEntry :=
  if id ≤ page.datastructureIds ∧ (page.entries id).type ≠ .empty then some (page.entries id)
  else none

/-- The entries that this pass reads: the second test is made only after the first one. -/
def CatalogPage.reads (page : CatalogPage) (id : Nat) : List Nat :=
  if id ≤ page.datastructureIds then [id] else []

/-- `insertCatalogEntry`; the id returned is the counter before the call. -/
def CatalogPage.insertCatalogEntry (page : CatalogPage) (type : DS_TYPE) (pid : PID) :
    CatalogPage :=
  { datastructureIds := page.datastructureIds + 1
    entries := Function.update page.entries page.datastructureIds
      ⟨page.datastructureIds, type, pid⟩ }

/-! ## Runs -/

/-- A pass over the page under its latch. -/
inductive Call where
  | insert (type : DS_TYPE) (pid : PID)
  | get (id : Nat)

/-- The page, with what the calls have returned and touched. -/
structure State where
  page : CatalogPage
  /-- The ids that `insertCatalogEntry` has returned, with what was inserted under them. -/
  inserted : List (Nat × DS_TYPE × PID)
  /-- The entries that `getCatalogEntry` has returned, as they were while its guard was held.  The
  reference that it returns outlives the guard and is not followed here. -/
  got : List (Nat × CatalogEntry)
  /-- The indices of the entries that have been read or written. -/
  touched : List Nat

def State.exec (s : State) : Call → State
  | .insert type pid =>
      { s with
        page := s.page.insertCatalogEntry type pid
        inserted := s.inserted ++ [(s.page.datastructureIds, type, pid)]
        touched := s.touched ++ [s.page.datastructureIds] }
  | .get id =>
      { s with
        got := s.got ++ ((s.page.getCatalogEntry id).map fun e => (id, e)).toList
        touched := s.touched ++ s.page.reads id }

/-- Callers insert entries that have a type. -/
def Call.Valid : Call → Prop
  | .insert type _ => type ≠ .empty
  | .get _ => True

/-- The pages are zeroed, and what follows the array is anything. -/
structure Init (s : State) : Prop where
  datastructureIds : s.page.datastructureIds = 0
  entries : ∀ i, i < maxEntries → s.page.entries i = .zero
  inserted : s.inserted = []
  got : s.got = []
  touched : s.touched = []

/-- The runs whose calls all meet a condition on the page before them. -/
def system (good : CatalogPage → Call → Prop) : System State where
  Init := Init
  Step s s' := ∃ call : Call, call.Valid ∧ good s.page call ∧ s' = s.exec call

/-- The call stays within the array: the counter has not reached its end, and no id from its end
on is asked for that the counter has reached. -/
def HasRoom (page : CatalogPage) : Call → Prop
  | .insert _ _ => page.datastructureIds < maxEntries
  | .get id => id ≤ page.datastructureIds → id < maxEntries

/-- Ids are distinct, an entry read under an id is what was inserted under it and is in the page
still, and all accesses lie in the array. -/
structure Faithful (s : State) : Prop where
  distinct : (s.inserted.map Prod.fst).Nodup
  sound : ∀ id e, (id, e) ∈ s.got → (id, e.type, e.pid) ∈ s.inserted ∧ s.page.entries id = e
  inside : ∀ i ∈ s.touched, i < maxEntries

/-! ## The invariant -/

/-- The array holds what has been inserted, in the order of the ids, and is empty behind it. -/
structure Inv (s : State) : Prop where
  ids : s.inserted.map Prod.fst = List.range s.page.datastructureIds
  stored : ∀ id, id < s.page.datastructureIds →
    (id, (s.page.entries id).type, (s.page.entries id).pid) ∈ s.inserted
  blank : ∀ id, s.page.datastructureIds ≤ id → id < maxEntries → s.page.entries id = .zero
  kept : ∀ id e, (id, e) ∈ s.got → id < s.page.datastructureIds ∧ s.page.entries id = e
  inside : ∀ i ∈ s.touched, i < maxEntries

variable {s : State}

theorem Init.inv (h : Init s) : Inv s where
  ids := by rw [h.inserted, h.datastructureIds]; rfl
  stored id hid := by
    rw [h.datastructureIds] at hid
    exact absurd hid (Nat.not_lt_zero id)
  blank id _ hid := h.entries id hid
  kept id e he := by rw [h.got] at he; cases he
  inside i hi := by rw [h.touched] at hi; cases hi

theorem Inv.insert (hi : Inv s) {type : DS_TYPE} {pid : PID}
    (hroom : s.page.datastructureIds < maxEntries) : Inv (s.exec (.insert type pid)) := by
  have hold : ∀ id, id ≠ s.page.datastructureIds →
      (s.page.insertCatalogEntry type pid).entries id = s.page.entries id := by
    intro id hne
    exact Function.update_of_ne hne _ _
  constructor
  case ids =>
    show (s.inserted ++ [(s.page.datastructureIds, type, pid)]).map Prod.fst =
      List.range (s.page.datastructureIds + 1)
    rw [List.map_append, hi.ids, List.range_succ]
    rfl
  case stored =>
    intro id hid
    refine List.mem_append.mpr ?_
    rcases Nat.lt_succ_iff_lt_or_eq.mp hid with hlt | rfl
    · left
      show (id, ((s.page.insertCatalogEntry type pid).entries id).type,
        ((s.page.insertCatalogEntry type pid).entries id).pid) ∈ s.inserted
      rw [hold id (Nat.ne_of_lt hlt)]
      exact hi.stored id hlt
    · right
      simp [State.exec, CatalogPage.insertCatalogEntry]
  case blank =>
    intro id hle hid
    have hlt : s.page.datastructureIds < id := hle
    show (s.page.insertCatalogEntry type pid).entries id = .zero
    rw [hold id (Nat.ne_of_gt hlt)]
    exact hi.blank id (le_of_lt hlt) hid
  case kept =>
    intro id e he
    obtain ⟨hlt, heq⟩ := hi.kept id e he
    exact ⟨Nat.lt_succ_of_lt hlt, (hold id (Nat.ne_of_lt hlt)).trans heq⟩
  case inside =>
    intro i hmem
    rcases List.mem_append.mp hmem with hmem | hmem
    · exact hi.inside i hmem
    · obtain rfl : i = s.page.datastructureIds := by simpa using hmem
      exact hroom

/-- A pass that returns an entry has found one that was inserted. -/
theorem Inv.lt_of_get (hi : Inv s) {id : Nat} {e : CatalogEntry}
    (hroom : id ≤ s.page.datastructureIds → id < maxEntries)
    (he : s.page.getCatalogEntry id = some e) :
    id < s.page.datastructureIds ∧ s.page.entries id = e := by
  rw [CatalogPage.getCatalogEntry, Option.ite_none_right_eq_some] at he
  obtain ⟨⟨hle, htype⟩, heq⟩ := he
  refine ⟨lt_of_not_ge fun hge => htype ?_, Option.some.inj heq⟩
  rw [hi.blank id hge (hroom hle)]
  rfl

theorem Inv.get (hi : Inv s) {id : Nat}
    (hroom : id ≤ s.page.datastructureIds → id < maxEntries) : Inv (s.exec (.get id)) := by
  refine { hi with kept := ?_, inside := ?_ }
  · intro i e he
    rcases List.mem_append.mp he with he | he
    · exact hi.kept i e he
    · obtain ⟨a, ha, heq⟩ : ∃ a, s.page.getCatalogEntry id = some a ∧ (id, a) = (i, e) := by
        simpa using he
      obtain ⟨rfl, rfl⟩ := Prod.mk.inj heq
      exact hi.lt_of_get hroom ha
  · intro i hmem
    rcases List.mem_append.mp hmem with hmem | hmem
    · exact hi.inside i hmem
    · rw [CatalogPage.reads] at hmem
      split at hmem
      case isTrue hle =>
        obtain rfl : i = id := by simpa using hmem
        exact hroom hle
      case isFalse => cases hmem

theorem Inv.next (hi : Inv s) {call : Call} (hroom : HasRoom s.page call) : Inv (s.exec call) := by
  cases call with
  | insert type pid => exact hi.insert hroom
  | get id => exact hi.get hroom

theorem Inv.faithful (hi : Inv s) : Faithful s where
  distinct := hi.ids ▸ List.nodup_range
  sound id e he := by
    obtain ⟨hlt, rfl⟩ := hi.kept id e he
    exact ⟨hi.stored id hlt, rfl⟩
  inside := hi.inside

/-- As long as calls stay within the array, entries are faithful and bounded. -/
theorem entries_faithful (h : (system HasRoom).Reachable s) : Faithful s := by
  refine Inv.faithful (h.invariant (P := Inv) (fun _ hinit => Init.inv hinit) ?_)
  rintro s _ - hi ⟨call, -, hroom, rfl⟩
  exact hi.next hroom

/-! ## A full catalog -/

def zeroPage : State := ⟨⟨0, fun _ => .zero⟩, [], [], []⟩

/-- The state after `n` trees have been inserted. -/
def inserts : Nat → State
  | 0 => zeroPage
  | n + 1 => (inserts n).exec (.insert .btree n)

theorem inserts_ids (n : Nat) : (inserts n).page.datastructureIds = n := by
  induction n with
  | zero => rfl
  | succ n ih => exact congrArg (· + 1) ih

theorem inserts_reachable {good : CatalogPage → Call → Prop} (n : Nat)
    (hgood : ∀ m, m < n → good (inserts m).page (.insert .btree m)) :
    (system good).Reachable (inserts n) := by
  induction n with
  | zero => exact .init ⟨rfl, fun _ _ => rfl, rfl, rfl, rfl⟩
  | succ n ih =>
    exact (ih fun m hm => hgood m (Nat.lt_succ_of_lt hm)).step
      ⟨.insert .btree n, by simp [Call.Valid], hgood n (Nat.lt_succ_self n), rfl⟩

/-- One insertion more than the array has entries writes behind it. -/
theorem written_behind_entries :
    ¬ ∀ s, (system fun _ _ => True).Reachable s → Faithful s := by
  intro hall
  have hfaithful := hall (inserts (maxEntries + 1)) (inserts_reachable _ fun _ _ => trivial)
  have hwritten : maxEntries ∈ (inserts (maxEntries + 1)).touched := by
    refine List.mem_append_right _ ?_
    rw [inserts_ids]
    exact List.mem_singleton_self _
  exact absurd (hfaithful.inside maxEntries hwritten) (Nat.lt_irrefl _)

/-- All entries taken, and the last one read. -/
theorem entries_faithful_full : ∃ s : State, s.inserted.length = maxEntries ∧
    (18, ⟨18, .btree, 18⟩) ∈ s.got ∧ Faithful s := by
  have hfull : (system HasRoom).Reachable (inserts maxEntries) :=
    inserts_reachable _ fun m hm => by
      rw [HasRoom, inserts_ids]
      exact hm
  have hread : (system HasRoom).Reachable ((inserts maxEntries).exec (.get 18)) :=
    hfull.step ⟨.get 18, trivial, fun _ => by decide, rfl⟩
  exact ⟨_, by decide +kernel, by decide +kernel, entries_faithful hread⟩

end ScaleStore.Catalog
