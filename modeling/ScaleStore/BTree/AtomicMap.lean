/-
# The map that workers share

What the calls are to do, each in one step of an ordered map.  A leaf step of a scan
hands over the bindings of one range; which range is up to the tree, but the step
covers all of it at one moment, from the key it is given to the fence it resumes from.

`failed` is allowed where the source checks the type of a node it has not latched or
validated, and it has no effect.
-/

import ScaleStore.BTree.Attempts

namespace ScaleStore.BTree

variable {K V : Type} [LinearOrder K]

instance (lower upper : FenceKey K) (k : K) : Decidable (InRange lower upper k) :=
  inferInstanceAs (Decidable ((∀ a ∈ lower, a < k) ∧ ∀ b ∈ upper, k ≤ b))

/-- What a scan hands over of the range of `r`, in its order. -/
def piece (dir : Direction) (k : K) (r : Region K) (x : OrderedMap K V) : List (K × V) :=
  match dir with
  | .asc => x.entries.filter fun e => InRange r.lower r.upper e.1 ∧ k ≤ e.1
  | .desc => (x.entries.filter fun e => InRange r.lower r.upper e.1 ∧ e.1 ≤ k).reverse

/-- The calls that go down by the stored height. -/
def Call.byHeight : Call K V → Bool
  | .insert _ _ | .lookup _ | .lookup_opt _ | .lookupAndUpdate _ _ => true
  | .remove _ | .scan_ _ _ _ _ _ => false

/-- The key of a point operation. -/
def Call.key : Call K V → Option K
  | .insert k _ | .remove k | .lookup k | .lookup_opt k | .lookupAndUpdate k _ => some k
  | .scan_ _ _ _ _ _ => none

def Call.keys (op : Call K V) : Set K := {k | op.key = some k}

inductive MapStep (x : OrderedMap K V) : Call K V → OrderedMap K V → Reply K V → Prop
  | insert (k : K) (v : V) : MapStep x (.insert k v) (x.insert k v) .done
  | remove (k : K) : MapStep x (.remove k) (x.erase k) (.removed (x.find k).isSome)
  | lookup (k : K) : MapStep x (.lookup k) x (.found (x.find k))
  | lookup_opt (k : K) : MapStep x (.lookup_opt k) x (.found (x.find k))
  | update {k : K} {v : V} (callback : V → V) (h : x.find k = some v) :
      MapStep x (.lookupAndUpdate k callback) (x.insert k (callback v)) .done
  | raise {k : K} (callback : V → V) (h : x.find k = none) :
      MapStep x (.lookupAndUpdate k callback) x .raised
  | scan_ {dir : Direction} {isFirstTraversal : Bool} {k : K} {r : Region K}
      (func : Callback K V) (seen : List (K × V))
      (h : Reaches dir isFirstTraversal k r.lower r.upper) :
      MapStep x (.scan_ dir func isFirstTraversal k seen) x
        (.handed (scanResult (feed func seen (piece dir k r x)) (r.fence dir)).1
          (scanResult (feed func seen (piece dir k r x)) (r.fence dir)).2)
  | failed {op : Call K V} (h : op.byHeight = true) : MapStep x op x .failed

/-- A map that is empty at first. -/
def mapObject : AtomicObject (OrderedMap K V) (Call K V) (Reply K V) where
  init x := x = OrderedMap.empty
  apply := MapStep

variable {c : Capacity} {root : PID} {h : Heap K V} {G : Layout K} {height : Nat}
  {x : OrderedMap K V} {pid : PID} {r : Region K} {l : Leaf K V}

theorem TreeInv.leaf_entries (inv : TreeInv c entryPage h G root height) (hx : Abstracts h G x)
    (hG : G pid = some r) (hl : h.page pid = .leaf l) :
    l.entries = x.entries.filter fun e => InRange r.lower r.upper e.1 := by
  refine OrderedMap.entries_ext (inv.leafOK hG hl).sorted (x.sorted.filter _) fun e => ?_
  rw [inv.mem_leaf_iff hx hG hl, List.mem_filter, decide_eq_true_eq]
  rfl

/-- The share of a leaf is the piece of the map in its region. -/
theorem TreeInv.share_eq_piece (inv : TreeInv c entryPage h G root height) (hx : Abstracts h G x)
    (hG : G pid = some r) (hl : h.page pid = .leaf l) (dir : Direction) (k : K) :
    share dir k l = piece dir k r x := by
  cases dir <;>
  · simp only [share, piece, inv.leaf_entries hx hG hl, List.filter_filter]
    congr 2
    funext e
    simp [and_comm]

variable [Inhabited K]

theorem TreeInv.scanLeaf (inv : TreeInv c entryPage h G root height) (hx : Abstracts h G x)
    (hG : G pid = some r) (hl : h.page pid = .leaf l) (dir : Direction) (func : Callback K V)
    (k : K) (seen : List (K × V)) :
    BTree.scanLeaf dir func k l seen =
      scanResult (feed func seen (piece dir k r x)) (r.fence dir) := by
  have hok := inv.leafOK hG hl
  rw [← inv.share_eq_piece hx hG hl dir k]
  cases dir with
  | asc => rw [BTree.scanLeaf, ascScan_eq hok.sorted, hok.upper_eq]; rfl
  | desc => rw [BTree.scanLeaf, descScan_eq hok.sorted, hok.lower_eq]; rfl

/-- What a leaf answers about a key of its region is what the map answers. -/
theorem TreeInv.payload (inv : TreeInv c entryPage h G root height) (hx : Abstracts h G x)
    (hG : G pid = some r) (hl : h.page pid = .leaf l) {k : K} (hk : r.Holds k) :
    (h.page pid).payload k = x.find k := by
  have hbinds := inv.binds_iff_mem hG hl hk
  rw [hl, Page.payload]
  cases hf : l.find k with
  | some pos =>
    obtain ⟨v, hv, hmem⟩ := Leaf.find_some_payload hf
    simp [hv, hx.find_some ((hbinds v).mpr hmem)]
  | none =>
    have hnone := (Leaf.find_eq_none_iff (inv.leafOK hG hl).sorted).mp hf
    rw [hx.find_none fun v hb => hnone v ((hbinds v).mp hb)]
    rfl

end ScaleStore.BTree
