/-
# Reclaiming invalidated pages

A message handler answers the messages of a connection one after the other, each
with one write.  One write in `pollingInterval` is signaled, and the last one
before the next signaled write waits for its completion; the pages that were
parked in the passive batch then go to the page free list and the batches are
swapped.

A parked page is named together with the write that carried it, or that carries
the answer with which it is given up.  The completions of a connection come in
the order of its writes.
-/

import ScaleStore.Buffers.PagePool
import Mathlib.Order.Interval.Finset.Nat

namespace ScaleStore.Invalidations

open PagePool (InvalidationBatch)

variable {B : Type}

/-! ## A connection -/

/-- A page in an `InvalidationBatch`, with the number of its write. -/
structure Parked (B : Type) where
  page : B
  write : Nat
deriving DecidableEq

/-- What answering a message does: PRX and PMR park the page behind the write, PUR before it. -/
inductive Message (B : Type) where
  | answer
  | sendAway (page : B)
  | update (page : B)

/-- `ConnectionContext`, its completion queue and what it has given to `pageFreeList`. -/
structure Connection (B : Type) where
  wqe : BitVec 64
  active : InvalidationBatch (Parked B)
  passive : InvalidationBatch (Parked B)
  /-- The writes that have been posted. -/
  posted : Nat
  /-- The signaled ones among them whose completions have not been polled. -/
  outstanding : List Nat
  /-- The pages pushed to `pageFreeList`, each with the write whose completion had been polled. -/
  pushed : List (Parked B × Nat)

namespace Connection

variable (interval : BitVec 64) (s : Connection B)

/-- `SIGNAL_`. -/
def signal : BitVec 64 := interval - 1

/-- `rdma::postWrite`. -/
def postWrite : Connection B :=
  { s with
    posted := s.posted + 1
    outstanding := s.outstanding ++ if s.wqe &&& signal interval = 0 then [s.posted] else [] }

/-- `reclaimInvalidations`, when the completion of `write` has been polled. -/
def reclaimInvalidations (write : Nat) : Connection B :=
  if s.passive.elements = 0 then s
  else { s with
    pushed := s.pushed ++ s.passive.pages.map (·, write)
    passive := s.passive.reset }

/-- `std::swap` of the two batches. -/
def swap : Connection B := { s with active := s.passive, passive := s.active }

/-- `rdma::pollCompletion` until there is one; without a signaled write it never ends. -/
def pollCompletion : Option (Connection B) :=
  match s.outstanding with
  | [] => none
  | write :: rest => some ({ s with outstanding := rest }.reclaimInvalidations write).swap

/-- `writeMsg` and `writePageAndMsg`. -/
def writeMsg : Option (Connection B) :=
  let s' := s.postWrite interval
  (if s.wqe &&& signal interval = signal interval then s'.pollCompletion else some s').map
    fun s => { s with wqe := s.wqe + 1 }

/-- `activeInvalidationBatch->add`. -/
def add (p : Parked B) : Option (Connection B) :=
  (s.active.add interval.toNat p).map fun b => { s with active := b }

/-- A message is handled; `none` when an `ensure` fails or the poll never ends. -/
def handle : Message B → Option (Connection B)
  | .answer => s.writeMsg interval
  | .sendAway page => (s.writeMsg interval).bind fun s' => s'.add interval ⟨page, s.posted⟩
  | .update page => (s.add interval ⟨page, s.posted⟩).bind fun s' => s'.writeMsg interval

/-- Messages one after the other. -/
def handleAll (s : Connection B) : List (Message B) → Option (Connection B)
  | [] => some s
  | m :: ms => (s.handle interval m).bind fun s' => handleAll s' ms

/-- A new connection. -/
def init : Connection B := ⟨0, ⟨fun _ => none, 0⟩, ⟨fun _ => none, 0⟩, 0, [], []⟩

/-! ## Intervals -/

/-- A `pollingInterval` that is a power of two. -/
def powerOfTwo (k : Fin 64) : BitVec 64 := BitVec.ofNat 64 (2 ^ k.val)

theorem toNat_powerOfTwo (k : Fin 64) : (powerOfTwo k).toNat = 2 ^ k.val := by
  rw [powerOfTwo, BitVec.toNat_ofNat]
  exact Nat.mod_eq_of_lt (Nat.pow_lt_pow_right (by omega) k.isLt)

theorem toNat_signal (k : Fin 64) : (signal (powerOfTwo k)).toNat = 2 ^ k.val - 1 := by
  have hpos : 0 < 2 ^ k.val := Nat.two_pow_pos _
  have hle : (1 : BitVec 64) ≤ powerOfTwo k := by
    rw [BitVec.le_def, toNat_powerOfTwo]
    exact hpos
  rw [signal, BitVec.toNat_sub_of_le hle, toNat_powerOfTwo]
  rfl

/-- `wqe & SIGNAL_` counts within an interval, whether `wqe` has overflowed or not. -/
theorem toNat_and_signal (k : Fin 64) (n : Nat) :
    (BitVec.ofNat 64 n &&& signal (powerOfTwo k)).toNat = n % 2 ^ k.val := by
  rw [BitVec.toNat_and, toNat_signal, Nat.and_two_pow_sub_one_eq_mod, BitVec.toNat_ofNat]
  exact Nat.mod_mod_of_dvd n (Nat.pow_dvd_pow 2 (Nat.le_of_lt k.isLt))

theorem and_signal_eq_zero (k : Fin 64) (n : Nat) :
    BitVec.ofNat 64 n &&& signal (powerOfTwo k) = 0 ↔ n % 2 ^ k.val = 0 := by
  rw [← toNat_and_signal k n, ← BitVec.toNat_inj]
  rfl

theorem and_signal_eq_signal (k : Fin 64) (n : Nat) :
    BitVec.ofNat 64 n &&& signal (powerOfTwo k) = signal (powerOfTwo k) ↔
      n % 2 ^ k.val = 2 ^ k.val - 1 := by
  rw [← toNat_and_signal k n, ← BitVec.toNat_inj, toNat_signal]

/-! ## The invariant -/

/-- The writes of the pages that are parked or have been pushed, in the order in which they
leave. -/
def writes : List Nat :=
  s.pushed.map (·.1.write) ++ (s.passive.pages.map (·.write) ++ s.active.pages.map (·.write))

/-- All cells up to the element count are filled. -/
def Filled (b : InvalidationBatch (Parked B)) : Prop := b.pages.length = b.elements

/-- The state between two writes; the pages parked so far belong to writes before `bound`. -/
structure Ordered (k : Fin 64) (bound : Nat) (s : Connection B) : Prop where
  wqe : s.wqe = BitVec.ofNat 64 s.posted
  outstanding : s.outstanding =
    if s.posted % 2 ^ k.val = 0 then [] else [s.posted / 2 ^ k.val * 2 ^ k.val]
  filled_active : Filled s.active
  filled_passive : Filled s.passive
  sorted : s.writes.Pairwise (· < ·)
  below : ∀ i ∈ s.writes, i < bound
  /-- The active batch began with the last write of the interval before. -/
  active : ∀ p ∈ s.active.pages, s.posted / 2 ^ k.val * 2 ^ k.val ≤ p.write + 1
  /-- The pages of the passive batch belong to earlier intervals. -/
  passive : ∀ p ∈ s.passive.pages, p.write < s.posted / 2 ^ k.val * 2 ^ k.val
  pushed : ∀ p i, (p, i) ∈ s.pushed → p.write < i ∧ i % 2 ^ k.val = 0 ∧ i < s.posted

theorem length_le_of_pairwise {l : List Nat} {a b : Nat} (hl : l.Pairwise (· < ·))
    (ha : ∀ i ∈ l, a ≤ i + 1) (hb : ∀ i ∈ l, i < b) : l.length ≤ b + 1 - a := by
  have hsub : l.toFinset ⊆ Finset.Ico (a - 1) b := by
    intro i hi
    have hmem := List.mem_toFinset.mp hi
    have := ha i hmem
    exact Finset.mem_Ico.mpr ⟨by omega, hb i hmem⟩
  have hnodup : l.Nodup := hl.imp Nat.ne_of_lt
  calc l.length = l.toFinset.card := (List.toFinset_card_of_nodup hnodup).symm
    _ ≤ (Finset.Ico (a - 1) b).card := Finset.card_le_card hsub
    _ = b - (a - 1) := Nat.card_Ico _ _
    _ ≤ b + 1 - a := by omega

section Steps

variable {s} {k : Fin 64} {bound : Nat}

theorem Ordered.mono (h : Ordered k bound s) {bound' : Nat} (hle : bound ≤ bound') :
    Ordered k bound' s :=
  { h with below := fun i hi => Nat.lt_of_lt_of_le (h.below i hi) hle }

/-- How many pages the active batch can have. -/
theorem Ordered.elements_le (h : Ordered k bound s) :
    s.active.elements ≤ bound + 1 - s.posted / 2 ^ k.val * 2 ^ k.val := by
  have hsorted : (s.active.pages.map (·.write)).Pairwise (· < ·) :=
    (List.pairwise_append.mp (List.pairwise_append.mp h.sorted).2.1).2.1
  have hlen := length_le_of_pairwise hsorted (a := s.posted / 2 ^ k.val * 2 ^ k.val) (b := bound)
    ?_ ?_
  · rwa [List.length_map, h.filled_active] at hlen
  · rintro i hi
    obtain ⟨p, hp, rfl⟩ := List.mem_map.mp hi
    exact h.active p hp
  · intro i hi
    exact h.below i (by simp only [writes, List.mem_append]; exact .inr (.inr hi))

/-- A page of the write `bound` is parked. -/
theorem Ordered.add (h : Ordered k bound s) (page : B) (hle : s.posted ≤ bound + 1)
    (hbound : bound ≤ s.posted) :
    ∃ s', s.add (powerOfTwo k) ⟨page, bound⟩ = some s' ∧ Ordered k (bound + 1) s' ∧
      s'.posted = s.posted := by
  have hroom : s.active.elements ≤ (powerOfTwo k).toNat := by
    have hmod := Nat.mod_lt s.posted (Nat.two_pow_pos k.val)
    have hdiv := Nat.div_add_mod' s.posted (2 ^ k.val)
    have := h.elements_le
    rw [toNat_powerOfTwo]
    omega
  obtain ⟨b, hb⟩ : ∃ b, s.active.add (powerOfTwo k).toNat ⟨page, bound⟩ = some b := by
    rw [InvalidationBatch.add, if_pos hroom]
    exact ⟨_, rfl⟩
  have hpages : b.pages = s.active.pages ++ [⟨page, bound⟩] :=
    PagePool.InvalidationBatch.pages_add hb
  have hwrites : ({ s with active := b } : Connection B).writes = s.writes ++ [bound] := by
    simp [writes, hpages]
  refine ⟨{ s with active := b }, by rw [Connection.add, hb]; rfl, ?_, rfl⟩
  constructor
  case wqe => exact h.wqe
  case outstanding => exact h.outstanding
  case filled_active =>
    have helements : b.elements = s.active.elements + 1 := by
      rw [InvalidationBatch.add, if_pos hroom] at hb
      exact congrArg (·.elements) (Option.some.inj hb).symm
    rw [Filled, hpages, List.length_append, h.filled_active, helements]
    rfl
  case filled_passive => exact h.filled_passive
  case sorted =>
    rw [hwrites, List.pairwise_append]
    refine ⟨h.sorted, List.pairwise_singleton _ _, fun i hi j hj => ?_⟩
    obtain rfl := List.mem_singleton.mp hj
    exact h.below i hi
  case below =>
    intro i hi
    rw [hwrites, List.mem_append, List.mem_singleton] at hi
    rcases hi with hi | rfl
    · exact Nat.lt_succ_of_lt (h.below i hi)
    · exact Nat.lt_succ_self i
  case active =>
    intro p hp
    rw [hpages, List.mem_append, List.mem_singleton] at hp
    rcases hp with hp | rfl
    · exact h.active p hp
    · exact Nat.le_trans (Nat.div_mul_le_self _ _) hle
  case passive => exact h.passive
  case pushed => exact h.pushed

theorem reclaimInvalidations_eq (hfilled : Filled s.passive) (write : Nat) :
    ∃ b, b.pages = [] ∧ Filled b ∧ s.reclaimInvalidations write =
      { s with
        pushed := s.pushed ++ s.passive.pages.map (·, write)
        passive := b } := by
  unfold reclaimInvalidations
  split
  case isTrue hempty =>
    have hpages : s.passive.pages = [] := List.eq_nil_of_length_eq_zero (hfilled.trans hempty)
    exact ⟨s.passive, hpages, hfilled, by simp [hpages]⟩
  case isFalse => exact ⟨s.passive.reset, rfl, rfl, rfl⟩

/-- A write is posted, and behind the last one of an interval the batches move on. -/
theorem Ordered.writeMsg (h : Ordered k bound s) (hbound : bound ≤ s.posted + 1) :
    ∃ s', s.writeMsg (powerOfTwo k) = some s' ∧ Ordered k bound s' ∧
      s'.posted = s.posted + 1 := by
  have hpos := Nat.two_pow_pos k.val
  have hmod := Nat.mod_lt s.posted hpos
  have hwqe : s.wqe + 1 = BitVec.ofNat 64 (s.posted + 1) := by
    rw [h.wqe, BitVec.ofNat_add]
    rfl
  -- one signaled write of the interval is outstanding now
  have hpost : s.postWrite (powerOfTwo k) = ⟨s.wqe, s.active, s.passive, s.posted + 1,
      [s.posted / 2 ^ k.val * 2 ^ k.val], s.pushed⟩ := by
    rw [postWrite]
    congr 1
    rw [h.wqe, h.outstanding]
    simp only [and_signal_eq_zero]
    split
    case isTrue hzero =>
      rw [List.nil_append, Nat.div_mul_cancel (Nat.dvd_of_mod_eq_zero hzero)]
    case isFalse => exact List.append_nil _
  simp only [Connection.writeMsg, hpost, h.wqe, and_signal_eq_signal]
  by_cases hlast : s.posted % 2 ^ k.val = 2 ^ k.val - 1
  · have hnext : s.posted + 1 = (s.posted / 2 ^ k.val + 1) * 2 ^ k.val := by
      have hdiv := Nat.div_add_mod' s.posted (2 ^ k.val)
      rw [Nat.add_mul]
      omega
    have hstart : (s.posted + 1) / 2 ^ k.val * 2 ^ k.val = s.posted + 1 := by
      rw [hnext, Nat.mul_div_cancel _ hpos]
    obtain ⟨b, hempty, hfilled, hreclaim⟩ := reclaimInvalidations_eq
      (s := ⟨s.wqe, s.active, s.passive, s.posted + 1, [], s.pushed⟩) h.filled_passive
      (s.posted / 2 ^ k.val * 2 ^ k.val)
    rw [if_pos hlast]
    refine ⟨⟨s.wqe + 1, b, s.active, s.posted + 1, [], s.pushed ++ s.passive.pages.map
      (·, s.posted / 2 ^ k.val * 2 ^ k.val)⟩, ?_, ?_, rfl⟩
    · rw [← h.wqe, pollCompletion]
      exact congrArg (fun s => Option.map _ (some (swap s))) hreclaim
    have hwrites : s.writes = (s.pushed ++ s.passive.pages.map
        (·, s.posted / 2 ^ k.val * 2 ^ k.val)).map (·.1.write) ++
        (s.active.pages.map (·.write) ++ b.pages.map (·.write)) := by
      simp [writes, hempty, Function.comp_def]
    constructor
    case wqe => exact hwqe
    case outstanding =>
      refine (if_pos ?_).symm
      rw [hnext]
      exact Nat.mul_mod_left _ _
    case filled_active => exact hfilled
    case filled_passive => exact h.filled_active
    case sorted =>
      change List.Pairwise _ (_ ++ (_ ++ _))
      rw [← hwrites]
      exact h.sorted
    case below =>
      change ∀ i ∈ _ ++ (_ ++ _), _
      rw [← hwrites]
      exact h.below
    case active =>
      intro p hp
      cases (hempty ▸ hp : p ∈ [])
    case passive =>
      intro p hp
      refine Nat.lt_of_lt_of_le (h.below _ ?_) (Nat.le_trans hbound (Nat.le_of_eq hstart.symm))
      simp only [writes, List.mem_append]
      exact .inr (.inr (List.mem_map_of_mem hp))
    case pushed =>
      intro p i hpi
      rcases List.mem_append.mp hpi with hpi | hpi
      · obtain ⟨hlt, hsignaled, hposted⟩ := h.pushed p i hpi
        exact ⟨hlt, hsignaled, Nat.lt_succ_of_lt hposted⟩
      · obtain ⟨p', hp', heq⟩ := List.mem_map.mp hpi
        obtain ⟨rfl, rfl⟩ := Prod.mk.inj heq
        refine ⟨h.passive p' hp', Nat.mul_mod_left _ _, ?_⟩
        exact Nat.lt_succ_of_le (Nat.div_mul_le_self _ _)
  · have hlt : s.posted % 2 ^ k.val + 1 < 2 ^ k.val := by omega
    have hsplit : s.posted + 1 =
        2 ^ k.val * (s.posted / 2 ^ k.val) + (s.posted % 2 ^ k.val + 1) := by
      have hdiv := Nat.div_add_mod s.posted (2 ^ k.val)
      omega
    have hmod' : (s.posted + 1) % 2 ^ k.val = s.posted % 2 ^ k.val + 1 := by
      rw [hsplit, Nat.mul_add_mod]
      exact Nat.mod_eq_of_lt hlt
    have hstart : (s.posted + 1) / 2 ^ k.val = s.posted / 2 ^ k.val := by
      conv_lhs => rw [hsplit, Nat.mul_add_div hpos, Nat.div_eq_of_lt hlt, Nat.add_zero]
    rw [if_neg hlast]
    refine ⟨⟨s.wqe + 1, s.active, s.passive, s.posted + 1, [s.posted / 2 ^ k.val * 2 ^ k.val],
      s.pushed⟩, by rw [← h.wqe]; rfl, ?_, rfl⟩
    constructor
    case wqe => exact hwqe
    case outstanding =>
      change _ = if (s.posted + 1) % _ = 0 then _ else [(s.posted + 1) / _ * _]
      rw [hmod', if_neg (Nat.succ_ne_zero _), hstart]
    case filled_active => exact h.filled_active
    case filled_passive => exact h.filled_passive
    case sorted => exact h.sorted
    case below => exact h.below
    case active =>
      change ∀ p ∈ s.active.pages, (s.posted + 1) / _ * _ ≤ _
      rw [hstart]
      exact h.active
    case passive =>
      change ∀ p ∈ s.passive.pages, _ < (s.posted + 1) / _ * _
      rw [hstart]
      exact h.passive
    case pushed =>
      intro p i hpi
      obtain ⟨hlt', hsignaled, hposted⟩ := h.pushed p i hpi
      exact ⟨hlt', hsignaled, Nat.lt_succ_of_lt hposted⟩

/-- Every message is handled. -/
theorem Ordered.handle (h : Ordered k s.posted s) (m : Message B) :
    ∃ s', s.handle (powerOfTwo k) m = some s' ∧ Ordered k s'.posted s' := by
  cases m with
  | answer =>
    obtain ⟨s', hs', ho, hposted⟩ := h.writeMsg (Nat.le_succ _)
    exact ⟨s', hs', ho.mono (by omega)⟩
  | sendAway page =>
    obtain ⟨s₁, hs₁, ho₁, hposted₁⟩ := h.writeMsg (Nat.le_succ _)
    obtain ⟨s₂, hs₂, ho₂, hposted₂⟩ := ho₁.add page (by omega) (by omega)
    refine ⟨s₂, ?_, ho₂.mono (by omega)⟩
    rw [Connection.handle, hs₁]
    exact hs₂
  | update page =>
    obtain ⟨s₁, hs₁, ho₁, hposted₁⟩ := h.add page (Nat.le_succ _) (Nat.le_refl _)
    obtain ⟨s₂, hs₂, ho₂, hposted₂⟩ := ho₁.writeMsg (by omega)
    refine ⟨s₂, ?_, ho₂.mono (by omega)⟩
    rw [Connection.handle, hs₁]
    exact hs₂

theorem Ordered.handleAll (h : Ordered k s.posted s) (ms : List (Message B)) :
    ∃ s', s.handleAll (powerOfTwo k) ms = some s' ∧ Ordered k s'.posted s' := by
  induction ms generalizing s with
  | nil => exact ⟨s, rfl, h⟩
  | cons m ms ih =>
    obtain ⟨s₁, hs₁, ho₁⟩ := h.handle m
    obtain ⟨s₂, hs₂, ho₂⟩ := ih ho₁
    refine ⟨s₂, ?_, ho₂⟩
    rw [Connection.handleAll, hs₁]
    exact hs₂

end Steps

theorem ordered_init (k : Fin 64) : Ordered k 0 (init : Connection B) := by
  constructor <;> simp [init, writes, Filled, InvalidationBatch.pages]

end Connection

open Connection

/-- However long a connection is used, no batch overflows and no poll waits for nothing, and a page
goes back once, when the completion of a signaled write behind its own has been polled. -/
theorem invalidations_reclaimed (k : Fin 64) (ms : List (Message B)) :
    ∃ s, (init : Connection B).handleAll (powerOfTwo k) ms = some s ∧
      (s.pushed.map (·.1.write)).Nodup ∧
      ∀ p i, (p, i) ∈ s.pushed → p.write < i ∧ i % 2 ^ k.val = 0 ∧ i < s.posted := by
  obtain ⟨s, hs, ho⟩ := Ordered.handleAll (s := init) (ordered_init k) ms
  exact ⟨s, hs, (List.pairwise_append.mp ho.sorted).1.imp Nat.ne_of_lt, ho.pushed⟩

/-- With an interval of 2 the page of the write 0 goes back behind the completion of the write 2. -/
example : ((init : Connection Nat).handleAll (powerOfTwo 1)
    [.sendAway 7, .answer, .update 8, .answer]).map (·.pushed) = some [(⟨7, 0⟩, 2)] := by
  decide

end ScaleStore.Invalidations
