/-
# The allocator of RDMA memory

Mailboxes, messages and pages all come from one buffer, and nothing is ever given
back.  `std::align` moves the position to the next aligned address and takes the gap
from the space that is left; the allocator then takes the bytes itself.

The position and the space are machine words.  That they do not wrap around is part
of the invariant: the buffer ends below the end of the address space.

The synchronized allocator holds a mutex for the whole call, so that the calls of
several threads come one after the other as well.
-/

import ScaleStore.Lib.StructLayout
import Mathlib.Order.CompletePartialOrder

namespace ScaleStore.MonotonicBuffer

open StructLayout (alignUp)

/-- `HugePages<uint8_t>`: memory that exists. -/
structure HugePages where
  memory : Nat
  size : Nat
  fits : memory + size < 2 ^ 64

structure MonotonicBufferResource where
  bufferPosition : Nat
  bufferSize : Nat
  sizeLeft : Nat
  buffer : HugePages

/-- The constructor. -/
def create (buffer : HugePages) : MonotonicBufferResource where
  bufferPosition := buffer.memory
  bufferSize := buffer.size
  sizeLeft := buffer.size
  buffer := buffer

/-- `std::align`: the adjusted pointer with the space behind it, unless `size` bytes do not fit. -/
def align (alignment size ptr space : Nat) : Option (Nat × Nat) :=
  if alignUp ptr alignment + size ≤ ptr + space then
    some (alignUp ptr alignment, space - (alignUp ptr alignment - ptr))
  else none

inductive Outcome where
  | returned (result : Nat)
  | bad_alloc
  | runtime_error
deriving DecidableEq, Repr

namespace MonotonicBufferResource

variable (r : MonotonicBufferResource)

def do_allocate (bytes alignment : Nat) : MonotonicBufferResource × Outcome :=
  if r.sizeLeft < bytes then (r, .bad_alloc)
  else
    match align alignment bytes r.bufferPosition r.sizeLeft with
    | some (result, space) =>
        let r' := { r with
          bufferPosition := (result + bytes) % 2 ^ 64
          sizeLeft := (space + 2 ^ 64 - bytes) % 2 ^ 64 }
        if result % alignment ≠ 0 then (r', .runtime_error) else (r', .returned result)
    | none => (r, .bad_alloc)

/-- The position lies in the buffer, and what is left of it is behind. -/
structure Sound : Prop where
  memory_le : r.buffer.memory ≤ r.bufferPosition
  left : r.bufferPosition + r.sizeLeft = r.buffer.memory + r.buffer.size

variable {r} {alignment : Nat}

/-- What a call can do. -/
theorem Sound.do_allocate_cases (h : r.Sound) (bytes : Nat) (hpos : 0 < alignment) :
    (∃ result, (r.do_allocate bytes alignment).2 = .returned result ∧ alignment ∣ result ∧
        r.bufferPosition ≤ result ∧
        (r.do_allocate bytes alignment).1.bufferPosition = result + bytes ∧
        (r.do_allocate bytes alignment).1.buffer = r.buffer ∧
        (r.do_allocate bytes alignment).1.Sound) ∨
      (r.do_allocate bytes alignment).2 = .bad_alloc ∧ (r.do_allocate bytes alignment).1 = r := by
  unfold do_allocate
  by_cases hleft : r.sizeLeft < bytes
  · exact .inr ⟨by rw [if_pos hleft], by rw [if_pos hleft]⟩
  rw [if_neg hleft]
  unfold align
  by_cases hroom : alignUp r.bufferPosition alignment + bytes ≤ r.bufferPosition + r.sizeLeft
  · have hge := StructLayout.le_alignUp (n := r.bufferPosition) hpos
    have hdvd := StructLayout.dvd_alignUp r.bufferPosition alignment
    have hmemory := h.memory_le
    have hspace := h.left
    have hfits := r.buffer.fits
    generalize alignUp r.bufferPosition alignment = result at *
    -- neither word wraps around
    have hposition : (result + bytes) % 2 ^ 64 = result + bytes := Nat.mod_eq_of_lt (by omega)
    have hrest : (r.sizeLeft - (result - r.bufferPosition) + 2 ^ 64 - bytes) % 2 ^ 64 =
        r.bufferPosition + r.sizeLeft - (result + bytes) := by omega
    have haligned : ¬ result % alignment ≠ 0 := not_not.mpr (Nat.mod_eq_zero_of_dvd hdvd)
    simp only [if_pos hroom, if_neg haligned, hposition, hrest]
    refine .inl ⟨result, rfl, hdvd, hge, rfl, trivial, ?_, ?_⟩
    · show r.buffer.memory ≤ result + bytes
      omega
    · show result + bytes + (r.bufferPosition + r.sizeLeft - (result + bytes)) =
        r.buffer.memory + r.buffer.size
      omega
  · simp only [if_neg hroom]
    exact .inr ⟨trivial, trivial⟩

end MonotonicBufferResource

/-! ## Sequences of calls -/

/-- A call of `allocate`. -/
structure Request where
  bytes : Nat
  alignment : Nat
  alignment_pow : ∃ k, alignment = 2 ^ k

theorem Request.alignment_pos (q : Request) : 0 < q.alignment := by
  obtain ⟨k, hk⟩ := q.alignment_pow
  rw [hk]
  exact Nat.two_pow_pos k

/-- Memory that has been handed out. -/
structure Range where
  address : Nat
  bytes : Nat
  alignment : Nat
deriving DecidableEq, Repr

def Range.cells (range : Range) : Set Nat := Set.Ico range.address (range.address + range.bytes)

structure History where
  resource : MonotonicBufferResource
  ranges : List Range

def History.allocate (s : History) (q : Request) : History :=
  match s.resource.do_allocate q.bytes q.alignment with
  | (r, .returned result) => ⟨r, s.ranges ++ [⟨result, q.bytes, q.alignment⟩]⟩
  | (r, _) => ⟨r, s.ranges⟩

def run (buffer : HugePages) (requests : List Request) : History :=
  requests.foldl .allocate ⟨create buffer, []⟩

/-- All ranges lie before the position. -/
structure History.Sound (buffer : HugePages) (s : History) : Prop where
  buffer_eq : s.resource.buffer = buffer
  resource : s.resource.Sound
  inside : ∀ range ∈ s.ranges, buffer.memory ≤ range.address ∧
    range.address + range.bytes ≤ s.resource.bufferPosition
  aligned : ∀ range ∈ s.ranges, range.alignment ∣ range.address
  disjoint : s.ranges.Pairwise fun first second => Disjoint first.cells second.cells

variable {buffer : HugePages} {s : History}

theorem History.Sound.allocate (h : s.Sound buffer) (q : Request) :
    (s.allocate q).Sound buffer := by
  unfold History.allocate
  rcases h.resource.do_allocate_cases q.bytes q.alignment_pos with
    ⟨result, houtcome, hdvd, hge, hposition, hbuffer, hsound⟩ | ⟨houtcome, hsame⟩
  · generalize s.resource.do_allocate q.bytes q.alignment = call at *
    obtain ⟨r, outcome⟩ := call
    simp only at houtcome hposition hbuffer hsound ⊢
    subst houtcome
    have hmemory := h.resource.memory_le
    rw [h.buffer_eq] at hmemory hbuffer
    constructor
    case buffer_eq => exact hbuffer
    case resource => exact hsound
    case inside =>
      intro range hmem
      rcases List.mem_append.mp hmem with hold | hnew
      · obtain ⟨hlow, hhigh⟩ := h.inside range hold
        refine ⟨hlow, ?_⟩
        show _ ≤ r.bufferPosition
        omega
      · obtain rfl := List.mem_singleton.mp hnew
        exact ⟨hmemory.trans hge, hposition.ge⟩
    case aligned =>
      intro range hmem
      rcases List.mem_append.mp hmem with hold | hnew
      · exact h.aligned range hold
      · obtain rfl := List.mem_singleton.mp hnew
        exact hdvd
    case disjoint =>
      refine List.pairwise_append.mpr ⟨h.disjoint, List.pairwise_singleton .., ?_⟩
      intro range hold new hnew
      obtain rfl := List.mem_singleton.mp hnew
      refine Set.disjoint_left.mpr fun cell hcell hcell' => ?_
      have hhigh := (h.inside range hold).2
      have hbefore : cell < range.address + range.bytes := hcell.2
      have hbehind : result ≤ cell := hcell'.1
      omega
  · generalize s.resource.do_allocate q.bytes q.alignment = call at *
    obtain ⟨r, outcome⟩ := call
    simp only at houtcome hsame ⊢
    subst houtcome hsame
    exact ⟨h.buffer_eq, h.resource, h.inside, h.aligned, h.disjoint⟩

theorem run_sound (buffer : HugePages) (requests : List Request) :
    (run buffer requests).Sound buffer := by
  induction requests using List.reverseRecOn with
  | nil =>
      exact ⟨rfl, ⟨le_rfl, rfl⟩, nofun, nofun, .nil⟩
  | append_singleton requests q ih =>
      rw [run, List.foldl_append]
      exact ih.allocate q

/-- The allocator hands out disjoint memory, and what raises changes nothing. -/
theorem allocations_disjoint (buffer : HugePages) (requests : List Request) :
    (∀ range ∈ (run buffer requests).ranges, buffer.memory ≤ range.address ∧
        range.address + range.bytes ≤ buffer.memory + buffer.size ∧
        range.alignment ∣ range.address) ∧
      (run buffer requests).ranges.Pairwise (fun first second =>
        Disjoint first.cells second.cells) ∧
      (run buffer requests).resource.bufferPosition + (run buffer requests).resource.sizeLeft =
        buffer.memory + buffer.size ∧
      ∀ q : Request, (∀ result, ((run buffer requests).resource.do_allocate q.bytes
          q.alignment).2 ≠ .returned result) →
        ((run buffer requests).resource.do_allocate q.bytes q.alignment).1 =
          (run buffer requests).resource := by
  have h := run_sound buffer requests
  have hleft := h.resource.left
  rw [h.buffer_eq] at hleft
  refine ⟨fun range hmem => ?_, h.disjoint, hleft, fun q hraised => ?_⟩
  · obtain ⟨hlow, hhigh⟩ := h.inside range hmem
    exact ⟨hlow, by omega, h.aligned range hmem⟩
  · rcases h.resource.do_allocate_cases q.bytes q.alignment_pos with
      ⟨result, houtcome, _⟩ | ⟨_, hsame⟩
    · exact absurd houtcome (hraised result)
    · exact hsame

end ScaleStore.MonotonicBuffer
