/-
# Pages and reading them from the SSD

`Buffermanager::readPageSync` asks `pread` for a page until nothing of it is left
to read.  It moves the file offset on by what it has got, but not the
destination, and it takes the result -1 of a failed call for a number of bytes,
so that the next call asks for one byte more, one byte earlier.

Two things follow.  Only a call that returns the whole page puts the whole page
in place; and as long as no more calls have failed than bytes have been read, no
call asks for more than a page.
-/

import ScaleStore.Lib.StructLayout
import Mathlib.Algebra.BigOperators.Group.List.Basic

namespace ScaleStore.Storage

open StructLayout

/-! ## Pages -/

def PAGE_SIZE : Nat := 512

/-- `Page` begins with a number for debugging; the data follows it. -/
def magicDebuggingNumber : ObjectType := .scalar 3

def EFFECTIVE_PAGE_SIZE : Nat := PAGE_SIZE - magicDebuggingNumber.size

/-- The identifier of a page, with its owner in the upper 8 bits. -/
abbrev PID := BitVec 64

def NODEID_MASK : BitVec 64 := ~~~0#64 >>> 8

def PID.plainPID (pid : PID) : BitVec 64 := pid &&& NODEID_MASK

/-! ## readPageSync -/

/-- Where the page begins on the SSD. -/
def pageOffset (pid : PID) : BitVec 64 := pid.plainPID * BitVec.ofNat 64 PAGE_SIZE

/-- The file offset of a call when `bytes_left` bytes are left. -/
def readOffset (pid : PID) (bytes_left : Int) : BitVec 64 :=
  pageOffset pid + (BitVec.ofNat 64 PAGE_SIZE - BitVec.ofInt 64 bytes_left)

/-- The loop of `readPageSync` between two calls of `pread`. -/
structure ReadLoop where
  /-- The memory from `destination` on. -/
  memory : Nat → UInt8
  bytes_left : Int
  /-- How many bytes the calls so far have asked for, each of them for `destination` on. -/
  requested : List Int

/-- One pass of the loop: `pread` has returned `bytes_read`, and has written that many bytes. -/
def ReadLoop.pass (disk : Nat → UInt8) (pid : PID) (s : ReadLoop) (bytes_read : Int) :
    ReadLoop where
  memory := fun j =>
    if (j : Int) < bytes_read then disk ((readOffset pid s.bytes_left).toNat + j) else s.memory j
  bytes_left := s.bytes_left - bytes_read
  requested := s.requested ++ [s.bytes_left]

/-- The do-while loop, for the results of the calls it makes. -/
def ReadLoop.run (disk : Nat → UInt8) (pid : PID) : List Int → ReadLoop → Option ReadLoop
  | [], _ => none
  | bytes_read :: rest, s =>
      let s' := s.pass disk pid bytes_read
      if 0 < s'.bytes_left then ReadLoop.run disk pid rest s'
      else if rest = [] then some s' else none

def readPageSync (disk : Nat → UInt8) (pid : PID) (memory : Nat → UInt8) (results : List Int) :
    Option ReadLoop :=
  ReadLoop.run disk pid results ⟨memory, PAGE_SIZE, []⟩

/-- Results of `pread` for a loop that has `left` bytes to read and returns after the last of them:
a failed call, or at least one byte and no more than was asked for. -/
def Allowed : Int → List Int → Prop
  | _, [] => False
  | left, r :: rest =>
      (r = -1 ∨ 1 ≤ r ∧ r ≤ left) ∧ if 0 < left - r then Allowed (left - r) rest else rest = []

/-- The page is delivered: it has been copied to the destination, and nothing behind the
destination has been asked for or written. -/
def Delivered (disk : Nat → UInt8) (pid : PID) (memory : Nat → UInt8) (results : List Int) : Prop :=
  ∃ s, readPageSync disk pid memory results = some s ∧
    (∀ j, j < PAGE_SIZE → s.memory j = disk ((pageOffset pid).toNat + j)) ∧
    (∀ n ∈ s.requested, n ≤ PAGE_SIZE) ∧ ∀ j, PAGE_SIZE ≤ j → s.memory j = memory j

/-! ## What the loop does -/

section Loop

variable {disk : Nat → UInt8} {pid : PID} {results : List Int} {s s' : ReadLoop}

@[simp] theorem pass_bytes_left (r : Int) : (s.pass disk pid r).bytes_left = s.bytes_left - r := rfl

@[simp] theorem pass_requested (r : Int) :
    (s.pass disk pid r).requested = s.requested ++ [s.bytes_left] := rfl

theorem run_more {r : Int} (h : 0 < s.bytes_left - r) :
    ReadLoop.run disk pid (r :: results) s = ReadLoop.run disk pid results (s.pass disk pid r) :=
  if_pos h

theorem run_done {r : Int} (h : ¬ 0 < s.bytes_left - r) :
    ReadLoop.run disk pid [r] s = some (s.pass disk pid r) :=
  if_neg h

/-- Either the loop goes on after the first call, or this was the only one and has read all that
was left. -/
theorem Allowed.cases {left r : Int} (hleft : 0 < left) (h : Allowed left (r :: results)) :
    (0 < left - r ∧ (r = -1 ∨ 1 ≤ r) ∧ Allowed (left - r) results) ∨ (r = left ∧ results = []) := by
  obtain ⟨hr, hrest⟩ := h
  split at hrest
  case isTrue hmore => exact Or.inl ⟨hmore, hr.imp_right And.left, hrest⟩
  case isFalse hdone =>
    refine Or.inr ⟨?_, hrest⟩
    rcases hr with rfl | ⟨-, hle⟩ <;> omega

/-- What the loop has done when it returns: it has asked for what was left each time; cells that
no call has reached are as they were; and the last call has read all that was left. -/
theorem run_spec (disk : Nat → UInt8) (pid : PID) (hleft : 0 < s.bytes_left)
    (h : Allowed s.bytes_left results) :
    ∃ s', ReadLoop.run disk pid results s = some s' ∧
      (∀ n, n ∈ s'.requested ↔
        n ∈ s.requested ∨ ∃ k, k < results.length ∧ n = s.bytes_left - (results.take k).sum) ∧
      (∀ j : Nat, (∀ r ∈ results, r ≤ j) → s'.memory j = s.memory j) ∧
      ∀ last, results.getLast? = some last → ∀ j : Nat, (j : Int) < last →
        s'.memory j = disk ((readOffset pid last).toNat + j) := by
  induction results generalizing s with
  | nil => exact h.elim
  | cons r rest ih =>
    have hpass : ∀ j : Nat, r ≤ j → (s.pass disk pid r).memory j = s.memory j :=
      fun j hj => if_neg (not_lt.mpr hj)
    rcases h.cases hleft with ⟨hmore, -, hrest⟩ | ⟨hlast, rfl⟩
    · obtain ⟨s', hrun, hrequested, huntouched, hend⟩ := ih (s := s.pass disk pid r) hmore hrest
      refine ⟨s', by rw [run_more hmore, hrun], fun n => ?_, fun j hj => ?_, fun last hlast => ?_⟩
      · rw [hrequested]
        simp only [pass_requested, pass_bytes_left, List.mem_append, List.mem_singleton, or_assoc]
        refine or_congr_right ⟨?_, ?_⟩
        · rintro (rfl | ⟨k, hk, rfl⟩)
          · exact ⟨0, by simp, by simp⟩
          · exact ⟨k + 1, by simpa using hk, by simp [sub_sub]⟩
        · rintro ⟨k, hk, rfl⟩
          cases k with
          | zero => exact Or.inl (by simp)
          | succ k => exact Or.inr ⟨k, by simpa using hk, by simp [sub_sub]⟩
      · rw [huntouched j fun r' hr' => hj r' (List.mem_cons_of_mem r hr'),
          hpass j (hj r List.mem_cons_self)]
      · refine hend last ?_
        cases rest with
        | nil => exact hrest.elim
        | cons r' rest' => simpa using hlast
    · refine ⟨s.pass disk pid r, run_done (by omega), fun n => ?_, fun j hj => ?_,
        fun last hl => ?_⟩
      · simp only [pass_requested, List.mem_append, List.mem_singleton]
        refine or_congr_right ⟨fun h => ⟨0, by simp, by simpa using h⟩, ?_⟩
        rintro ⟨k, hk, rfl⟩
        obtain rfl : k = 0 := by simpa using hk
        simp
      · exact hpass j (hj r List.mem_cons_self)
      · -- the loop ends because the call has read all that was left
        obtain rfl : r = last := by simpa using hl
        intro j hj
        have hcell : (s.pass disk pid r).memory j =
            disk ((readOffset pid s.bytes_left).toNat + j) := if_pos hj
        rw [hcell, ← hlast]

/-- If no call asks for more than `limit`, no call returns more; and one that returns so much is
the last one. -/
theorem Allowed.le_limit {left limit : Int} (hleft : 0 < left) (h : Allowed left results)
    (hbound : ∀ k, k < results.length → left - (results.take k).sum ≤ limit) :
    ∀ r ∈ results, r ≤ limit ∧ (r = limit → results.getLast? = some limit) := by
  induction results generalizing left with
  | nil => exact h.elim
  | cons r rest ih =>
    have hfirst : left ≤ limit := by simpa using hbound 0 (by simp)
    intro x hx
    rcases h.cases hleft with ⟨hmore, -, hrest⟩ | ⟨rfl, rfl⟩
    · rcases List.mem_cons.mp hx with rfl | hx
      · exact ⟨by omega, fun heq => by omega⟩
      · have hbound' : ∀ k, k < rest.length → left - r - (rest.take k).sum ≤ limit := by
          intro k hk
          simpa [sub_sub] using hbound (k + 1) (by simpa using hk)
        obtain ⟨hle, hlast⟩ := ih hmore hrest hbound' x hx
        refine ⟨hle, fun heq => ?_⟩
        cases rest with
        | nil => exact hrest.elim
        | cons r' rest' => simpa using hlast heq
    · obtain rfl : x = r := by simpa using hx
      exact ⟨hfirst, fun heq => by simp [heq]⟩

theorem readPageSync_spec (disk : Nat → UInt8) (pid : PID) (memory : Nat → UInt8)
    (h : Allowed PAGE_SIZE results) :
    ∃ s, readPageSync disk pid memory results = some s ∧
      (∀ n, n ∈ s.requested ↔ ∃ k, k < results.length ∧ n = PAGE_SIZE - (results.take k).sum) ∧
      (∀ j : Nat, (∀ r ∈ results, r ≤ j) → s.memory j = memory j) ∧
      ∀ last, results.getLast? = some last → ∀ j : Nat, (j : Int) < last →
        s.memory j = disk ((readOffset pid last).toNat + j) := by
  obtain ⟨s, hrun, hrequested, hrest⟩ :=
    run_spec (s := ⟨memory, PAGE_SIZE, []⟩) disk pid (show (0 : Int) < PAGE_SIZE by decide) h
  exact ⟨s, hrun, fun n => by simpa using hrequested n, hrest⟩

end Loop

/-! ## When the page is delivered -/

/-- The call that ends the loop returns the whole page, and no more calls have failed before it
than bytes have been read. -/
def ReadsWholePage (results : List Int) : Prop :=
  results.getLast? = some (PAGE_SIZE : Int) ∧
    ∀ k, k < results.length → 0 ≤ (results.take k).sum

theorem readOffset_whole (pid : PID) : readOffset pid PAGE_SIZE = pageOffset pid := by
  rw [readOffset, show BitVec.ofInt 64 (PAGE_SIZE : Int) = BitVec.ofNat 64 PAGE_SIZE by decide]
  simp

/-- `readPageSync` delivers the page, whatever the SSD and the destination hold, exactly when the
call that ends its loop returns the whole page. -/
theorem delivers_iff (pid : PID) {results : List Int} (h : Allowed PAGE_SIZE results) :
    (∀ disk memory, Delivered disk pid memory results) ↔ ReadsWholePage results := by
  have hpos : (0 : Int) < PAGE_SIZE := by decide
  constructor
  · intro hall
    have hbound : ∀ k, k < results.length →
        (PAGE_SIZE : Int) - (results.take k).sum ≤ PAGE_SIZE := by
      intro k hk
      obtain ⟨s, hrun, -, hasked, -⟩ := hall (fun _ => 0) (fun _ => 0)
      obtain ⟨s', hrun', hrequested, -⟩ := readPageSync_spec (fun _ => 0) pid (fun _ => 0) h
      obtain rfl := Option.some.inj (hrun.symm.trans hrun')
      exact hasked _ ((hrequested _).mpr ⟨k, hk, rfl⟩)
    refine ⟨?_, fun k hk => by have := hbound k hk; omega⟩
    by_contra hlast
    -- otherwise the last cell of the page keeps what the destination held before
    obtain ⟨s, hrun, hpage, -⟩ := hall (fun _ => 0) (fun _ => 1)
    obtain ⟨s', hrun', -, huntouched, -⟩ := readPageSync_spec (fun _ => 0) pid (fun _ => 1) h
    obtain rfl := Option.some.inj (hrun.symm.trans hrun')
    have hkept : s.memory (PAGE_SIZE - 1) = 1 := by
      refine huntouched (PAGE_SIZE - 1) fun r hr => ?_
      obtain ⟨hr', hwhole⟩ := h.le_limit hpos hbound r hr
      have hne : r ≠ PAGE_SIZE := fun heq => hlast (hwhole heq)
      simp only [PAGE_SIZE] at hr' hne ⊢
      omega
    have hread : (1 : UInt8) = 0 := hkept.symm.trans (hpage (PAGE_SIZE - 1) (by decide))
    exact absurd hread (by decide)
  · rintro ⟨hlast, hsums⟩ disk memory
    have hbound : ∀ k, k < results.length →
        (PAGE_SIZE : Int) - (results.take k).sum ≤ PAGE_SIZE := by
      intro k hk
      have := hsums k hk
      omega
    obtain ⟨s, hrun, hrequested, huntouched, hend⟩ := readPageSync_spec disk pid memory h
    refine ⟨s, hrun, fun j hj => ?_, fun n hn => ?_, fun j hj => huntouched j fun r hr => ?_⟩
    · rw [hend _ hlast j (by exact_mod_cast hj), readOffset_whole]
    · obtain ⟨k, hk, rfl⟩ := (hrequested n).mp hn
      exact hbound k hk
    · exact (h.le_limit hpos hbound r hr).1.trans (by exact_mod_cast hj)

/-- Two halves of a page: the second one overwrites the first one. -/
theorem second_half_in_place_of_first : ¬ ∀ (pid : PID) (results : List Int),
    Allowed PAGE_SIZE results → ∀ disk memory, Delivered disk pid memory results := by
  intro hall
  have hallowed : Allowed PAGE_SIZE [256, 256] := by simp [Allowed, PAGE_SIZE]
  let disk : Nat → UInt8 := fun i => if i < 256 then 1 else 2
  obtain ⟨s, hrun, hpage, -⟩ := hall 0 _ hallowed disk fun _ => 0
  obtain ⟨s', hrun', -, -, hend⟩ := readPageSync_spec disk 0 (fun _ => 0) hallowed
  obtain rfl := Option.some.inj (hrun.symm.trans hrun')
  have hfirst : disk (pageOffset 0).toNat = disk (readOffset 0 256).toNat :=
    (hpage 0 (by decide)).symm.trans (hend 256 rfl 0 (by decide))
  exact absurd hfirst (by decide)

/-- A short read that is followed by as many failed calls is made up for. -/
theorem delivers_after_failure : Delivered UInt8.ofNat 7 (fun _ => 0) [1, -1, 512] :=
  (delivers_iff 7 (by simp [Allowed, PAGE_SIZE])).mpr ⟨by decide, by decide⟩ _ _

end ScaleStore.Storage
