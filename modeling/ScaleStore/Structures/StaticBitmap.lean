/-
# Choosing a holder at random

The possessors of a page are the set bits of a word.  `applyForAll` goes through all
of them, on a copy of the word, so that the callback may reset bits;
`applyToOneRnd` draws a number and counts the bits off until it is reached.

The number is drawn from an interval that is open at its end, but the count less one
is given for the end.  Of several holders the last one is never drawn.
-/

import ScaleStore.Lib.SetBits

namespace ScaleStore.StaticBitmap

open SetBits

/-- `RandomGenerator::getRandU64(min, max)`, where the generator returns `rnd`; nothing is returned
where `ensure` throws. -/
def getRandU64 (rnd min max : BitVec 64) : Option (BitVec 64) :=
  let rand := min + rnd % (max - min)
  if rand < max ∧ min ≤ rand then some rand else none

section Operations

variable {σ : Type} (func : Nat → BitVec 64 × σ → BitVec 64 × σ)

/-- The loop of `applyForAll`.  The callback sees the bitmap itself and whatever else there is. -/
def forAllLoop : Nat → BitVec 64 → BitVec 64 × σ → Option (BitVec 64 × σ)
  | 0, bitset, s => if bitset = 0 then some s else none
  | fuel + 1, bitset, s =>
      if bitset = 0 then some s
      else
        let t := bitset &&& -bitset
        forAllLoop fuel (bitset ^^^ t) (func bitset.ctz.toNat s)

def applyForAll (fuel : Nat) (s : BitVec 64 × σ) : Option (BitVec 64 × σ) :=
  forAllLoop func fuel s.1 s

def applyToOne (s : BitVec 64 × σ) : BitVec 64 × σ :=
  if s.1 = 0 then s else func s.1.ctz.toNat s

/-- The loop of `applyToOneRnd`. -/
def pickLoop (pick : BitVec 64) : Nat → BitVec 64 → Nat → BitVec 64 × σ → Option (BitVec 64 × σ)
  | 0, bitset, _, s => if bitset = 0 then some s else none
  | fuel + 1, bitset, idx, s =>
      if bitset = 0 then some s
      else if idx = pick.toNat then some (func bitset.ctz.toNat s)
      else
        let t := bitset &&& -bitset
        pickLoop pick fuel (bitset ^^^ t) (idx + 1) s

def applyToOneRnd (rnd : BitVec 64) (fuel : Nat) (s : BitVec 64 × σ) : Option (BitVec 64 × σ) :=
  let cnt := s.1.cpop
  if cnt = 1 then some (applyToOne func s)
  else
    match getRandU64 rnd 0 (cnt - 1) with
    | some pick => pickLoop func pick fuel s.1 0 s
    | none => none

end Operations

/-- With this draw the function is called once, for the bit `r`. -/
def Chooses (bitmap rnd : BitVec 64) (r : Nat) : Prop :=
  ∀ (σ : Type) (func : Nat → BitVec 64 × σ → BitVec 64 × σ) (state : σ) (fuel : Nat), 64 ≤ fuel →
    applyToOneRnd func rnd fuel (bitmap, state) = some (func r (bitmap, state))

variable {σ : Type} {func : Nat → BitVec 64 × σ → BitVec 64 × σ} {s : BitVec 64 × σ}
  {bitset bitmap rnd pick : BitVec 64} {fuel idx r r' : Nat}

theorem forAllLoop_eq (hfuel : (setBits bitset).length ≤ fuel) :
    forAllLoop func fuel bitset s = some ((setBits bitset).foldl (fun s r => func r s) s) := by
  induction fuel generalizing bitset s with
  | zero =>
      have hnil := List.length_eq_zero_iff.mp (Nat.le_zero.mp hfuel)
      rw [forAllLoop, if_pos (setBits_eq_nil_iff.mp hnil), hnil]
      rfl
  | succ fuel ih =>
      rw [forAllLoop]
      by_cases hzero : bitset = 0
      · rw [if_pos hzero, setBits_eq_nil_iff.mpr hzero]
        rfl
      · rw [if_neg hzero]
        have hcons := setBits_eq_cons hzero
        rw [hcons] at hfuel ⊢
        exact ih (Nat.le_of_succ_le_succ hfuel)

theorem applyForAll_eq (hfuel : 64 ≤ fuel) :
    applyForAll func fuel s = some ((setBits s.1).foldl (fun s r => func r s) s) :=
  forAllLoop_eq ((length_setBits_le s.1).trans hfuel)

/-- The number that is drawn says how many bits are passed over. -/
theorem pickLoop_eq (hfuel : (setBits bitset).length ≤ fuel) {skipped : Nat}
    (hidx : idx + skipped = pick.toNat) (hr : (setBits bitset)[skipped]? = some r) :
    pickLoop func pick fuel bitset idx s = some (func r s) := by
  have hne : bitset ≠ 0 := by
    rintro rfl
    rw [setBits_eq_nil_iff.mpr rfl] at hr
    cases hr
  rw [setBits_eq_cons hne] at hr hfuel
  induction fuel generalizing bitset idx skipped with
  | zero => cases hfuel
  | succ fuel ih =>
      rw [pickLoop, if_neg hne]
      cases skipped with
      | zero =>
          rw [if_pos (by omega)]
          exact congrArg (fun r => some (func r s)) (Option.some.inj hr)
      | succ skipped =>
          rw [if_neg (by omega)]
          rw [List.getElem?_cons_succ] at hr
          have hne' : clearLowest bitset ≠ 0 := by
            intro hzero
            rw [setBits_eq_nil_iff.mpr hzero] at hr
            cases hr
          rw [setBits_eq_cons hne'] at hr hfuel
          exact ih (Nat.le_of_succ_le_succ hfuel) (by omega) hr hne'

theorem Chooses.unique (h : Chooses bitmap rnd r) (h' : Chooses bitmap rnd r') : r = r' := by
  have hr := h Nat (fun r _ => (0, r)) 0 64 le_rfl
  have hr' := h' Nat (fun r _ => (0, r)) 0 64 le_rfl
  exact (Prod.mk.inj (Option.some.inj (hr.symm.trans hr'))).2

theorem cpop_eq_one_iff : bitmap.cpop = 1 ↔ (setBits bitmap).length = 1 := by
  rw [length_setBits, ← BitVec.toNat_inj]
  rfl

/-- A single holder is chosen whatever is drawn. -/
theorem chooses_single (h : bitmap.cpop = 1) (hr : r ∈ setBits bitmap) : Chooses bitmap rnd r := by
  intro σ func state fuel _
  have hne : bitmap ≠ 0 := by
    rintro rfl
    rw [setBits_eq_nil_iff.mpr rfl] at hr
    cases hr
  have hcons := setBits_eq_cons hne
  obtain ⟨only, honly⟩ := List.length_eq_one_iff.mp (cpop_eq_one_iff.mp h)
  rw [honly] at hr hcons
  obtain rfl := List.mem_singleton.mp hr
  obtain rfl := (List.cons.inj hcons).1
  rw [applyToOneRnd, if_pos h, applyToOne, if_neg hne]

/-- Of several holders the draw selects one by its place, modulo one less than there are. -/
theorem chooses_several (h : 2 ≤ (setBits bitmap).length) (rnd : BitVec 64)
    (hlt : rnd.toNat % ((setBits bitmap).length - 1) < (setBits bitmap).length) :
    Chooses bitmap rnd (setBits bitmap)[rnd.toNat % ((setBits bitmap).length - 1)] := by
  intro σ func state fuel hfuel
  have hlen := length_setBits bitmap
  have hbound := length_setBits_le bitmap
  have hmax : (bitmap.cpop - 1).toNat = (setBits bitmap).length - 1 := by
    rw [BitVec.toNat_sub_of_le, hlen]
    · rfl
    · rw [BitVec.le_def, ← hlen]
      exact Nat.le_of_succ_le h
  have hrand : ((0 : BitVec 64) + rnd % (bitmap.cpop - 1 - 0)).toNat =
      rnd.toNat % ((setBits bitmap).length - 1) := by
    show (0#64 + rnd % (bitmap.cpop - 1 - 0#64)).toNat = _
    rw [BitVec.zero_add, BitVec.sub_zero, BitVec.toNat_umod, hmax]
  have hrange : (0 : BitVec 64) + rnd % (bitmap.cpop - 1 - 0) < bitmap.cpop - 1 ∧
      0 ≤ (0 : BitVec 64) + rnd % (bitmap.cpop - 1 - 0) := by
    refine ⟨?_, Nat.zero_le _⟩
    rw [BitVec.lt_def, hrand, hmax]
    exact Nat.mod_lt _ (by omega)
  have hcnt : bitmap.cpop ≠ 1 := fun hone => by
    have := cpop_eq_one_iff.mp hone
    omega
  simp only [applyToOneRnd, if_neg hcnt, getRandU64, if_pos hrange]
  exact pickLoop_eq (hbound.trans hfuel) ((Nat.zero_add _).trans hrand.symm)
    (List.getElem?_eq_getElem hlt)

/-- One holder is chosen, and the same function goes to all of them in `applyForAll`.  But each
holder can be chosen only if there is just one. -/
theorem holder_choice (bitmap : BitVec 64) (hne : bitmap ≠ 0) :
    (∀ rnd, ∃ r, bitmap.getLsbD r = true ∧ Chooses bitmap rnd r) ∧
      (∃ bits : List Nat, bits.Nodup ∧ (∀ r, r ∈ bits ↔ bitmap.getLsbD r = true) ∧
        ∀ (σ : Type) (func : Nat → BitVec 64 × σ → BitVec 64 × σ) (state : σ) (fuel : Nat),
          64 ≤ fuel → applyForAll func fuel (bitmap, state) =
            some (bits.foldl (fun s r => func r s) (bitmap, state))) ∧
      ((∀ r, bitmap.getLsbD r = true → ∃ rnd, Chooses bitmap rnd r) ↔ bitmap.cpop = 1) := by
  have hpos : 0 < (setBits bitmap).length :=
    List.length_pos_iff.mpr fun h => hne (setBits_eq_nil_iff.mp h)
  refine ⟨fun rnd => ?_, ⟨setBits bitmap, setBits_nodup bitmap, fun r => mem_setBits,
    fun σ func state fuel hfuel => applyForAll_eq hfuel⟩, fun hfair => ?_, fun h r hr => ?_⟩
  · by_cases hone : bitmap.cpop = 1
    · have hmem := List.getElem_mem hpos
      exact ⟨_, mem_setBits.mp hmem, chooses_single hone hmem⟩
    · rw [cpop_eq_one_iff] at hone
      have hlt : rnd.toNat % ((setBits bitmap).length - 1) < (setBits bitmap).length :=
        (Nat.mod_lt _ (by omega)).trans (by omega)
      exact ⟨_, mem_setBits.mp (List.getElem_mem hlt), chooses_several (by omega) rnd hlt⟩
  · by_contra hone
    rw [cpop_eq_one_iff] at hone
    -- the last holder is out of reach of the remainder
    have hlast : (setBits bitmap).length - 1 < (setBits bitmap).length := by omega
    obtain ⟨rnd, hchosen⟩ := hfair _ (mem_setBits.mp (List.getElem_mem hlast))
    have hmod : rnd.toNat % ((setBits bitmap).length - 1) < (setBits bitmap).length - 1 :=
      Nat.mod_lt _ (by omega)
    have heq := hchosen.unique (chooses_several (by omega) rnd (hmod.trans hlast))
    have hidx := (setBits_nodup bitmap).getElem_inj_iff.mp heq
    omega
  · exact ⟨0, chooses_single h (mem_setBits.mpr hr)⟩

/-- The only holder is the node 3. -/
theorem holder_choice_one : ∃ rnd, Chooses 8 rnd 3 :=
  (holder_choice 8 (by decide)).2.2.mpr (by decide) 3 (by decide)

/-- Of the holders 0 and 3 the draw from `[0, 1)` always selects the first. -/
theorem last_holder_spared :
    (9 : BitVec 64).getLsbD 3 = true ∧ ¬ ∃ rnd, Chooses 9 rnd 3 := by
  refine ⟨by decide, ?_⟩
  rintro ⟨rnd, h⟩
  have hzero : rnd.toNat % ((setBits (9 : BitVec 64)).length - 1) = 0 := by
    rw [show (setBits (9 : BitVec 64)).length = 2 by decide]
    exact Nat.mod_one _
  have hfirst := chooses_several (show 2 ≤ (setBits (9 : BitVec 64)).length by decide) rnd
    (hzero ▸ by decide)
  simp only [hzero] at hfirst
  have hthree : 3 = 0 := h.unique hfirst
  cases hthree

end ScaleStore.StaticBitmap
