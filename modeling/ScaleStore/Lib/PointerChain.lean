/-
# Chains of pointers

Intrusive singly linked lists: a family of `next` fields, and what following them
from a pointer visits.  Linking a node at the end and unlinking one each write a
single field.
-/

import Mathlib.Logic.Function.Basic
import Mathlib.Logic.Relation
import Mathlib.Tactic.Common

namespace ScaleStore

universe u

variable {F : Type u}

/-- Starting at the pointer `a`, following `next` visits `L` and arrives at the pointer `b`. -/
def Chain (next : F → Option F) : Option F → List F → Option F → Prop
  | a, [], b => a = b
  | a, x :: L, b => a = some x ∧ Chain next (next x) L b

namespace Chain

variable {next : F → Option F} {a b : Option F} {L M : List F} {x f : F}

theorem append_iff : Chain next a (L ++ M) b ↔ ∃ c, Chain next a L c ∧ Chain next c M b := by
  induction L generalizing a with
  | nil => simp [Chain]
  | cons y L ih => simp [Chain, ih, and_assoc]

theorem snoc_iff : Chain next a (L ++ [x]) b ↔ Chain next a L (some x) ∧ next x = b := by
  rw [append_iff]
  constructor
  · rintro ⟨c, hL, rfl, hb⟩
    exact ⟨hL, hb⟩
  · rintro ⟨hL, hb⟩
    exact ⟨some x, hL, rfl, hb⟩

/-- A pointer to the rest of a chain points to the first node of the rest. -/
theorem head_eq (h : Chain next a L none) : a = L.head? := by
  cases L with
  | nil => exact h
  | cons y L => exact h.1

/-- What the field that has been reached last contains. -/
theorem next_eq (h : Chain next a (L ++ x :: M) none) : next x = M.head? := by
  obtain ⟨c, _, _, hM⟩ := append_iff.mp h
  exact hM.head_eq

/-- What a pointer leads to is determined. -/
theorem unique (hL : Chain next a L none) (hM : Chain next a M none) : L = M := by
  induction L generalizing a M with
  | nil =>
    obtain rfl : a = none := hL
    exact (List.head?_eq_none_iff.mp hM.head_eq.symm).symm
  | cons y L ih =>
    obtain ⟨rfl, hL⟩ := hL
    cases M with
    | nil => cases hM
    | cons z M =>
      obtain ⟨hyz, hM⟩ := hM
      obtain rfl := Option.some.inj hyz
      rw [ih hL hM]

/-- A chain that ends visits no node twice. -/
theorem nodup (h : Chain next a L none) : L.Nodup := by
  induction L generalizing a with
  | nil => exact List.nodup_nil
  | cons y L ih =>
    obtain ⟨rfl, hL⟩ := h
    refine List.nodup_cons.mpr ⟨fun hy => ?_, ih hL⟩
    obtain ⟨pre, suf, rfl⟩ := List.append_of_mem hy
    obtain ⟨c, _, rfl, hsuf⟩ := append_iff.mp hL
    have hlength := congrArg List.length (unique hL hsuf)
    rw [List.length_append, List.length_cons] at hlength
    omega

/-- Writing a field of a node that is not visited changes nothing. -/
theorem update_iff [DecidableEq F] {v : Option F} (hx : x ∉ L) :
    Chain (Function.update next x v) a L b ↔ Chain next a L b := by
  induction L generalizing a with
  | nil => exact Iff.rfl
  | cons y L ih =>
    obtain ⟨hxy, hxL⟩ : x ≠ y ∧ x ∉ L := by simpa using hx
    rw [Chain, Chain, ih hxL, Function.update_of_ne (Ne.symm hxy)]

/-- Linking a node behind the last one. -/
theorem link [DecidableEq F] (h : Chain next a (L ++ [x]) none) (hx : x ∉ L) (hf : f ∉ L ++ [x])
    (hnext : next f = none) :
    Chain (Function.update next x (some f)) a ((L ++ [x]) ++ [f]) none := by
  obtain ⟨hL, _⟩ := snoc_iff.mp h
  have hfx : f ≠ x := by
    rintro rfl
    simp at hf
  rw [snoc_iff, snoc_iff, Function.update_self, Function.update_of_ne hfx]
  exact ⟨⟨(update_iff hx).mpr hL, rfl⟩, hnext⟩

/-- Unlinking the node behind `x`. -/
theorem unlink [DecidableEq F] (h : Chain next a ((L ++ [x]) ++ f :: M) none) (hL : x ∉ L)
    (hM : x ∉ M) : Chain (Function.update next x M.head?) a ((L ++ [x]) ++ M) none := by
  obtain ⟨c, hc, rfl, hrest⟩ := append_iff.mp h
  obtain ⟨hfirst, _⟩ := snoc_iff.mp hc
  refine append_iff.mpr ⟨M.head?, snoc_iff.mpr ⟨(update_iff hL).mpr hfirst, ?_⟩, ?_⟩
  · rw [Function.update_self]
  · rw [update_iff hM, ← hrest.head_eq]
    exact hrest

/-- The nodes on the chain are those that following `next` reaches. -/
theorem mem_iff_reaches (h : Chain next (some x) (x :: L) none) :
    f ∈ x :: L ↔ Relation.ReflTransGen (fun y z => next y = some z) x f := by
  constructor
  · intro hf
    induction L generalizing x with
    | nil =>
      rw [List.mem_singleton] at hf
      rw [hf]
    | cons y L ih =>
      obtain ⟨_, hnext, hL⟩ := h
      rcases List.mem_cons.mp hf with rfl | hf
      · exact .refl
      · exact .head hnext (ih ⟨rfl, hL⟩ hf)
  · intro hreach
    induction hreach with
    | refl => exact List.mem_cons_self
    | @tail y z _ hyz ih =>
      obtain ⟨pre, suf, hsplit⟩ := List.append_of_mem ih
      have hnext := (hsplit ▸ h).next_eq
      rw [hyz] at hnext
      cases suf with
      | nil => cases hnext
      | cons w suf =>
        obtain rfl := Option.some.inj hnext
        rw [hsplit]
        simp

end Chain

end ScaleStore
