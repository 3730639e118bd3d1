import Determinize.Mask

/-!
# Numberings

A numbering lists distinct values in the order in which they first appeared. A value's place in
the list is its number.

## Main definitions

* `Numbering` : distinct values in a fixed order.
* `Numbering.insert`, `Numbering.ofList` : the next value gets the next number, a known value keeps
  its own.
* `Numbering.number?`, `Numbering.get?` : from a value to its number and back.
* `Numbering.mask`, `Numbering.select` : from values to the set of their numbers and back.
-/

namespace Determinize

/-- Distinct values, numbered from zero on. -/
structure Numbering (α : Type) where
  /-- The values in the order of their numbers. -/
  toList : List α
  /-- No value has two numbers. -/
  nodup : toList.Nodup

namespace Numbering

variable {α : Type}

/-- A value that has a number is a member. -/
instance : Membership α (Numbering α) := ⟨fun v a => a ∈ v.toList⟩

/-- The numbering without values. -/
def empty : Numbering α := ⟨[], .nil⟩

/-- The number of values. -/
def size (v : Numbering α) : Nat := v.toList.length

/-- The value with a given number. -/
def get? (v : Numbering α) (i : Nat) : Option α := v.toList[i]?

/-- The values that pass a test, in the same order. -/
def filter (p : α → Bool) (v : Numbering α) : Numbering α := ⟨v.toList.filter p, v.nodup.filter p⟩

/-- The values whose numbers are in a mask, in ascending order of their numbers. -/
def select (v : Numbering α) (m : Mask) : List α :=
  v.toList.zipIdx.filterMap fun p => if p.2 ∈ m then some p.1 else none

@[simp] theorem mem_toList {v : Numbering α} {a : α} : a ∈ v.toList ↔ a ∈ v := Iff.rfl

@[simp] theorem not_mem_empty {a : α} : a ∉ (empty : Numbering α) := List.not_mem_nil

theorem toList_injective {v w : Numbering α} (h : v.toList = w.toList) : v = w := by
  cases v
  cases w
  congr

/-- Listings of the same values list them in some order each. -/
theorem perm_of_mem_iff {v w : Numbering α} (h : ∀ a, a ∈ v ↔ a ∈ w) :
    v.toList.Perm w.toList :=
  (List.perm_ext_iff_of_nodup v.nodup w.nodup).2 h

/-- Adding a new value at the end repeats nothing. -/
theorem nodup_concat {l : List α} {a : α} (hl : l.Nodup) (ha : a ∉ l) : (l ++ [a]).Nodup :=
  List.nodup_append.2 ⟨hl, List.pairwise_singleton _ a, fun _ hb _ hc hbc =>
    ha (List.mem_singleton.1 hc ▸ hbc ▸ hb)⟩

variable [DecidableEq α]

instance (a : α) (v : Numbering α) : Decidable (a ∈ v) :=
  inferInstanceAs (Decidable (a ∈ v.toList))

/-- The number of a value. -/
def number? (v : Numbering α) (a : α) : Option Nat := v.toList.idxOf? a

/-- Give a new value the next number; a known value changes nothing. -/
def insert (v : Numbering α) (a : α) : Numbering α :=
  if h : a ∈ v then v
  else ⟨v.toList ++ [a], nodup_concat v.nodup h⟩

/-- The values of a list, numbered in the order of their first appearance. -/
def ofList (l : List α) : Numbering α := l.foldl insert empty

/-- The numbers of the values in a list; values without a number are left out. -/
def mask (v : Numbering α) (l : List α) : Mask := Mask.ofList (l.filterMap v.number?)

/-! ### Membership and numbers -/

variable {v : Numbering α} {a b : α} {l : List α} {i : Nat}

@[simp] theorem mem_insert : a ∈ v.insert b ↔ a = b ∨ a ∈ v := by
  unfold insert
  split
  · next h => exact ⟨Or.inr, fun h' => h'.elim (fun e => e ▸ h) id⟩
  · exact List.mem_append.trans (or_comm.trans (or_congr_left List.mem_singleton))

theorem mem_foldl_insert : a ∈ l.foldl insert v ↔ a ∈ l ∨ a ∈ v := by
  induction l generalizing v with
  | nil => simp
  | cons b l ih => rw [List.foldl_cons, ih, mem_insert, List.mem_cons]; grind

@[simp] theorem mem_ofList : a ∈ ofList l ↔ a ∈ l := by simp [ofList, mem_foldl_insert]

theorem insert_of_mem (h : a ∈ v) : v.insert a = v := dif_pos h

theorem toList_insert_of_not_mem (h : a ∉ v) : (v.insert a).toList = v.toList ++ [a] := by
  rw [insert, dif_neg h]

theorem size_insert_of_not_mem (h : a ∉ v) : (v.insert a).size = v.size + 1 := by
  rw [size, toList_insert_of_not_mem h, List.length_append, List.length_singleton, size]

/-- New values come after all others. -/
theorem prefix_insert : v.toList <+: (v.insert a).toList := by
  by_cases h : a ∈ v
  · simp only [insert_of_mem h, List.prefix_refl]
  · simp only [toList_insert_of_not_mem h, List.prefix_append]

theorem prefix_foldl_insert : v.toList <+: (l.foldl insert v).toList := by
  induction l generalizing v with
  | nil => exact List.prefix_refl _
  | cons b l ih => exact prefix_insert.trans ih

theorem size_insert_le : (v.insert a).size ≤ v.size + 1 := by
  by_cases h : a ∈ v
  · rw [insert_of_mem h]
    exact Nat.le_succ _
  · exact Nat.le_of_eq (size_insert_of_not_mem h)

theorem size_foldl_insert_le : (l.foldl insert v).size ≤ v.size + l.length := by
  induction l generalizing v with
  | nil => exact Nat.le_refl _
  | cons b l ih =>
    have hb : (v.insert b).size ≤ v.size + 1 := size_insert_le
    have hl : (l.foldl insert (v.insert b)).size ≤ (v.insert b).size + l.length := ih
    rw [List.foldl_cons, List.length_cons]
    omega

theorem size_ofList_le : (ofList l).size ≤ l.length := by
  have h : (ofList l).size ≤ (empty : Numbering α).size + l.length := size_foldl_insert_le
  rwa [show (empty : Numbering α).size = 0 from rfl, Nat.zero_add] at h

/-- The number of a value is the place at which it is listed. -/
theorem number?_eq_some_iff : v.number? a = some i ↔ v.get? i = some a := by
  rw [number?, List.idxOf?_eq_some_iff, get?, List.getElem?_eq_some_iff]
  refine ⟨fun ⟨h, ha, _⟩ => ⟨h, ha⟩, fun ⟨h, ha⟩ => ⟨h, ha, fun j hj hja => ?_⟩⟩
  have := (List.getElem_inj v.nodup).1 (hja.trans ha.symm)
  omega

theorem lt_size_of_number? (h : v.number? a = some i) : i < v.size :=
  (List.getElem?_eq_some_iff.1 (number?_eq_some_iff.1 h)).1

theorem mem_of_number? (h : v.number? a = some i) : a ∈ v :=
  List.mem_of_getElem? (number?_eq_some_iff.1 h)

theorem exists_number? (h : a ∈ v) : ∃ i, v.number? a = some i := by
  obtain ⟨i, hi⟩ := List.mem_iff_getElem?.1 h
  exact ⟨i, number?_eq_some_iff.2 hi⟩

/-- Different values have different numbers. -/
theorem number?_inj (ha : v.number? a = some i) (hb : v.number? b = some i) : a = b :=
  Option.some.inj ((number?_eq_some_iff.1 ha).symm.trans (number?_eq_some_iff.1 hb))

@[simp] theorem mem_mask : i ∈ v.mask l ↔ ∃ a ∈ l, v.number? a = some i := by
  simp [mask, List.mem_filterMap]

@[simp] theorem mem_select {m : Mask} : a ∈ v.select m ↔ ∃ i ∈ m, v.number? a = some i := by
  simp only [select, List.mem_filterMap, Prod.exists, List.mem_zipIdx_iff_getElem?,
    number?_eq_some_iff, get?]
  constructor
  · rintro ⟨b, i, hb, hi⟩
    split at hi
    · next him => exact ⟨i, him, Option.some.inj hi ▸ hb⟩
    · exact absurd hi (by simp)
  · rintro ⟨i, him, ha⟩
    exact ⟨a, i, ha, if_pos him⟩

end Numbering

end Determinize
