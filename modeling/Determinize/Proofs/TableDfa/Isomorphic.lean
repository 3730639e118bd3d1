import Determinize.Proofs.Language
import Mathlib.Data.Set.Function

/-!
# The table is an isomorphic copy

A table says nothing that the deterministic machine on sets does not say, and the other way round
(`TableDfa.isomorphic_ofSubsets`): its numbers stand for the sets one to one, in the order in which
these were found; it moves from number to number as the machine moves between the sets they stand
for; and the numbers that accept, in ascending order, stand for the accepting sets in the order in
which they were found.  This holds of tables that have names for all their rows, that is, of at
most `2 ^ 32` rows.
-/

namespace Determinize

namespace Numbering

variable {α : Type} {v : Numbering α} {p : α → Bool} {i : ℕ}

/-- All numbers in ascending order, turned back into values, are the values in their order. -/
theorem map_get?_range : (List.range v.size).map v.get? = v.toList.map some := by
  apply List.ext_getElem
  · simp [size]
  · intro j hj hj'
    have hlt : j < v.toList.length := by simpa using hj'
    simp [get?, hlt]

variable [DecidableEq α]

/-- The numbers of the values that pass a test. -/
theorem mem_mask_filter : i ∈ v.mask (v.filter p).toList ↔ (v.get? i).any p = true := by
  simp only [mem_mask, filter, List.mem_filter, number?_eq_some_iff, Option.any_eq_true]
  constructor
  · rintro ⟨a, ⟨-, hp⟩, ha⟩
    exact ⟨a, ha, hp⟩
  · rintro ⟨a, ha, hp⟩
    exact ⟨a, ⟨List.mem_of_getElem? ha, hp⟩, ha⟩

/-- The numbers of the values that pass a test, in ascending order, turned back into values, are
these values in their order. -/
theorem map_get?_members :
    ((v.mask (v.filter p).toList).members v.size).map v.get? = (v.filter p).toList.map some := by
  have hmem : (v.mask (v.filter p).toList).members v.size =
      (List.range v.size).filter ((Option.any p) ∘ v.get?) :=
    List.filter_congr fun i _ => Bool.eq_iff_iff.2 (decide_eq_true_iff.trans mem_mask_filter)
  calc ((v.mask (v.filter p).toList).members v.size).map v.get?
      = ((List.range v.size).map v.get?).filter (Option.any p) := by rw [hmem, List.filter_map]
    _ = (v.toList.map some).filter (Option.any p) := by rw [map_get?_range]
    _ = (v.filter p).toList.map some := by
      rw [List.filter_map]
      rfl

end Numbering

namespace TableDfa

/-- The table `T` is the deterministic machine `D` of `M` on the numbers of its sets. -/
structure Isomorphic (M : Nfa) (D : SubsetDfa) (T : TableDfa) : Prop where
  /-- There are as many numbers as sets. -/
  size_eq : T.size = D.states.size
  /-- There is a set. -/
  size_pos : 1 ≤ T.size
  /-- A number stands for the set found at its place. -/
  subset?_eq : ∀ i, T.subset? i = D.states.get? i.toNat
  /-- Greater numbers stand for nothing. -/
  subset?_eq_none : ∀ i, T.size ≤ i.toNat → T.subset? i = none
  /-- Numbers stand for sets one to one. -/
  bijOn : Set.BijOn T.subset? {i | i.toNat < T.size} (some '' {S | S ∈ D.states})
  /-- The start stands for the start. -/
  start : T.subset? start = some D.start
  /-- Numbers move as the sets they stand for. -/
  next? : ∀ i y j, T.next? i y = some j ↔
    ∃ S U, T.subset? i = some S ∧ T.subset? j = some U ∧ D.next? S y = some U
  /-- A number accepts if it stands for a set with an accepting member. -/
  isAccepting : ∀ i, T.isAccepting i = true ↔
    ∃ S, T.subset? i = some S ∧ ∃ q ∈ S, q ∈ M.accepting
  /-- The accepting numbers stand for the accepting sets, in the same order. -/
  acceptingStates : T.acceptingStates.map T.subset? = D.accepting.toList.map some
  /-- Both accept the same words. -/
  accepts : ∀ w, T.accepts w = D.accepts w

variable {M : Nfa} {D : SubsetDfa} {keep : Bool} {S : States} {i j : State} {y : Symbol}

/-! ### Numbers and sets -/

theorem subset?_ofSubsets : (ofSubsets D).subset? i = D.states.get? i.toNat := by
  simp [subset?, ofSubsets, Numbering.get?]

theorem subset?_eq_some_iff :
    (ofSubsets D).subset? i = some S ↔ D.states.number? S = some i.toNat := by
  rw [subset?_ofSubsets, Numbering.number?_eq_some_iff]

theorem exists_subset? (hi : i.toNat < (ofSubsets D).size) :
    ∃ S, (ofSubsets D).subset? i = some S :=
  ⟨_, subset?_ofSubsets.trans (List.getElem?_eq_getElem hi)⟩

theorem bijOn_subset? (hsize : D.states.size ≤ 2 ^ 32) :
    Set.BijOn (ofSubsets D).subset? {i | i.toNat < (ofSubsets D).size}
      (some '' {S | S ∈ D.states}) := by
  refine ⟨fun i hi => ?_, fun i hi j _ hij => ?_, ?_⟩
  · obtain ⟨S, hS⟩ := exists_subset? hi
    exact ⟨S, Numbering.mem_of_number? (subset?_eq_some_iff.1 hS), hS.symm⟩
  · obtain ⟨S, hS⟩ := exists_subset? hi
    have hi' : D.states.number? S = some i.toNat := subset?_eq_some_iff.1 hS
    have hj' : D.states.number? S = some j.toNat := subset?_eq_some_iff.1 (hij ▸ hS)
    exact UInt32.toNat_inj.1 (Option.some.inj (hi'.symm.trans hj'))
  · rintro _ ⟨S, hS, rfl⟩
    obtain ⟨n, hn⟩ := Numbering.exists_number? hS
    have hnat : (UInt32.ofNat n).toNat = n := toNat_ofNat_number hsize hn
    refine ⟨UInt32.ofNat n, ?_, subset?_eq_some_iff.2 (by rw [hnat, hn])⟩
    change (UInt32.ofNat n).toNat < D.states.size
    rw [hnat]
    exact Numbering.lt_size_of_number? hn

/-! ### Moves and accepting numbers -/

theorem next?_ofSubsets_iff (hsize : (M.subsetDfa keep).states.size ≤ 2 ^ 32) :
    (ofSubsets (M.subsetDfa keep)).next? i y = some j ↔
      ∃ S U, (ofSubsets (M.subsetDfa keep)).subset? i = some S ∧
        (ofSubsets (M.subsetDfa keep)).subset? j = some U ∧
        (M.subsetDfa keep).next? S y = some U := by
  simp only [next?_ofSubsets, subset?_eq_some_iff]
  constructor
  · rintro ⟨S, U, n, hi, hU, hn, rfl⟩
    exact ⟨S, U, hi, by rw [toNat_ofNat_number hsize hn, hn], hU⟩
  · rintro ⟨S, U, hi, hj, hU⟩
    exact ⟨S, U, j.toNat, hi, hU, hj, UInt32.ofNat_toNat.symm⟩

theorem isAccepting_ofSubsets_iff :
    (ofSubsets (M.subsetDfa keep)).isAccepting i = true ↔
      ∃ S, (ofSubsets (M.subsetDfa keep)).subset? i = some S ∧ ∃ q ∈ S, q ∈ M.accepting := by
  have hmask : (ofSubsets (M.subsetDfa keep)).accepting =
      (M.subsetDfa keep).states.mask (M.subsetDfa keep).accepting.toList := rfl
  rw [isAccepting, decide_eq_true_eq, hmask, Numbering.mem_mask]
  simp only [Numbering.mem_toList, Nfa.mem_accepting_subsetDfa, subset?_eq_some_iff]
  constructor
  · rintro ⟨S, ⟨-, hq⟩, hi⟩
    exact ⟨S, hi, hq⟩
  · rintro ⟨S, hi, hq⟩
    exact ⟨S, ⟨Numbering.mem_of_number? hi, hq⟩, hi⟩

theorem map_subset?_acceptingStates (hsize : (M.subsetDfa keep).states.size ≤ 2 ^ 32) :
    (ofSubsets (M.subsetDfa keep)).acceptingStates.map (ofSubsets (M.subsetDfa keep)).subset? =
      (M.subsetDfa keep).accepting.toList.map some := by
  rw [acceptingStates, List.map_map]
  refine Eq.trans (List.map_congr_left fun n hn => ?_) Numbering.map_get?_members
  have hlt : n < (M.subsetDfa keep).states.size := (Mask.mem_members.1 hn).1
  have hnat : (UInt32.ofNat n).toNat = n :=
    UInt32.toNat_ofNat_of_lt' (Nat.lt_of_lt_of_le hlt hsize)
  rw [Function.comp_apply, subset?_ofSubsets, hnat]

/-- **The table is an isomorphic copy** of the deterministic machine it is made from, if it has
a number for every set. -/
theorem isomorphic_ofSubsets (M : Nfa) (D : SubsetDfa)
    (hD : D = M.determinize ∨ ∃ c, M.determinizeWithin c = .ok D)
    (hsize : D.states.size ≤ 2 ^ 32) : Isomorphic M D (ofSubsets D) := by
  obtain ⟨keep, rfl⟩ := Nfa.exists_eq_subsetDfa hD
  have hstart : (ofSubsets (M.subsetDfa keep)).subset? start = some (M.subsetDfa keep).start :=
    subset?_ofSubsets.trans Nfa.wellListed_subsetDfa.first
  exact {
    size_eq := size_ofSubsets
    size_pos := Numbering.lt_size_of_number? (subset?_eq_some_iff.1 hstart)
    subset?_eq := fun _ => subset?_ofSubsets
    subset?_eq_none := fun _ hi => subset?_ofSubsets.trans (List.getElem?_eq_none hi)
    bijOn := bijOn_subset? hsize
    start := hstart
    next? := fun _ _ _ => next?_ofSubsets_iff hsize
    isAccepting := fun _ => isAccepting_ofSubsets_iff
    acceptingStates := map_subset?_acceptingStates hsize
    accepts := fun _ => accepts_ofSubsets hsize }

/-- The two sets that `aPlus` can be in have the numbers 0 and 1. -/
theorem isomorphic_aPlus :
    Nfa.aPlus.determinize.states.size ≤ 2 ^ 32 ∧
      Isomorphic Nfa.aPlus Nfa.aPlus.determinize (ofSubsets Nfa.aPlus.determinize) ∧
      (ofSubsets Nfa.aPlus.determinize).size = 2 := by
  have hsize : Nfa.aPlus.determinize.states.size = 2 := by decide +kernel
  have hle : Nfa.aPlus.determinize.states.size ≤ 2 ^ 32 := by rw [hsize]; decide
  have hiso := isomorphic_ofSubsets Nfa.aPlus Nfa.aPlus.determinize (.inl rfl) hle
  exact ⟨hle, hiso, hiso.size_eq.trans hsize⟩

end TableDfa

end Determinize
