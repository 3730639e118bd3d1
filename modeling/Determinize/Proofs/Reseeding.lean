import Determinize.Proofs.SubsetSearch

/-!
# Searching again, and from other seeds

A complete search finds what moves lead to from its seeds.  Reachability is transitive, so searching
again from all that has been found finds nothing new (`Search.Complete.found_again`), and since the
seeds come first in the order in which they are given, not even the order changes.  What two lists
of seeds lead to together is what each of them leads to
(`Search.Complete.mem_found_append`); the order of the seeds, and how often a seed is given, show in
the order of the states at most (`Search.Complete.perm_found`).

The moves recorded are those of the states found, so they follow the states in all of this.  Seen as
an operation on seeds, a search through the sets of a machine is a closure operator
(`Nfa.searchFrom_seedLaws`).
-/

namespace Determinize

/-- The searches through the sets of `M` from the seeds `A`, from the seeds `B` and from both: what
they have to do with one another. -/
structure SeedLaws (M : Nfa) (A B : List States) : Prop where
  /-- The seeds themselves are found. -/
  extensive : ∀ S ∈ A, S ∈ (M.searchFrom A).found
  /-- From more seeds, more is found. -/
  monotone : (∀ S ∈ A, S ∈ B) → ∀ S ∈ (M.searchFrom A).found, S ∈ (M.searchFrom B).found
  /-- Searching again from what has been found gives the same sets in the same order. -/
  found_again : (M.searchFrom (M.searchFrom A).found.toList).found = (M.searchFrom A).found
  /-- It gives the same moves in the same order as well. -/
  moves_again : (M.searchFrom (M.searchFrom A).found.toList).moves = (M.searchFrom A).moves
  /-- From both lists of seeds, those sets are found that are found from either. -/
  mem_found_append : ∀ S, S ∈ (M.searchFrom (A ++ B)).found ↔
    S ∈ (M.searchFrom A).found ∨ S ∈ (M.searchFrom B).found
  /-- From both lists of seeds, those moves are recorded that are recorded from either. -/
  mem_moves_append : ∀ r, r ∈ (M.searchFrom (A ++ B)).moves ↔
    r ∈ (M.searchFrom A).moves ∨ r ∈ (M.searchFrom B).moves
  /-- The same seeds, in any order and any number of times, give the same sets up to order. -/
  perm_found : (∀ S, S ∈ A ↔ S ∈ B) →
    (M.searchFrom A).found.toList.Perm (M.searchFrom B).found.toList
  /-- They give the same moves up to order. -/
  perm_moves : (∀ S, S ∈ A ↔ S ∈ B) →
    (M.searchFrom A).moves.toList.Perm (M.searchFrom B).moves.toList

namespace Numbering

variable {α : Type} [DecidableEq α] {v : Numbering α} {l : List α}

/-- New values get their numbers in the order in which they come. -/
theorem toList_foldl_insert (h : (v.toList ++ l).Nodup) :
    (l.foldl insert v).toList = v.toList ++ l := by
  induction l generalizing v with
  | nil => exact (List.append_nil _).symm
  | cons a l ih =>
    have ha : a ∉ v := fun ha => (List.nodup_append.1 h).2.2 a ha a List.mem_cons_self rfl
    have hinsert : (v.insert a).toList = v.toList ++ [a] := toList_insert_of_not_mem ha
    have hl : (v.toList ++ [a]) ++ l = v.toList ++ a :: l := List.append_assoc _ _ _
    rw [List.foldl_cons, ih (by rwa [hinsert, hl]), hinsert, hl]

/-- The values of a numbering, listed in its order, get the numbers they had. -/
theorem toList_ofList_toList : (ofList v.toList).toList = v.toList :=
  toList_foldl_insert (v := empty) v.nodup

end Numbering

namespace Search

namespace Complete

variable {σ : Type} [DecidableEq σ] {moves : σ → List (Rule σ)} {A B : List σ}
  {s t u : Search σ} {a : σ} {r : Rule σ}

/-! ### Which states are found -/

theorem mem_found_of_mem (h : Complete moves A s) (ha : a ∈ A) : a ∈ s.found :=
  (h.mem_found_iff a).2 ⟨a, ha, .refl⟩

theorem found_mono (h : Complete moves A s) (h' : Complete moves B t) (hAB : ∀ a ∈ A, a ∈ B)
    (ha : a ∈ s.found) : a ∈ t.found := by
  obtain ⟨b, hb, hba⟩ := (h.mem_found_iff a).1 ha
  exact (h'.mem_found_iff a).2 ⟨b, hAB b hb, hba⟩

theorem mem_found_append (hA : Complete moves A s) (hB : Complete moves B t)
    (h : Complete moves (A ++ B) u) : a ∈ u.found ↔ a ∈ s.found ∨ a ∈ t.found := by
  simp only [h.mem_found_iff, hA.mem_found_iff, hB.mem_found_iff, List.mem_append, or_and_right,
    exists_or]

theorem perm_found (h : Complete moves A s) (h' : Complete moves B t)
    (hAB : ∀ a, a ∈ A ↔ a ∈ B) : s.found.toList.Perm t.found.toList := by
  refine Numbering.perm_of_mem_iff fun a => ⟨?_, ?_⟩
  · exact h.found_mono h' fun b => (hAB b).1
  · exact h'.found_mono h fun b => (hAB b).2

/-- **Searching again finds nothing new**, and finds it in the same order. -/
theorem found_again (h : Complete moves A s) (h' : Complete moves s.found.toList t) :
    t.found = s.found := by
  apply Numbering.toList_injective
  have hfirst : s.found.toList <+: t.found.toList := by
    rw [← Numbering.toList_ofList_toList (v := s.found)]
    exact h'.seeds_first
  -- moves that begin where moves from the seeds end are moves from the seeds
  have hsub : t.found.toList ⊆ s.found.toList := by
    intro a ha
    obtain ⟨b, hb, hba⟩ := (h'.mem_found_iff a).1 ha
    obtain ⟨c, hc, hcb⟩ := (h.mem_found_iff b).1 hb
    exact (h.mem_found_iff a).2 ⟨c, hc, hcb.trans hba⟩
  have hlength : t.found.toList.length ≤ s.found.toList.length :=
    (List.subperm_of_subset t.found.nodup hsub).length_le
  exact (hfirst.eq_of_length_le hlength).symm

/-! ### Which moves are recorded -/

theorem mem_moves_iff (h : Complete moves A s) :
    r ∈ s.moves ↔ ∃ a ∈ s.found, r ∈ moves a := by
  rw [← Array.mem_toList_iff, h.moves_eq, List.mem_flatMap]
  rfl

theorem mem_moves_append (hA : Complete moves A s) (hB : Complete moves B t)
    (h : Complete moves (A ++ B) u) : r ∈ u.moves ↔ r ∈ s.moves ∨ r ∈ t.moves := by
  simp only [h.mem_moves_iff, hA.mem_moves_iff, hB.mem_moves_iff, hA.mem_found_append hB h,
    or_and_right, exists_or]

/-- The moves recorded depend on the states found and on their order only. -/
theorem moves_eq_of_found_eq (h : Complete moves A s) (h' : Complete moves B t)
    (hfound : t.found = s.found) : t.moves = s.moves := by
  apply Array.toList_inj.1
  rw [h'.moves_eq, hfound, h.moves_eq]

theorem perm_moves (h : Complete moves A s) (h' : Complete moves B t)
    (hAB : ∀ a, a ∈ A ↔ a ∈ B) : s.moves.toList.Perm t.moves.toList := by
  rw [h.moves_eq, h'.moves_eq]
  exact (h.perm_found h' hAB).flatMap_right moves

end Complete

end Search

namespace Nfa

open Search

variable {M : Nfa} {seeds : List States}

theorem complete_searchFrom : Complete (M.keptMoves true) seeds (M.searchFrom seeds) := by
  rw [searchFrom_eq]
  exact complete_freeSearch

/-- **A search is a closure operator on seeds.**  It finds its seeds, finds more from more seeds,
and searching again from the sets found gives the same sets and moves in the same order.  From two
lists of seeds together it finds what it finds from either, so that order and repetition of the
seeds do not matter but for the order of what is found. -/
theorem searchFrom_seedLaws (M : Nfa) (A B : List States) : SeedLaws M A B where
  extensive _ := complete_searchFrom.mem_found_of_mem
  monotone hAB _ := complete_searchFrom.found_mono complete_searchFrom hAB
  found_again := complete_searchFrom.found_again complete_searchFrom
  moves_again := complete_searchFrom.moves_eq_of_found_eq complete_searchFrom
    (complete_searchFrom.found_again complete_searchFrom)
  mem_found_append _ := complete_searchFrom.mem_found_append complete_searchFrom complete_searchFrom
  mem_moves_append _ := complete_searchFrom.mem_moves_append complete_searchFrom complete_searchFrom
  perm_found := complete_searchFrom.perm_found complete_searchFrom
  perm_moves := complete_searchFrom.perm_moves complete_searchFrom

end Nfa

end Determinize
