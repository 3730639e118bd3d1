import Determinize.Proofs.Language
import Determinize.Proofs.Search.Route
import Determinize.Proofs.SubsetDfa.EmptySet

/-!
# The order of the sets

The sets are found breadth first: those to which shorter words lead come before the others, and
sets to which words of one length lead come in the order of the seeds and then of the words.  The
numbers of the states of the deterministic machine are the places in this order
(`Nfa.states_listedByRoute`).  That the empty set is left out moves no other set to another place,
since the first route to a set that is not empty does not meet the empty set.
-/

namespace Determinize

open Search

/-- The states of the deterministic machine `D` of `M` are listed by their routes. -/
structure StatesByRoute (M : Nfa) (keep : Bool) (D : SubsetDfa) : Prop where
  /-- They are the sets that a search from the start set finds, in the same order, with or without
  the empty set. -/
  states_eq : D.states.toList = (M.searchFrom [M.startSet]).found.toList.filter fun S =>
    keep || !S.isEmpty
  /-- They are in the order of the first routes from the start set. -/
  listed : ListedByRoute M.alphabet M.successor [M.startSet] D.states.toList

namespace Nfa

variable {M : Nfa} {S : States} {keep : Bool} {seeds : List States}

/-! ### Searches from seeds -/

theorem exists_trail_seeds (r : Record States) :
    ∃ t, Trail M.alphabet M.successor seeds
      ((seeds.foldl Free.seed Search.empty).report r) t := by
  rw [foldl_seed]
  exact Trail.start rfl rfl

theorem exists_trail_searchFrom :
    ∃ t, Trail M.alphabet M.successor seeds (M.searchFrom seeds) t := by
  have hmoves : M.keptMoves true = letterMoves M.alphabet M.successor := keptMoves_true
  rw [searchFrom_eq, freeSearch, hmoves]
  obtain ⟨t, ht⟩ := exists_trail_seeds (M := M) _
  obtain ⟨t', ht'⟩ := ht.run (M.searchSpace seeds)
  exact ⟨t', ht'.report _⟩

theorem size_found_searchFrom_le :
    (M.searchFrom seeds).found.size ≤ (M.searchFrom seeds).expanded := by
  rw [searchFrom_eq]
  exact size_found_freeSearch_le

theorem listedByRoute_searchFrom :
    ListedByRoute M.alphabet M.successor seeds (M.searchFrom seeds).found.toList := by
  obtain ⟨t, ht⟩ := exists_trail_searchFrom
  exact ht.listedByRoute size_found_searchFrom_le

theorem mem_found_searchFrom :
    S ∈ (M.searchFrom seeds).found ↔ ∃ r, Reaches M.alphabet M.successor seeds r S := by
  obtain ⟨t, ht⟩ := exists_trail_searchFrom
  exact ht.mem_found_iff size_found_searchFrom_le

/-! ### The deterministic machines -/

theorem statesByRoute_subsetDfa : StatesByRoute M keep (M.subsetDfa keep) := by
  have hstates : (M.subsetDfa keep).states.toList =
      (M.searchFrom [M.startSet]).found.toList.filter fun S => keep || !S.isEmpty := by
    rw [searchFrom_eq]
    cases keep with
    | true => exact (List.filter_eq_self.2 fun _ _ => rfl).symm
    | false =>
      rw [states_subsetDfa_false]
      exact List.filter_congr fun S _ => decide_ne_empty
  exact ⟨hstates, hstates ▸ listedByRoute_searchFrom.filter _⟩

/-- **Sets are found breadth first, in the order of the alphabet.**  A route from seeds is the
number of a seed and a word over the alphabet; routes are compared by the length of the word, then
by the number of the seed, then by the word.  A search from any seeds finds the sets to which routes
lead, and lists them by the least routes that lead to them.  The deterministic machines list their
states in the same way, with the start set as the seed, and with the empty set left out if it is not
kept. -/
theorem states_listedByRoute (M : Nfa) :
    (∀ seeds, ListedByRoute M.alphabet M.successor seeds (M.searchFrom seeds).found.toList ∧
      ∀ S, S ∈ (M.searchFrom seeds).found ↔ ∃ r, Reaches M.alphabet M.successor seeds r S) ∧
    StatesByRoute M false M.determinize ∧
    ∀ c D, M.determinizeWithin c = .ok D → StatesByRoute M c.keepEmpty D := by
  refine ⟨fun seeds => ⟨listedByRoute_searchFrom, fun S => mem_found_searchFrom⟩, ?_, ?_⟩
  · rw [determinize_eq]
    exact statesByRoute_subsetDfa
  · intro c D hD
    rw [eq_subsetDfa_of_determinizeWithin hD]
    exact statesByRoute_subsetDfa

/-- A first route leads to the set of `aPlus` that is behind `a`. -/
theorem states_listedByRoute_aPlus :
    ∃ D, aPlus.determinizeWithin ⟨some 2, true⟩ = .ok D ∧ StatesByRoute aPlus true D ∧
      ∃ r, IsFirst aPlus.alphabet aPlus.successor [aPlus.startSet] r
        (aPlus.successor aPlus.startSet (.ofChar 'a')) := by
  have horder := (states_listedByRoute aPlus).2.2 _ _ determinizeWithin_aPlus
  have ha : aPlus.successor aPlus.startSet (.ofChar 'a') ∈ (aPlus.subsetDfa true).states :=
    successor_mem_states start_mem_states (by decide) (.inl rfl)
  exact ⟨_, determinizeWithin_aPlus, horder, horder.listed.first _ ha⟩

end Nfa

end Determinize
