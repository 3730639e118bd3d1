import Determinize.Proofs.Language
import Determinize.Proofs.Search.Ending
import Determinize.Proofs.SubsetDfa.EmptySet

/-!
# The end of the search, and the number of sets

The loop of a search ends, whatever the seeds (`Nfa.searchEnds`).  What ends it is that there are
only so many sets to be found: all sets but the seeds consist of states that the rules mention, and
`n` states have `2 ^ n` subsets (`Nfa.size_found_le`).

For the deterministic machine the bound is a little better (`Nfa.size_states_subsetDfa_false_le`).
If the rules mention the start state, the start set is such a subset as well, and the empty set is
left out, so there are at most `2 ^ n - 1` sets.  If they do not mention it, no path leaves it, and
the start set is the only one.  The machine that keeps the empty set has one state more, but only if
some symbol can be read, and then there are states; so it has at most `2 ^ n` states in any case.
-/

namespace Determinize

namespace Nfa

open Search

/-- The search of `M` from the seeds has a result: when the seeds have been taken in, the loop ends,
and the search that it ends with is the result. -/
def SearchEnds (M : Nfa) (keep : Bool) (seeds : List States) : Prop :=
  ∃ s t, seeds.foldlM (Search.seed Gate.always) Search.empty = .ok s ∧
    EndsIn (M.keptMoves keep) (s.report (.seeded s.found.size M.alphabet.size)) t ∧
    M.search Gate.always keep seeds = .ok (t.report (.finished t.found.size t.moves.size))

variable {M : Nfa} {S : States} {s t : State} {w : Word} {keep : Bool} {seeds : List States}
  {m : ℕ}

theorem searchEnds : SearchEnds M keep seeds := by
  have hseeds : seeds.foldlM (Search.seed Gate.always) Search.empty =
      .ok (seeds.foldl Free.seed Search.empty) :=
    (Guarded.foldlM (fun _ _ => Guarded.seed) seeds).passes passes_always
  refine ⟨_, _, hseeds, Free.endsIn_run (k := M.searchSpace seeds) ?_ ?_,
    guarded_search.passes passes_always⟩
  · exact ((explored_seeds _).run _).expanded_le
  · exact size_found_freeSearch_le

/-! ### Paths and the states that rules mention -/

/-- A path goes on through states that rules mention. -/
theorem mem_nodes_of_path (h : Path M.rules.rules s w t) (hs : s ∈ M.rules.nodes) :
    t ∈ M.rules.nodes := by
  induction h with
  | stop => exact hs
  | silent mem _ _ ih => exact ih (RuleIndex.mem_nodes.2 ⟨_, mem, .inr rfl⟩)
  | letter mem _ ih => exact ih (RuleIndex.mem_nodes.2 ⟨_, mem, .inr rfl⟩)

/-- No path leaves a state that no rule mentions. -/
theorem eq_nil_of_path (h : Path M.rules.rules s w t) (hs : s ∉ M.rules.nodes) : w = [] := by
  cases h with
  | stop => rfl
  | silent mem => exact absurd (RuleIndex.mem_nodes.2 ⟨_, mem, .inl rfl⟩) hs
  | letter mem => exact absurd (RuleIndex.mem_nodes.2 ⟨_, mem, .inl rfl⟩) hs

theorem mem_successorAlong_startSet :
    t ∈ M.successorAlong M.startSet w ↔ Path M.rules.rules M.start w t := by
  rw [← current_run_readWord, run, mem_current_readWord]
  simp

/-- From a start state that rules mention, only such states are reached. -/
theorem mem_nodes_of_mem_states (hstart : M.start ∈ M.rules.nodes)
    (hS : S ∈ (M.subsetDfa keep).states) (ht : t ∈ S) : t ∈ M.rules.nodes := by
  obtain ⟨⟨w, -, rfl⟩, -⟩ := mem_states_subsetDfa.1 hS
  exact mem_nodes_of_path (mem_successorAlong_startSet.1 ht) hstart

/-- From a start state that no rule mentions, nothing but the start set is reached. -/
theorem eq_startSet_of_mem_states (hstart : M.start ∉ M.rules.nodes)
    (hS : S ∈ (M.subsetDfa false).states) : S = M.startSet := by
  obtain ⟨⟨w, -, rfl⟩, hk⟩ := mem_states_subsetDfa.1 hS
  have hne : M.successorAlong M.startSet w ≠ .empty := hk.resolve_left Bool.false_ne_true
  have hnil : w = [] := by
    by_contra hw
    refine hne (States.ext fun t => ⟨fun ht => ?_, fun ht => absurd ht States.not_mem_empty⟩)
    exact absurd (eq_nil_of_path (mem_successorAlong_startSet.1 ht) hstart) hw
  rw [hnil]
  rfl

/-! ### The number of states of the deterministic machine -/

theorem size_states_subsetDfa_false_le :
    (M.subsetDfa false).states.size ≤ max 1 (2 ^ M.rules.states.size - 1) := by
  rw [RuleIndex.size_states]
  by_cases hstart : M.start ∈ M.rules.nodes
  · -- the empty set is one of the subsets, and it is not among the states
    have hempty : .empty ∉ (M.subsetDfa false).states := by
      intro h
      obtain ⟨-, hk⟩ := mem_states_subsetDfa.1 h
      exact hk.elim Bool.false_ne_true fun hne => hne rfl
    have hcount : (.empty :: (M.subsetDfa false).states.toList).length ≤
        2 ^ M.rules.nodes.size := by
      refine length_le_two_pow (List.nodup_cons.2 ⟨hempty, Numbering.nodup _⟩) ?_
      refine List.forall_mem_cons.2 ⟨fun t ht => absurd ht States.not_mem_empty, ?_⟩
      exact fun S hS t => mem_nodes_of_mem_states hstart hS
    rw [List.length_cons] at hcount
    exact le_max_of_le_right (Nat.le_sub_one_of_lt hcount)
  · have hsub : (M.subsetDfa false).states.toList ⊆ [M.startSet] := by
      intro S hS
      exact List.mem_singleton.2 (eq_startSet_of_mem_states hstart hS)
    have hcount : (M.subsetDfa false).states.toList.length ≤ 1 :=
      (List.subperm_of_subset (Numbering.nodup _) hsub).length_le
    exact le_max_of_le_left hcount

theorem size_states_subsetDfa_true_le :
    (M.subsetDfa true).states.size ≤ 2 ^ M.rules.states.size := by
  have hle := size_states_subsetDfa_false_le (M := M)
  have hpos : 0 < 2 ^ M.rules.states.size := Nat.two_pow_pos _
  by_cases hempty : .empty ∈ (M.subsetDfa true).states
  · -- a word has led to the empty set, so some rule reads a symbol
    obtain ⟨-, -, y, hy, -⟩ := empty_mem_states_iff.1 hempty
    obtain ⟨-, r, hr, -⟩ := RuleIndex.mem_alphabet.1 hy
    have hnodes : r.source ∈ M.rules.nodes := RuleIndex.mem_nodes.2 ⟨r, hr, .inl rfl⟩
    have hsize : M.rules.states.size ≠ 0 := by
      rw [RuleIndex.size_states]
      exact Nat.ne_of_gt (List.length_pos_of_mem hnodes)
    have htwo : 2 ≤ 2 ^ M.rules.states.size := Nat.le_self_pow hsize 2
    have hadd := addsEmpty_subsetDfa.size_of_mem hempty
    omega
  · have hsame := addsEmpty_subsetDfa.size_of_not_mem hempty
    omega

theorem size_states_subsetDfa_le :
    (M.subsetDfa keep).states.size ≤ 2 ^ M.rules.states.size := by
  cases keep with
  | true => exact size_states_subsetDfa_true_le
  | false =>
    have hle := size_states_subsetDfa_false_le (M := M)
    have hpos : 0 < 2 ^ M.rules.states.size := Nat.two_pow_pos _
    omega

/-- **The search ends, and finds no more sets than there are subsets.**  From any seeds, the loop
ends with the result of the search.  If the rules mention `n` states, at most `2 ^ n` sets are
found, and those seeds that have other states in them.  So the deterministic machine has at most
`2 ^ n - 1` states, or one if that is more, and at most `2 ^ n` with the empty set, wherever the
machine starts; a bound of `2 ^ n` never stops determinizing. -/
theorem search_within_subsets (M : Nfa) :
    (∀ keep seeds, SearchEnds M keep seeds) ∧
    (∀ seeds, (M.searchFrom seeds).found.size ≤ 2 ^ M.rules.states.size +
      ((Numbering.ofList seeds).filter fun S => !S.isSubsetOf M.rules.states).size) ∧
    M.determinize.states.size ≤ max 1 (2 ^ M.rules.states.size - 1) ∧
    (∃ K, M.determinizeWithin ⟨none, true⟩ = .ok K ∧
      K.states.size ≤ 2 ^ M.rules.states.size) ∧
    ∀ m keep, 2 ^ M.rules.states.size ≤ m → ∃ D, M.determinizeWithin ⟨some m, keep⟩ = .ok D := by
  refine ⟨fun _ _ => searchEnds, fun seeds => ?_, ?_,
    ⟨_, determinizeWithin_unbounded, size_states_subsetDfa_true_le⟩, fun m keep hm => ?_⟩
  · rw [searchFrom_eq, RuleIndex.size_states]
    exact size_found_le explored_freeSearch
  · rw [determinize_eq]
    exact size_states_subsetDfa_false_le
  · exact ⟨_, determinizeWithin_of_size_le (size_states_subsetDfa_le.trans hm)⟩

/-- The rules of `aPlus` mention two states, so a bound of four does not stop determinizing. -/
theorem search_within_subsets_aPlus :
    2 ^ aPlus.rules.states.size ≤ 4 ∧ ∃ D, aPlus.determinizeWithin ⟨some 4, true⟩ = .ok D := by
  have hm : 2 ^ aPlus.rules.states.size ≤ 4 := by decide +kernel
  obtain ⟨-, -, -, -, hbound⟩ := search_within_subsets aPlus
  exact ⟨hm, hbound 4 true hm⟩

end Nfa

end Determinize
