import Determinize.Proofs.Search.Prune
import Determinize.Proofs.SubsetDfa.Walk

/-!
# What keeping the empty set adds

Nothing leads from the empty set but to itself, so the search that leaves it out is the search that
keeps it with the empty set pruned (`Nfa.pruned_freeSearch`).  The two deterministic machines hence
agree, in order, on all other sets and on the moves between these.  What is added is that no
move is missing: if somewhere one was, the empty set is a state, and every symbol loops on it
(`Nfa.addsEmpty_subsetDfa`).
-/

namespace Determinize

/-- The deterministic machine `K` is the machine `P` with the empty set for every missing move. -/
structure AddsEmpty (P K : SubsetDfa) : Prop where
  /-- The other states are the same, in the same order. -/
  states : P.states.toList = K.states.toList.erase .empty
  /-- The moves to other states are the same, in the same order. -/
  moves : P.moves = K.moves.filter fun r => decide (r.target ≠ .empty)
  /-- The start is the same. -/
  start : P.start = K.start
  /-- The alphabet is the same. -/
  alphabet : P.alphabet = K.alphabet
  /-- The accepting states are the same, in the same order. -/
  accepting : P.accepting = K.accepting
  /-- No move is missing in `K`. -/
  total : ∀ S ∈ K.states, ∀ y ∈ K.alphabet, ∃ T, K.next? S y = some T
  /-- There is one move for every state and symbol. -/
  length_moves : K.moves.length = K.states.size * K.alphabet.size
  /-- The empty set is a state of `K` if a move is missing in `P`. -/
  empty_mem_iff : .empty ∈ K.states ↔ ∃ S ∈ P.states, ∃ y ∈ P.alphabet, P.next? S y = none
  /-- From the empty set one does not get away. -/
  loop : .empty ∈ K.states → ∀ y ∈ K.alphabet, K.next? .empty y = some .empty
  /-- With the empty set, there is one state more. -/
  size_of_mem : .empty ∈ K.states → K.states.size = P.states.size + 1
  /-- Without it, there are as many states. -/
  size_of_not_mem : .empty ∉ K.states → K.states.size = P.states.size

namespace Numbering

variable {α : Type} [DecidableEq α] {v w : Numbering α} {a : α}

theorem size_of_erase_of_mem (h : v.toList = w.toList.erase a) (ha : a ∈ w) :
    w.size = v.size + 1 := by
  have hpos : 0 < w.toList.length := List.length_pos_of_mem ha
  have hlen : v.toList.length = w.toList.length - 1 := by rw [h, List.length_erase_of_mem ha]
  rw [size, size]
  omega

theorem size_of_erase_of_not_mem (h : v.toList = w.toList.erase a) (ha : a ∉ w) :
    w.size = v.size := by
  rw [size, size, h, List.erase_of_not_mem ha]

end Numbering

namespace Nfa

open Search

variable {M : Nfa} {S : States} {w : Word} {y : Symbol}

theorem decide_ne_empty : decide (S ≠ .empty) = !S.isEmpty := by
  rw [Bool.eq_iff_iff, decide_eq_true_iff, Bool.not_eq_true', Bool.eq_false_iff, Ne, Ne,
    States.isEmpty_iff]

theorem keptMoves_true : M.keptMoves true = M.movesFrom := by
  funext S
  simp [keptMoves]

theorem keptMoves_false :
    M.keptMoves false = prune (fun S => decide (S ≠ .empty)) (M.keptMoves true) := by
  funext S
  rw [prune, keptMoves_true, keptMoves]
  exact List.filter_congr fun r _ => decide_ne_empty.symm

/-! ### Pruning the empty set -/

/-- The search that leaves out the empty set is the other search without the empty set. -/
theorem pruned_freeSearch :
    Pruned (fun S => decide (S ≠ .empty)) (M.freeSearch true [M.startSet])
      (M.freeSearch false [M.startSet]) := by
  let s := ([M.startSet].foldl Free.seed Search.empty).report (.seeded 1 M.alphabet.size)
  have hseeds : Pruned (fun S => decide (S ≠ .empty)) s s := by
    refine ⟨Numbering.toList_injective ?_, rfl, rfl⟩
    change [M.startSet] = [M.startSet].filter fun S => decide (S ≠ .empty)
    simp [startSet_ne_empty]
  -- what is pruned leads nowhere else, so no other set is lost with it
  have hsink : ∀ S : States, decide (S ≠ .empty) = false →
      ∀ r ∈ M.keptMoves true S, decide (r.target ≠ .empty) = false := by
    intro S hS r hr
    rw [decide_eq_false_iff_not, not_not] at hS ⊢
    obtain ⟨⟨-, -, ht⟩, -⟩ := mem_keptMoves.1 hr
    rw [ht, hS, successor_empty]
  -- both searches are allowed as many expansions, and the full one needs no more
  have hend : (M.freeSearch true [M.startSet]).found.size ≤
      (M.freeSearch true [M.startSet]).expanded := size_found_freeSearch_le
  have hrun := hseeds.run_of_finished hsink hend
  rw [← keptMoves_false] at hrun
  exact hrun.report _ _

theorem states_subsetDfa_false :
    (M.subsetDfa false).states = (M.subsetDfa true).states.filter fun S => decide (S ≠ .empty) :=
  pruned_freeSearch.found

theorem moves_subsetDfa_false :
    (M.subsetDfa false).moves =
      (M.subsetDfa true).moves.filter fun r => decide (r.target ≠ .empty) :=
  pruned_freeSearch.moves

/-- No set that accepts is empty. -/
theorem accepting_subsetDfa_false :
    (M.subsetDfa false).accepting = (M.subsetDfa true).accepting := by
  apply Numbering.toList_injective
  change (M.subsetDfa false).states.toList.filter (fun S => S.meets M.accepting) =
    (M.subsetDfa true).states.toList.filter fun S => S.meets M.accepting
  rw [states_subsetDfa_false, Numbering.filter, List.filter_filter]
  refine List.filter_congr fun S _ => ?_
  cases hS : S.meets M.accepting with
  | false => rfl
  | true =>
    obtain ⟨q, hq, -⟩ := States.meets_iff.1 hS
    have hne : S ≠ .empty := fun he => States.not_mem_empty (he ▸ hq)
    rw [Bool.true_and, decide_eq_true hne]

/-! ### Missing moves -/

theorem next?_subsetDfa_true (hS : S ∈ (M.subsetDfa true).states) (hy : y ∈ M.alphabet) :
    (M.subsetDfa true).next? S y = some (M.successor S y) :=
  next?_subsetDfa.2 ⟨hS, hy, rfl, .inl rfl⟩

theorem next?_subsetDfa_false_eq_none (hS : S ∈ (M.subsetDfa false).states)
    (hy : y ∈ M.alphabet) :
    (M.subsetDfa false).next? S y = none ↔ M.successor S y = .empty := by
  rw [Option.eq_none_iff_forall_ne_some]
  constructor
  · intro hnone
    by_contra hne
    exact hnone _ (next?_subsetDfa.2 ⟨hS, hy, rfl, .inr hne⟩)
  · intro he T hT
    obtain ⟨-, -, rfl, hk⟩ := next?_subsetDfa.1 hT
    exact hk.elim Bool.false_ne_true fun hne => hne he

/-- On the way to the empty set, the last set that is not empty has the empty set for a
successor. -/
theorem exists_successor_eq_empty (hw : Word.Over M.alphabet w)
    (he : M.successorAlong M.startSet w = .empty) :
    ∃ S ∈ (M.subsetDfa false).states, ∃ y ∈ M.alphabet, M.successor S y = .empty := by
  induction w using List.reverseRecOn with
  | nil => exact absurd he startSet_ne_empty
  | append_singleton w y ih =>
    obtain ⟨hw, hy⟩ := Word.over_append.1 hw
    by_cases hempty : M.successorAlong M.startSet w = .empty
    · exact ih hw hempty
    · rw [successorAlong_append] at he
      exact ⟨_, mem_states_subsetDfa.2 ⟨⟨w, hw, rfl⟩, .inr hempty⟩, y,
        Word.over_singleton.1 hy, he⟩

theorem empty_mem_states_iff :
    .empty ∈ (M.subsetDfa true).states ↔
      ∃ S ∈ (M.subsetDfa false).states, ∃ y ∈ M.alphabet,
        (M.subsetDfa false).next? S y = none := by
  constructor
  · intro h
    obtain ⟨⟨w, hw, he⟩, -⟩ := mem_states_subsetDfa.1 h
    obtain ⟨S, hS, y, hy, hSy⟩ := exists_successor_eq_empty hw he
    exact ⟨S, hS, y, hy, (next?_subsetDfa_false_eq_none hS hy).2 hSy⟩
  · rintro ⟨S, hS, y, hy, hnone⟩
    have hS' : S ∈ (M.subsetDfa true).states := by
      rw [states_subsetDfa_false] at hS
      exact (List.mem_filter.1 hS).1
    have he : M.successor S y = .empty := (next?_subsetDfa_false_eq_none hS hy).1 hnone
    exact he ▸ successor_mem_states hS' hy (.inl rfl)

theorem length_moves_subsetDfa :
    (M.subsetDfa true).moves.length = (M.subsetDfa true).states.size * M.alphabet.size := by
  have hrow : ∀ S, (M.keptMoves true S).length = M.alphabet.size := by
    intro S
    rw [keptMoves_true, movesFrom, List.length_map, Numbering.size]
  change (M.freeSearch true [M.startSet]).moves.toList.length =
    (M.freeSearch true [M.startSet]).found.toList.length * M.alphabet.size
  rw [complete_freeSearch.moves_eq, List.length_flatMap]
  simp only [hrow, List.map_const', List.sum_replicate_nat]

/-! ### The two machines -/

theorem addsEmpty_subsetDfa : AddsEmpty (M.subsetDfa false) (M.subsetDfa true) := by
  have hstates : (M.subsetDfa false).states.toList =
      (M.subsetDfa true).states.toList.erase .empty := by
    rw [states_subsetDfa_false, (M.subsetDfa true).states.nodup.erase_eq_filter]
    refine List.filter_congr fun S _ => ?_
    rw [Bool.eq_iff_iff, decide_eq_true_iff, bne_iff_ne]
  exact {
    states := hstates
    moves := moves_subsetDfa_false
    start := rfl
    alphabet := rfl
    accepting := accepting_subsetDfa_false
    total := fun S hS y hy => ⟨_, next?_subsetDfa_true hS hy⟩
    length_moves := length_moves_subsetDfa
    empty_mem_iff := empty_mem_states_iff
    loop := fun h y hy => (next?_subsetDfa_true h hy).trans (congrArg some successor_empty)
    size_of_mem := Numbering.size_of_erase_of_mem hstates
    size_of_not_mem := Numbering.size_of_erase_of_not_mem hstates }

/-- **Keeping the empty set changes nothing else.**  The deterministic machine that keeps it has
the other states, moves and accepting states of the machine that does not, in the same order, and
misses no move. -/
theorem determinize_addsEmpty (M : Nfa) :
    ∃ K, M.determinizeWithin ⟨none, true⟩ = .ok K ∧ AddsEmpty M.determinize K :=
  ⟨M.subsetDfa true, determinizeWithin_unbounded, determinize_eq ▸ addsEmpty_subsetDfa⟩

end Nfa

end Determinize
