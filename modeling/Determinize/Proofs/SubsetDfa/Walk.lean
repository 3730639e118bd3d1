import Determinize.Proofs.SubsetDfa.States

/-!
# Walks of the deterministic machine

A move of the deterministic machine leads from a set to its successor (`Nfa.mem_moves_subsetDfa`),
so at most one move leaves a set on a symbol, and looking a move up in the rows of arrows finds it
(`Nfa.next?_subsetDfa`).  A walk follows successors, as long as the symbols are in the alphabet
and, if the empty set is left out, the sets are not empty (`Nfa.walk_subsetDfa`).

A symbol outside the alphabet, the silent symbol aside, empties the set of the running machine and
ends the walk of the deterministic one: neither accepts.
-/

namespace Determinize

namespace Nfa

open Relation Search

variable {M : Nfa} {S T : States} {w : Word} {y : Symbol} {keep : Bool} {r : Rule States}

/-! ### Moves -/

theorem mem_moves_subsetDfa :
    ⟨S, y, T⟩ ∈ (M.subsetDfa keep).moves ↔
      S ∈ (M.subsetDfa keep).states ∧ y ∈ M.alphabet ∧ M.successor S y = T ∧
        (keep = true ∨ T ≠ .empty) := by
  change _ ∈ (M.freeSearch keep [M.startSet]).moves.toList ↔
    S ∈ (M.freeSearch keep [M.startSet]).found ∧ _
  rw [complete_freeSearch.moves_eq, List.mem_flatMap]
  simp only [mem_keptMoves, Numbering.mem_toList]
  constructor
  · rintro ⟨_, hS, ⟨rfl, hy, rfl⟩, hk⟩
    exact ⟨hS, hy, rfl, hk⟩
  · rintro ⟨hS, hy, rfl, hk⟩
    exact ⟨S, hS, ⟨rfl, hy, rfl⟩, hk⟩

theorem successor_mem_states (hS : S ∈ (M.subsetDfa keep).states) (hy : y ∈ M.alphabet)
    (hk : keep = true ∨ M.successor S y ≠ .empty) :
    M.successor S y ∈ (M.subsetDfa keep).states := by
  obtain ⟨⟨w, hw, rfl⟩, -⟩ := mem_states_subsetDfa.1 hS
  refine mem_states_subsetDfa.2 ⟨⟨w ++ [y], ?_, successorAlong_append⟩, hk⟩
  exact Word.over_append.2 ⟨hw, Word.over_singleton.2 hy⟩

/-- The arrows from the number of a set all lead to the number of its successor. -/
theorem mem_targets_subsetDfa {i j : ℕ} (hi : (M.subsetDfa keep).states.number? S = some i) :
    j ∈ (M.subsetDfa keep).arrows.targets i y ↔
      ⟨S, y, M.successor S y⟩ ∈ (M.subsetDfa keep).moves ∧
        (M.subsetDfa keep).states.number? (M.successor S y) = some j := by
  refine Arrows.mem_targets_ofRules.trans ⟨?_, fun ⟨hr, hj⟩ => ⟨S, _, hi, hj, hr⟩⟩
  rintro ⟨S', T, hi', hj, hr⟩
  obtain rfl : S = S' := Numbering.number?_inj hi hi'
  obtain ⟨-, -, rfl, -⟩ := mem_moves_subsetDfa.1 hr
  exact ⟨hr, hj⟩

/-- **Looking up a move** finds it exactly if it has been recorded. -/
theorem next?_eq_some_iff_mem_moves :
    (M.subsetDfa keep).next? S y = some T ↔ ⟨S, y, T⟩ ∈ (M.subsetDfa keep).moves := by
  simp only [SubsetDfa.next?, Option.bind_eq_bind, Option.bind_eq_some_iff]
  constructor
  · rintro ⟨i, hi, j, hj, hT⟩
    obtain ⟨hr, hj'⟩ := (mem_targets_subsetDfa hi).1 (List.mem_of_getLast? hj)
    have hTS : T = M.successor S y := Numbering.number?_inj (Numbering.number?_eq_some_iff.2 hT) hj'
    exact hTS ▸ hr
  · intro hr
    obtain ⟨hS, hy, rfl, hk⟩ := mem_moves_subsetDfa.1 hr
    obtain ⟨i, hi⟩ := Numbering.exists_number? hS
    obtain ⟨j, hj⟩ := Numbering.exists_number? (successor_mem_states hS hy hk)
    -- the row is not empty, and whatever stands last in it is the number of the successor
    have hrow : (M.subsetDfa keep).arrows.targets i y ≠ [] :=
      List.ne_nil_of_mem ((mem_targets_subsetDfa hi).2 ⟨hr, hj⟩)
    have hlast := (mem_targets_subsetDfa hi).1 (List.getLast_mem hrow)
    exact ⟨i, hi, _, List.getLast?_eq_some_getLast hrow, Numbering.number?_eq_some_iff.1 hlast.2⟩

theorem next?_subsetDfa :
    (M.subsetDfa keep).next? S y = some T ↔
      S ∈ (M.subsetDfa keep).states ∧ y ∈ M.alphabet ∧ M.successor S y = T ∧
        (keep = true ∨ T ≠ .empty) :=
  next?_eq_some_iff_mem_moves.trans mem_moves_subsetDfa

/-! ### Walks -/

theorem successorAlong_empty : M.successorAlong .empty w = .empty := by
  induction w with
  | nil => rfl
  | cons y w ih =>
    change M.successorAlong (M.successor .empty y) w = .empty
    rw [successor_empty, ih]

/-- A walk from a set of the machine follows successors. -/
theorem walk_subsetDfa (hS : S ∈ (M.subsetDfa keep).states) :
    (M.subsetDfa keep).walk S w = some T ↔
      Word.Over M.alphabet w ∧ M.successorAlong S w = T ∧ (keep = true ∨ T ≠ .empty) := by
  induction w generalizing S with
  | nil =>
    change some S = some T ↔ _
    rw [Option.some.injEq]
    refine ⟨?_, fun ⟨_, h, _⟩ => h⟩
    rintro rfl
    exact ⟨List.forall_mem_nil _, rfl, (mem_states_subsetDfa.1 hS).2⟩
  | cons y w ih =>
    have hover : Word.Over M.alphabet (y :: w) ↔ y ∈ M.alphabet ∧ Word.Over M.alphabet w :=
      List.forall_mem_cons
    change ((M.subsetDfa keep).next? S y).bind ((M.subsetDfa keep).walk · w) = some T ↔ _
    rw [Option.bind_eq_some_iff, hover]
    constructor
    · rintro ⟨U, hU, hw⟩
      obtain ⟨-, hy, rfl, hk⟩ := next?_subsetDfa.1 hU
      obtain ⟨hw, hT⟩ := (ih (successor_mem_states hS hy hk)).1 hw
      exact ⟨⟨hy, hw⟩, hT⟩
    · rintro ⟨⟨hy, hw⟩, hT, hk⟩
      -- a walk that does not end in the empty set has not met it
      have hk' : keep = true ∨ M.successor S y ≠ .empty := by
        refine hk.imp_right fun hne he => hne ?_
        rw [← hT]
        change M.successorAlong (M.successor S y) w = .empty
        rw [he, successorAlong_empty]
      refine ⟨M.successor S y, next?_subsetDfa.2 ⟨hS, hy, rfl, hk'⟩, ?_⟩
      exact (ih (successor_mem_states hS hy hk')).2 ⟨hw, hT, hk⟩

/-! ### Acceptance -/

/-- The running machine is where the word leads from the start set. -/
theorem current_run_readWord : (M.run.readWord w).current = M.successorAlong M.startSet w := by
  have hrun : M.run = M.runFrom M.startSet := congrArg Run.mk closure_startSet.symm
  rw [hrun, current_readWord_of_closed closure_startSet]

theorem accepts_iff_successorAlong :
    M.accepts w = true ↔ ∃ q ∈ M.successorAlong M.startSet w, q ∈ M.accepting := by
  rw [accepts, Run.isAccepting_iff, current_run_readWord]

theorem accepts_subsetDfa_iff :
    (M.subsetDfa keep).accepts w = true ↔
      Word.Over M.alphabet w ∧ ∃ q ∈ M.successorAlong M.startSet w, q ∈ M.accepting := by
  rw [SubsetDfa.accepts, Option.any_eq_true, start_subsetDfa]
  simp only [decide_eq_true_eq, walk_subsetDfa start_mem_states, mem_accepting_subsetDfa]
  constructor
  · rintro ⟨T, ⟨hw, rfl, -⟩, -, hq⟩
    exact ⟨hw, hq⟩
  · rintro ⟨hw, q, hq, hacc⟩
    have hk : keep = true ∨ M.successorAlong M.startSet w ≠ .empty :=
      .inr fun he => States.not_mem_empty (he ▸ hq)
    exact ⟨_, ⟨hw, rfl, hk⟩, mem_states_subsetDfa.2 ⟨⟨w, hw, rfl⟩, hk⟩, q, hq, hacc⟩

/-- A foreign symbol leads every set to the empty set. -/
theorem successor_eq_empty (hs : y ≠ .silent) (hy : y ∉ M.alphabet) :
    M.successor S y = .empty := by
  have himage : M.rules.image (M.runFrom S).current y = .empty := RuleIndex.image_eq_empty hs hy
  rw [successor, Run.read, himage, RuleIndex.closure_empty]

theorem silent_not_mem_alphabet : Symbol.silent ∉ M.alphabet :=
  fun h => (RuleIndex.mem_alphabet.1 h).1 rfl

/-- A word that leads somewhere and has no silent symbol is a word over the alphabet. -/
theorem over_of_successorAlong_ne_empty (hw : Symbol.silent ∉ w)
    (h : M.successorAlong S w ≠ .empty) : Word.Over M.alphabet w := by
  induction w generalizing S with
  | nil => exact List.forall_mem_nil _
  | cons y w ih =>
    obtain ⟨hy, hw⟩ := not_or.1 (mt List.mem_cons.2 hw)
    refine List.forall_mem_cons.2 ⟨?_, ih hw h⟩
    by_contra hya
    refine h ?_
    change M.successorAlong (M.successor S y) w = .empty
    rw [successor_eq_empty (Ne.symm hy) hya, successorAlong_empty]

theorem accepts_subsetDfa_of_not_silent (hw : Symbol.silent ∉ w) :
    (M.subsetDfa keep).accepts w = M.accepts w := by
  rw [Bool.eq_iff_iff, accepts_subsetDfa_iff, accepts_iff_successorAlong, and_iff_right_iff_imp]
  rintro ⟨q, hq, -⟩
  exact over_of_successorAlong_ne_empty hw fun he => States.not_mem_empty (he ▸ hq)

theorem accepts_subsetDfa_of_silent (hw : Symbol.silent ∈ w) :
    (M.subsetDfa keep).accepts w = false := by
  rw [Bool.eq_false_iff, Ne, accepts_subsetDfa_iff]
  exact fun h => silent_not_mem_alphabet (h.1 _ hw)

end Nfa

end Determinize
