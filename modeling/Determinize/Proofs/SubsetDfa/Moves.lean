import Determinize.Proofs.Language

/-!
# The recorded moves

The moves that a search records are the moves of the sets it has found, set after set in the order
in which they were found, and each set's in the order of the alphabet; if the empty set is left out,
so are the moves that lead to it (`Nfa.recorded_freeSearch`).  A set is found once and has one move
on a symbol, so source and symbol determine a recorded move.

The deterministic machine looks its moves up in rows of arrows, which were built from the recorded
moves.  It finds a move exactly if the move has been recorded, that is, if it leads from a state to
its successor and the successor has been kept (`Nfa.transitions_recorded`).
-/

namespace Determinize

/-- The sets found and the moves recorded by a search through the sets of `M`. -/
structure Recorded (M : Nfa) (keep : Bool) (found : Numbering States)
    (moves : List (Rule States)) : Prop where
  /-- The moves are those of the sets in their order, without the moves left out. -/
  moves_eq : moves = (found.toList.flatMap M.movesFrom).filter fun r =>
    keep || !r.target.isEmpty
  /-- Every move leads from a set found to a set found. -/
  ends : ∀ r ∈ moves, r.source ∈ found ∧ r.target ∈ found
  /-- No two moves have both source and symbol in common. -/
  deterministic : moves.Pairwise fun r r' => ¬ (r.source = r'.source ∧ r.symbol = r'.symbol)

/-- The moves of the deterministic machine `D` of `M`, recorded and looked up. -/
structure Transitions (M : Nfa) (keep : Bool) (D : SubsetDfa) : Prop
    extends Recorded M keep D.states D.moves where
  /-- Looking up finds what has been recorded. -/
  next?_iff_mem : ∀ S y T, D.next? S y = some T ↔ ⟨S, y, T⟩ ∈ D.moves
  /-- Looking up finds the successors of the states. -/
  next?_iff : ∀ S y T, D.next? S y = some T ↔
    S ∈ D.states ∧ y ∈ M.alphabet ∧ T = M.successor S y ∧ (T ≠ .empty ∨ keep = true)

theorem Search.Complete.target_mem_found {σ : Type} [DecidableEq σ] {moves : σ → List (Rule σ)}
    {seeds : List σ} {s : Search σ} {a : σ} {r : Rule σ} (h : Complete moves seeds s)
    (ha : a ∈ s.found) (hr : r ∈ moves a) : r.target ∈ s.found := by
  obtain ⟨b, hb, hba⟩ := (h.mem_found_iff a).1 ha
  exact (h.mem_found_iff r.target).2 ⟨b, hb, hba.tail ⟨r, hr, rfl⟩⟩

namespace Nfa

open Search

variable {M : Nfa} {S T : States} {keep : Bool} {seeds : List States} {v : Numbering States}
  {D : SubsetDfa} {c : Settings}

/-! ### What a search records -/

/-- One set has one move on each symbol, and different sets have different moves. -/
theorem pairwise_flatMap_movesFrom :
    (v.toList.flatMap M.movesFrom).Pairwise fun r r' =>
      ¬ (r.source = r'.source ∧ r.symbol = r'.symbol) := by
  refine List.pairwise_flatMap.2 ⟨fun S _ => ?_, v.nodup.imp fun hST r hr r' hr' h => ?_⟩
  · exact List.pairwise_map.2 (M.alphabet.nodup.imp fun hy h => hy h.2)
  · exact hST ((mem_movesFrom.1 hr).1.symm.trans (h.1.trans (mem_movesFrom.1 hr').1))

theorem recorded_freeSearch :
    Recorded M keep (M.freeSearch keep seeds).found (M.freeSearch keep seeds).moves.toList := by
  have hcomplete : Complete (M.keptMoves keep) seeds (M.freeSearch keep seeds) :=
    complete_freeSearch
  have hmoves : (M.freeSearch keep seeds).moves.toList =
      ((M.freeSearch keep seeds).found.toList.flatMap M.movesFrom).filter fun r =>
        keep || !r.target.isEmpty := by
    rw [hcomplete.moves_eq, List.filter_flatMap]
    rfl
  refine ⟨hmoves, fun r hr => ?_, hmoves ▸ pairwise_flatMap_movesFrom.filter _⟩
  rw [hcomplete.moves_eq] at hr
  obtain ⟨S, hS, hrS⟩ := List.mem_flatMap.1 hr
  obtain ⟨⟨rfl, -, -⟩, -⟩ := mem_keptMoves.1 hrS
  exact ⟨hS, hcomplete.target_mem_found hS hrS⟩

/-- If the empty set is kept, all moves of the sets found are recorded. -/
theorem moves_searchFrom :
    (M.searchFrom seeds).moves.toList = (M.searchFrom seeds).found.toList.flatMap M.movesFrom := by
  have hrecorded : Recorded M true (M.freeSearch true seeds).found
      (M.freeSearch true seeds).moves.toList := recorded_freeSearch
  rw [searchFrom_eq, hrecorded.moves_eq]
  exact List.filter_eq_self.2 fun _ _ => rfl

/-! ### What the deterministic machine looks up -/

theorem transitions_subsetDfa : Transitions M keep (M.subsetDfa keep) where
  toRecorded := recorded_freeSearch
  next?_iff_mem _ _ _ := next?_eq_some_iff_mem_moves
  next?_iff S y T := by
    rw [next?_subsetDfa, eq_comm (a := T), or_comm]

/-- **The recorded moves are the transitions.**  A search from any seeds records the moves of all
sets it finds, in the order in which it finds them; the deterministic machines have the same
moves, without those into the empty set unless that is kept.  The ends of every move have been
found, and source and symbol determine it.  A set has a move on a symbol exactly if the set is a
state, the symbol is in the alphabet and the successor of the set, to which it leads, is kept. -/
theorem transitions_recorded (M : Nfa) :
    (∀ seeds, (M.searchFrom seeds).moves.toList =
        (M.searchFrom seeds).found.toList.flatMap M.movesFrom ∧
      Recorded M true (M.searchFrom seeds).found (M.searchFrom seeds).moves.toList) ∧
    Transitions M false M.determinize ∧
    ∀ c D, M.determinizeWithin c = .ok D → Transitions M c.keepEmpty D := by
  refine ⟨fun seeds => ⟨moves_searchFrom, ?_⟩, ?_, fun c D hD => ?_⟩
  · rw [searchFrom_eq]
    exact recorded_freeSearch
  · rw [determinize_eq]
    exact transitions_subsetDfa
  · rw [eq_subsetDfa_of_determinizeWithin hD]
    exact transitions_subsetDfa

/-- The move of the start set of `aPlus` on `a` has been recorded. -/
theorem transitions_recorded_aPlus :
    ∃ D, aPlus.determinizeWithin ⟨some 2, true⟩ = .ok D ∧ Transitions aPlus true D ∧
      ⟨D.start, .ofChar 'a', aPlus.successor D.start (.ofChar 'a')⟩ ∈ D.moves := by
  have htrans := (transitions_recorded aPlus).2.2 _ _ determinizeWithin_aPlus
  have hnext : (aPlus.subsetDfa true).next? (aPlus.subsetDfa true).start (.ofChar 'a') =
      some (aPlus.successor (aPlus.subsetDfa true).start (.ofChar 'a')) :=
    (htrans.next?_iff _ _ _).2 ⟨start_mem_states, by decide, rfl, .inr rfl⟩
  exact ⟨_, determinizeWithin_aPlus, htrans, (htrans.next?_iff_mem _ _ _).1 hnext⟩

end Nfa

end Determinize
