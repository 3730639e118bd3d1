import Determinize.Proofs.Run
import Determinize.Proofs.Search.Complete
import Determinize.SubsetSearch
import Mathlib.Data.Finset.Powerset

/-!
# The sets that a search finds

A set moves on every symbol of the alphabet, to its successor (`Nfa.mem_keptMoves`).  All
successors consist of states that the rules mention, so besides its seeds a search finds at most
as many sets as these states have subsets (`Nfa.size_found_le`); this is the number of expansions
a search is given, so that it is complete (`Nfa.complete_freeSearch`).

A gate changes nothing but whether there is a result (`Nfa.guarded_search`): the bounded and the
unbounded searches have the result `Nfa.freeSearch` if they have one.
-/

namespace Determinize

namespace Nfa

open Relation Search

variable {M : Nfa} {S T : States} {y : Symbol} {s t : State} {keep : Bool} {w : Word}
  {r : Rule States} {seeds : List States}

/-! ### Moves between sets -/

/-- The moves of a set lead to its successors, in the order of the alphabet. -/
theorem movesFrom_eq :
    M.movesFrom S = M.alphabet.toList.map fun y => ⟨S, y, M.successor S y⟩ := rfl

theorem mem_movesFrom :
    r ∈ M.movesFrom S ↔
      r.source = S ∧ r.symbol ∈ M.alphabet ∧ r.target = M.successor S r.symbol := by
  rw [movesFrom_eq, List.mem_map]
  constructor
  · rintro ⟨y, hy, rfl⟩
    exact ⟨rfl, hy, rfl⟩
  · rintro ⟨rfl, hy, ht⟩
    exact ⟨r.symbol, hy, by rw [← ht]⟩

/-- The moves that are followed: one on each symbol, to the successor, unless that is empty and
the empty set is left out. -/
theorem mem_keptMoves :
    r ∈ M.keptMoves keep S ↔
      (r.source = S ∧ r.symbol ∈ M.alphabet ∧ r.target = M.successor S r.symbol) ∧
        (keep = true ∨ r.target ≠ .empty) := by
  rw [keptMoves, List.mem_filter, mem_movesFrom, Bool.or_eq_true, Bool.not_eq_true',
    Bool.eq_false_iff, Ne, States.isEmpty_iff]

theorem leads_iff :
    Leads (M.keptMoves keep) S T ↔
      ∃ y ∈ M.alphabet, M.successor S y = T ∧ (keep = true ∨ T ≠ .empty) := by
  simp only [Leads, mem_keptMoves]
  constructor
  · rintro ⟨r, ⟨⟨rfl, hy, ht⟩, hk⟩, rfl⟩
    exact ⟨r.symbol, hy, ht.symm, hk⟩
  · rintro ⟨y, hy, rfl, hk⟩
    exact ⟨⟨S, y, M.successor S y⟩, ⟨⟨rfl, hy, rfl⟩, hk⟩, rfl⟩

/-- Nothing follows the empty set but the empty set. -/
theorem successor_empty : M.successor .empty y = .empty := by
  rw [successor, Run.read, runFrom, RuleIndex.closure_empty, RuleIndex.image_empty,
    RuleIndex.closure_empty]

/-- Every state of a successor is mentioned by a rule. -/
theorem mem_nodes_of_mem_successor (h : t ∈ M.successor S y) : t ∈ M.rules.nodes := by
  obtain ⟨u, hu, hp⟩ := RuleIndex.mem_closure.1 h
  obtain ⟨k, hk⟩ := path_nil_iff.1 hp
  -- the last rule taken is a silent move, or the one on `y` if there are no silent moves
  cases k with
  | zero => exact hk ▸ RuleIndex.image_subset_nodes hu
  | succ k =>
    obtain ⟨r, hr, -, -, rfl⟩ := hk
    exact RuleIndex.target_mem_nodes hr

/-! ### How many sets there are -/

/-- Distinct sets of states that have numbers are at most as many as the subsets of these. -/
theorem length_le_two_pow {nodes : Numbering State} {l : List States} (hl : l.Nodup)
    (h : ∀ S ∈ l, ∀ t ∈ S, t ∈ nodes) : l.length ≤ 2 ^ nodes.size := by
  classical
  have hinj : Function.Injective fun S : States => S.toList.toFinset := by
    intro S T hST
    refine States.ext fun t => ?_
    have ht : t ∈ S.toList.toFinset ↔ t ∈ T.toList.toFinset :=
      iff_of_eq (congrArg (t ∈ ·) hST)
    simpa using ht
  have hsub : l.toFinset.image (fun S : States => S.toList.toFinset) ⊆
      nodes.toList.toFinset.powerset := by
    intro A hA
    obtain ⟨S, hS, rfl⟩ := Finset.mem_image.1 hA
    refine Finset.mem_powerset.2 fun t ht => List.mem_toFinset.2 ?_
    exact h S (List.mem_toFinset.1 hS) t (List.mem_toFinset.1 ht)
  calc l.length = l.toFinset.card := (List.toFinset_card_of_nodup hl).symm
    _ = (l.toFinset.image fun S : States => S.toList.toFinset).card :=
      (Finset.card_image_of_injective _ hinj).symm
    _ ≤ nodes.toList.toFinset.powerset.card := Finset.card_le_card hsub
    _ = 2 ^ nodes.size := by
      rw [Finset.card_powerset, List.toFinset_card_of_nodup nodes.nodup, Numbering.size]

/-- A set found is a seed or consists of states that rules mention. -/
theorem subset_nodes_of_found {s : Search States} (h : Explored (M.keptMoves keep) seeds s)
    (hS : S ∈ s.found) : S ∈ seeds ∨ ∀ t ∈ S, t ∈ M.rules.nodes := by
  obtain ⟨T, hT, hTS⟩ := h.reached S hS
  rcases ReflTransGen.cases_tail hTS with rfl | ⟨U, -, hUS⟩
  · exact .inl hT
  · obtain ⟨y, -, rfl, -⟩ := leads_iff.1 hUS
    exact .inr fun t ht => mem_nodes_of_mem_successor ht

/-- A search finds at most as many sets as the states of the rules have subsets, and the seeds
that are no such subsets. -/
theorem size_found_le {s : Search States} (h : Explored (M.keptMoves keep) seeds s) :
    s.found.size ≤ 2 ^ M.rules.nodes.size +
      ((Numbering.ofList seeds).filter fun S => !S.isSubsetOf M.rules.states).size := by
  -- count the sets of states that rules mention, then the others, all of which are seeds
  have hin : (s.found.toList.filter fun S => S.isSubsetOf M.rules.states).length ≤
      2 ^ M.rules.nodes.size := by
    refine length_le_two_pow (s.found.nodup.filter _) fun S hS t ht => ?_
    exact RuleIndex.mem_states.1 (States.isSubsetOf_iff.1 (List.mem_filter.1 hS).2 t ht)
  have hout : (s.found.toList.filter fun S => !S.isSubsetOf M.rules.states).length ≤
      ((Numbering.ofList seeds).filter fun S => !S.isSubsetOf M.rules.states).size := by
    refine (List.subperm_of_subset (s.found.nodup.filter _) fun S hS => ?_).length_le
    obtain ⟨hf, hn⟩ := List.mem_filter.1 hS
    rcases subset_nodes_of_found h hf with hseed | hnodes
    · exact List.mem_filter.2 ⟨Numbering.mem_ofList.2 hseed, hn⟩
    · have hsub : S.isSubsetOf M.rules.states = true :=
        States.isSubsetOf_iff.2 fun t ht => RuleIndex.mem_states.2 (hnodes t ht)
      simp [hsub] at hn
  have hsum := List.length_eq_length_filter_add (l := s.found.toList)
    fun S => S.isSubsetOf M.rules.states
  rw [Numbering.size]
  omega

theorem size_found_le_searchSpace {s : Search States}
    (h : Explored (M.keptMoves keep) seeds s) : s.found.size ≤ M.searchSpace seeds := by
  have hfilter : ((Numbering.ofList seeds).filter fun S => !S.isSubsetOf M.rules.states).size ≤
      (Numbering.ofList seeds).size := List.length_filter_le _ _
  have hseeds : (Numbering.ofList seeds).size ≤ seeds.length := Numbering.size_ofList_le
  have hfound := size_found_le h
  rw [searchSpace, Nat.pow_eq]
  omega

/-! ### The search without a gate -/

variable (M keep seeds) in
/-- The search from seeds without a gate. -/
def freeSearch : Search States :=
  let s := seeds.foldl Free.seed Search.empty
  let s := s.report (.seeded s.found.size M.alphabet.size)
  let s := Free.run (M.keptMoves keep) (M.searchSpace seeds) s
  s.report (.finished s.found.size s.moves.size)

theorem foldl_seed (s : Search States) :
    seeds.foldl Free.seed s = { s with found := seeds.foldl Numbering.insert s.found } := by
  induction seeds generalizing s with
  | nil => rfl
  | cons S seeds ih => exact ih _

theorem explored_seeds (r : Record States) :
    Explored (M.keptMoves keep) seeds ((seeds.foldl Free.seed Search.empty).report r) := by
  rw [foldl_seed]
  exact .start rfl rfl rfl

theorem explored_freeSearch : Explored (M.keptMoves keep) seeds (M.freeSearch keep seeds) :=
  ((explored_seeds _).run _).report _

/-- The search is given enough expansions to expand all the sets it finds. -/
theorem size_found_freeSearch_le :
    (M.freeSearch keep seeds).found.size ≤ (M.freeSearch keep seeds).expanded := by
  refine size_found_run_le (explored_seeds _) fun t ht => ?_
  have hexpanded : (seeds.foldl Free.seed Search.empty).expanded = 0 := by
    rw [foldl_seed]
    rfl
  change t.found.size ≤ (seeds.foldl Free.seed Search.empty).expanded + M.searchSpace seeds
  rw [hexpanded, Nat.zero_add]
  exact size_found_le_searchSpace ht

/-- **The search is complete**: it finds what can be reached from the seeds, and records all
moves. -/
theorem complete_freeSearch : Complete (M.keptMoves keep) seeds (M.freeSearch keep seeds) :=
  explored_freeSearch.complete size_found_freeSearch_le

/-! ### The search under a gate -/

/-- The search under a gate has the result of the search without one, unless the gate refuses a
number of sets on the way. -/
theorem guarded_search {ε : Type} {gate : Gate ε} :
    Guarded gate Search.empty (M.search gate keep seeds) (M.freeSearch keep seeds) := by
  have hseeds : Guarded gate Search.empty (seeds.foldlM (Search.seed gate) Search.empty)
      (seeds.foldl Free.seed Search.empty) := Guarded.foldlM (fun _ _ => Guarded.seed) seeds
  let s := seeds.foldl Free.seed Search.empty
  let t := s.report (.seeded s.found.size M.alphabet.size)
  let u := Free.run (M.keptMoves keep) (M.searchSpace seeds) t
  have hrun : Guarded gate t (t.run gate (M.keptMoves keep) (M.searchSpace seeds)) u :=
    Guarded.run _ _
  -- the records before and after the run find no states
  have hend : Guarded gate u (.ok (u.report (.finished u.found.size u.moves.size)))
      (M.freeSearch keep seeds) := (Guarded.pure (M.freeSearch keep seeds)).of_found_eq rfl
  exact hseeds.bind (Guarded.of_found_eq (t := s) (hrun.bind hend) rfl)

theorem passes_always {m n : ℕ} : Gate.always.Passes m n := fun _ _ _ => rfl

theorem searchFrom_eq : M.searchFrom seeds = M.freeSearch true seeds := by
  rw [searchFrom, guarded_search.passes passes_always, ofUnstoppable]

theorem searchAll_eq : M.searchAll = M.freeSearch false [M.startSet] := by
  rw [searchAll, guarded_search.passes passes_always, ofUnstoppable]
  rfl

theorem searchWithin_unbounded :
    M.searchWithin ⟨none, keep⟩ = .ok (M.freeSearch keep [M.startSet]) :=
  guarded_search.passes fun _ _ _ => rfl

end Nfa

end Determinize
