import Determinize.Proofs.SubsetDfa.Moves

/-!
# The order of the rules

The rules of a machine are listed in some order, and may be listed more than once.  The order
decides which numbers the states get, in which order the alphabet is listed, and hence in which
order a search finds its sets.  None of this matters: what can be asked of a list of rules, of a run
or of a deterministic machine depends on which rules there are (`Nfa.indistinguishable`), and only
the order of alphabet, states and moves depends on more.

Nothing here looks at the two searches side by side.  All that a search finds is described by
membership, in terms of paths and successors, and descriptions by membership do not see the order.
-/

namespace Determinize

/-- The machines have the same start state, the same accepting states and the same rules, which may
be listed in different orders and any number of times. -/
structure Nfa.SameRules (M M' : Nfa) : Prop where
  /-- The start state is the same. -/
  start : M.start = M'.start
  /-- The accepting states are the same. -/
  mem_accepting : ∀ q, q ∈ M.accepting ↔ q ∈ M'.accepting
  /-- The rules are the same. -/
  mem_rules : ∀ r, r ∈ M.rules.rules ↔ r ∈ M'.rules.rules

/-- The two indexes of rules give the same answers. -/
structure RuleIndex.Interchangeable (R R' : RuleIndex) : Prop where
  /-- They mention the same states. -/
  states : R.states = R'.states
  /-- They find the same targets of a state on a symbol. -/
  targets : ∀ s y, R.targets s y = R'.targets s y
  /-- They move every set alike. -/
  image : ∀ S y, R.image S y = R'.image S y
  /-- They close every set alike. -/
  closure : ∀ S, R.closure S = R'.closure S

/-- The two deterministic machines differ at most in the order in which they list their states,
moves and symbols. -/
structure SubsetDfa.SameUpToOrder (D D' : SubsetDfa) : Prop where
  /-- The start is the same. -/
  start : D.start = D'.start
  /-- The states are the same. -/
  states : D.states.toList.Perm D'.states.toList
  /-- The moves are the same. -/
  moves : D.moves.Perm D'.moves
  /-- No move is listed twice. -/
  nodup : D.moves.Nodup ∧ D'.moves.Nodup
  /-- The accepting states are the same. -/
  accepting : D.accepting.toList.Perm D'.accepting.toList
  /-- The symbols are the same. -/
  alphabet : D.alphabet.toList.Perm D'.alphabet.toList
  /-- The same words are accepted. -/
  accepts : ∀ w, D.accepts w = D'.accepts w
  /-- The tables accept the same words, if they have a number for every state. -/
  table : D.states.size ≤ 2 ^ 32 →
    ∀ w, (TableDfa.ofSubsets D).accepts w = (TableDfa.ofSubsets D').accepts w

theorem Recorded.nodup {M : Nfa} {keep : Bool} {v : Numbering States} {l : List (Rule States)}
    (h : Recorded M keep v l) : l.Nodup :=
  h.deterministic.imp fun hne he => hne ⟨congrArg Rule.source he, congrArg Rule.symbol he⟩

namespace RuleIndex

variable {R R' : RuleIndex}

theorem interchangeable_of_mem_iff (h : ∀ r, r ∈ R.rules ↔ r ∈ R'.rules) :
    R.Interchangeable R' where
  states := States.ext fun s => by simp only [mem_states, mem_nodes, h]
  targets s y := States.ext fun t => by rw [mem_targets, mem_targets, h]
  image S y := States.ext fun t => by simp only [mem_image, h]
  closure S := States.ext fun t => by simp only [mem_closure, Path.congr h]

end RuleIndex

namespace Nfa

variable {M M' : Nfa} {S T : States} {w : Word} {y : Symbol} {keep : Bool}

namespace SameRules

theorem accepting (h : SameRules M M') : M.accepting = M'.accepting := States.ext h.mem_accepting

theorem interchangeable (h : SameRules M M') : M.rules.Interchangeable M'.rules :=
  RuleIndex.interchangeable_of_mem_iff h.mem_rules

/-! ### Runs -/

theorem current_readWord (h : SameRules M M') :
    ((M.runFrom S).readWord w).current = ((M'.runFrom S).readWord w).current := by
  refine States.ext fun q => ?_
  simp only [mem_current_readWord, Path.congr h.mem_rules]

theorem current_run_readWord (h : SameRules M M') :
    (M.run.readWord w).current = (M'.run.readWord w).current := by
  rw [run, run, h.start]
  exact h.current_readWord

theorem accepts (h : SameRules M M') : M.accepts w = M'.accepts w := by
  rw [Nfa.accepts, Nfa.accepts, Run.isAccepting, Run.isAccepting, h.current_run_readWord,
    h.accepting]

/-! ### Sets as states -/

theorem mem_alphabet (h : SameRules M M') : y ∈ M.alphabet ↔ y ∈ M'.alphabet := by
  simp only [alphabet, RuleIndex.mem_alphabet, h.mem_rules]

theorem over_iff (h : SameRules M M') : Word.Over M.alphabet w ↔ Word.Over M'.alphabet w :=
  forall₂_congr fun _ _ => h.mem_alphabet

theorem successor (h : SameRules M M') : M.successor = M'.successor := by
  funext S y
  exact h.current_readWord (w := [y])

theorem successorAlong (h : SameRules M M') : M.successorAlong S w = M'.successorAlong S w := by
  rw [Nfa.successorAlong, h.successor, Nfa.successorAlong]

theorem startSet (h : SameRules M M') : M.startSet = M'.startSet := by
  rw [Nfa.startSet, h.start, h.interchangeable.closure, Nfa.startSet]

theorem mem_states (h : SameRules M M') :
    S ∈ (M.subsetDfa keep).states ↔ S ∈ (M'.subsetDfa keep).states := by
  simp only [mem_states_subsetDfa, h.over_iff, h.successorAlong, h.startSet]

theorem mem_moves (h : SameRules M M') (r : Rule States) :
    r ∈ (M.subsetDfa keep).moves ↔ r ∈ (M'.subsetDfa keep).moves := by
  obtain ⟨S, y, T⟩ := r
  rw [mem_moves_subsetDfa, mem_moves_subsetDfa, h.mem_states, h.mem_alphabet, h.successor]

theorem mem_accepting_states (h : SameRules M M') :
    S ∈ (M.subsetDfa keep).accepting ↔ S ∈ (M'.subsetDfa keep).accepting := by
  rw [mem_accepting_subsetDfa, mem_accepting_subsetDfa, h.mem_states, h.accepting]

theorem accepts_subsetDfa (h : SameRules M M') :
    (M.subsetDfa keep).accepts w = (M'.subsetDfa keep).accepts w := by
  rw [Bool.eq_iff_iff, accepts_subsetDfa_iff, accepts_subsetDfa_iff, h.over_iff,
    h.successorAlong, h.startSet, h.accepting]

/-! ### Deterministic machines -/

theorem size_states (h : SameRules M M') :
    (M.subsetDfa keep).states.size = (M'.subsetDfa keep).states.size :=
  (Numbering.perm_of_mem_iff fun _ => h.mem_states).length_eq

theorem subsetDfa (h : SameRules M M') :
    SubsetDfa.SameUpToOrder (M.subsetDfa keep) (M'.subsetDfa keep) := by
  have hnodup : (M.subsetDfa keep).moves.Nodup := transitions_subsetDfa.toRecorded.nodup
  have hnodup' : (M'.subsetDfa keep).moves.Nodup := transitions_subsetDfa.toRecorded.nodup
  exact {
    start := h.startSet
    states := Numbering.perm_of_mem_iff fun _ => h.mem_states
    moves := (List.perm_ext_iff_of_nodup hnodup hnodup').2 h.mem_moves
    nodup := ⟨hnodup, hnodup'⟩
    accepting := Numbering.perm_of_mem_iff fun _ => h.mem_accepting_states
    alphabet := Numbering.perm_of_mem_iff fun _ => h.mem_alphabet
    accepts := fun _ => h.accepts_subsetDfa
    table := fun hsize w => by
      rw [TableDfa.accepts_ofSubsets hsize, TableDfa.accepts_ofSubsets (h.size_states ▸ hsize),
        h.accepts_subsetDfa] }

end SameRules

/-- **Order and repetition of the rules do not matter.**  Machines with the same start state, the
same accepting states and the same rules answer all questions about their rules alike, run alike,
accept the same words, and have the same deterministic machines but for the order of states, moves
and symbols.  A bound stops both searches, with the same failure, or neither. -/
theorem indistinguishable (h : SameRules M M') :
    M.rules.Interchangeable M'.rules ∧
    (∀ S w, ((M.runFrom S).readWord w).current = ((M'.runFrom S).readWord w).current) ∧
    (∀ w, (M.run.readWord w).current = (M'.run.readWord w).current) ∧
    (∀ w, M.accepts w = M'.accepts w) ∧
    M.determinize.SameUpToOrder M'.determinize ∧
    ∀ c, SameOutcome SubsetDfa.SameUpToOrder (M.determinizeWithin c)
      (M'.determinizeWithin c) := by
  refine ⟨h.interchangeable, fun _ _ => h.current_readWord, fun _ => h.current_run_readWord,
    fun _ => h.accepts, ?_, ?_⟩
  · rw [determinize_eq, determinize_eq]
    exact h.subsetDfa
  · -- the number of states decides whether a bound is kept
    exact sameOutcome_determinizeWithin (fun _ => h.size_states) fun _ => h.subsetDfa

/-- The rules of `aPlus`, listed from the last to the first and the last one twice, make a machine
that cannot be told from `aPlus`. -/
theorem indistinguishable_aPlus :
    SameRules aPlus (ofRules 1 [2, 2] [⟨2, .silent, 1⟩, ⟨1, .ofChar 'a', 2⟩, ⟨2, .silent, 1⟩]) ∧
      aPlus.determinize.SameUpToOrder (ofRules 1 [2, 2]
        [⟨2, .silent, 1⟩, ⟨1, .ofChar 'a', 2⟩, ⟨2, .silent, 1⟩]).determinize := by
  have h : SameRules aPlus
      (ofRules 1 [2, 2] [⟨2, .silent, 1⟩, ⟨1, .ofChar 'a', 2⟩, ⟨2, .silent, 1⟩]) := by
    refine ⟨rfl, fun q => ?_, fun r => ?_⟩
    · simp [aPlus, ofRules]
    · simp only [aPlus, ofRules, RuleIndex.ofList, List.mem_cons, List.not_mem_nil]
      grind
  exact ⟨h, (indistinguishable h).2.2.2.2.1⟩

end Nfa

end Determinize
