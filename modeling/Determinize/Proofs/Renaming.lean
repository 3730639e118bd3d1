import Determinize.Proofs.Language
import Determinize.Proofs.Search.Rename
import Mathlib.Logic.Equiv.Basic

/-!
# The names of states and symbols

States and symbols are numbers, but nothing is computed with them: they are names.  If all states
and symbols of a machine get new names, different ones for different ones, and the silent symbol
keeps its own, then the machine accepts the renamed words, a search finds the renamed sets in the
same order, and the table of the deterministic machine stays as it is but for the names of its
columns (`Nfa.renaming_invariant`).

A set lists its members in ascending order, which is another order after renaming.  This does not
show, because the search gets to see a set only through its successors, and these are described by
paths (`Nfa.current_readWord_rename`).
-/

namespace Determinize

open Search

/-- New names for states and symbols. -/
structure Renaming where
  /-- The new names of the states, different ones for different states. -/
  state : State ↪ State
  /-- The new names of the symbols, different ones for different symbols. -/
  symbol : Symbol ↪ Symbol
  /-- The silent symbol keeps its name. -/
  symbol_silent : symbol .silent = .silent

namespace States

variable {f : State ↪ State} {S T : States} {a b : State}

/-- The set of the images of the members. -/
def map (f : State ↪ State) (S : States) : States := ofList (S.toList.map f)

@[simp] theorem mem_map : b ∈ S.map f ↔ ∃ a ∈ S, f a = b := by simp [map]

theorem apply_mem_map : f a ∈ S.map f ↔ a ∈ S := by
  rw [mem_map]
  exact ⟨fun ⟨c, hc, hca⟩ => f.injective hca ▸ hc, fun ha => ⟨a, ha, rfl⟩⟩

theorem map_injective : Function.Injective (map f) := by
  intro S T hST
  refine ext fun a => ?_
  rw [← apply_mem_map (f := f), hST, apply_mem_map]

theorem isEmpty_map : (S.map f).isEmpty = S.isEmpty := by
  have hempty : map f empty = empty := rfl
  have hiff : S.map f = map f empty ↔ S = empty := map_injective.eq_iff
  rw [Bool.eq_iff_iff, isEmpty_iff, isEmpty_iff, ← hiff, hempty]

theorem meets_map : (S.map f).meets (T.map f) = S.meets T := by
  rw [Bool.eq_iff_iff, meets_iff, meets_iff]
  constructor
  · rintro ⟨b, hS, hT⟩
    obtain ⟨a, ha, rfl⟩ := mem_map.1 hS
    exact ⟨a, ha, apply_mem_map.1 hT⟩
  · rintro ⟨a, hS, hT⟩
    exact ⟨f a, apply_mem_map.2 hS, apply_mem_map.2 hT⟩

end States

namespace Renaming

variable {ρ : Renaming} {y : Symbol} {rules : List (Rule State)} {s t : State} {w : Word}

/-- Two states change places, and so do two symbols that are not silent. -/
def swap (s t : State) (y z : Symbol) (hy : y ≠ .silent) (hz : z ≠ .silent) : Renaming where
  state := (Equiv.swap s t).toEmbedding
  symbol := (Equiv.swap y z).toEmbedding
  symbol_silent := Equiv.swap_apply_of_ne_of_ne hy.symm hz.symm

/-- The state 1 and the greatest state change places, and so do the letters `a` and `b`. -/
def crossed : Renaming :=
  swap 1 4294967295 (.ofChar 'a') (.ofChar 'b') (Symbol.ofChar_ne_silent 'a')
    (Symbol.ofChar_ne_silent 'b')

/-- The new names of sets: every member gets its new name. -/
def sets (ρ : Renaming) : States ↪ States := ⟨States.map ρ.state, States.map_injective⟩

/-- The rule between states under its new names. -/
def rule (ρ : Renaming) : Rule State → Rule State := Rule.map ρ.state ρ.symbol

/-- The rule between sets under its new names. -/
def setRule (ρ : Renaming) : Rule States → Rule States := Rule.map ρ.sets ρ.symbol

theorem symbol_eq_silent_iff : ρ.symbol y = .silent ↔ y = .silent := by
  conv_lhs => rw [← ρ.symbol_silent]
  exact ρ.symbol.injective.eq_iff

/-! ### Paths -/

theorem path_map (h : Path rules s w t) :
    Path (rules.map ρ.rule) (ρ.state s) (w.map ρ.symbol) (ρ.state t) := by
  induction h with
  | stop s => exact .stop _
  | @silent r w t mem silent _ ih =>
    have hsilent : (ρ.rule r).symbol = .silent := symbol_eq_silent_iff.2 silent
    exact .silent (List.mem_map_of_mem mem) hsilent ih
  | @letter r w t mem _ ih => exact .letter (List.mem_map_of_mem (f := ρ.rule) mem) ih

/-- Every path under new names is a path under its new names. -/
theorem exists_path_of_map {s' t' : State} {w' : Word} (h : Path (rules.map ρ.rule) s' w' t') :
    ∀ s w, ρ.state s = s' → w.map ρ.symbol = w' → ∃ t, Path rules s w t ∧ ρ.state t = t' := by
  induction h with
  | stop s' =>
    intro s w hs hw
    exact ⟨s, List.map_eq_nil_iff.1 hw ▸ .stop s, hs⟩
  | silent mem silent _ ih =>
    intro s w hs hw
    obtain ⟨r, hr, rfl⟩ := List.mem_map.1 mem
    obtain rfl : s = r.source := ρ.state.injective hs
    obtain ⟨t, hp, ht⟩ := ih r.target w rfl hw
    exact ⟨t, .silent hr (symbol_eq_silent_iff.1 silent) hp, ht⟩
  | letter mem _ ih =>
    intro s w hs hw
    obtain ⟨r, hr, rfl⟩ := List.mem_map.1 mem
    obtain rfl : s = r.source := ρ.state.injective hs
    obtain ⟨y, x, rfl, hy, hx⟩ := List.map_eq_cons_iff.1 hw
    obtain rfl : y = r.symbol := ρ.symbol.injective hy
    obtain ⟨t, hp, ht⟩ := ih r.target x rfl hx
    exact ⟨t, .letter hr hp, ht⟩

end Renaming

namespace RuleIndex

variable {ρ : Renaming} {R : RuleIndex}

theorem nodes_rename : (ofList (R.rules.map ρ.rule)).nodes = R.nodes.map ρ.state := by
  have hends : endpoints (R.rules.map ρ.rule) = (endpoints R.rules).map ρ.state := by
    rw [endpoints, endpoints, List.flatMap_map, List.map_flatMap]
    rfl
  rw [R.nodes_eq, ← Numbering.ofList_map, ← hends]
  rfl

theorem alphabet_rename : (ofList (R.rules.map ρ.rule)).alphabet = R.alphabet.map ρ.symbol := by
  have hsilent : (fun r : Rule State => !r.isSilent) ∘ ρ.rule = fun r => !r.isSilent := by
    funext r
    exact congrArg (! ·) (decide_eq_decide.2 Renaming.symbol_eq_silent_iff)
  have hletters : letters (R.rules.map ρ.rule) = (letters R.rules).map ρ.symbol := by
    rw [letters, letters, List.filter_map, hsilent, List.map_map, List.map_map]
    rfl
  rw [R.alphabet_eq, ← Numbering.ofList_map, ← hletters]
  rfl

end RuleIndex

namespace Nfa

/-- The machine with new names for its states and symbols. -/
def rename (ρ : Renaming) (M : Nfa) : Nfa :=
  ofRules (ρ.state M.start) (M.accepting.toList.map ρ.state) (M.rules.rules.map ρ.rule)

variable {ρ : Renaming} {M : Nfa} {S : States} {w : Word} {y : Symbol} {keep : Bool}
  {seeds : List States}

/-! ### Runs -/

/-- The renamed machine reads the renamed word and is in the renamed states. -/
theorem current_readWord_rename :
    (((M.rename ρ).runFrom (ρ.sets S)).readWord (w.map ρ.symbol)).current =
      ρ.sets ((M.runFrom S).readWord w).current := by
  refine States.ext fun t' => ?_
  rw [mem_current_readWord]
  refine Iff.trans ?_ States.mem_map.symm
  constructor
  · rintro ⟨s', hs', hp⟩
    obtain ⟨s, hs, rfl⟩ := States.mem_map.1 hs'
    obtain ⟨t, hp, ht⟩ := Renaming.exists_path_of_map hp s w rfl rfl
    exact ⟨t, mem_current_readWord.2 ⟨s, hs, hp⟩, ht⟩
  · rintro ⟨t, ht, rfl⟩
    obtain ⟨s, hs, hp⟩ := mem_current_readWord.1 ht
    exact ⟨ρ.state s, States.apply_mem_map.2 hs, Renaming.path_map hp⟩

theorem current_run_readWord_rename :
    ((M.rename ρ).run.readWord (w.map ρ.symbol)).current = ρ.sets (M.run.readWord w).current :=
  current_readWord_rename (S := .singleton M.start)

theorem accepts_rename : (M.rename ρ).accepts (w.map ρ.symbol) = M.accepts w := by
  rw [accepts, Run.isAccepting, current_run_readWord_rename]
  exact States.meets_map

/-! ### Searches -/

theorem startSet_rename : (M.rename ρ).startSet = ρ.sets M.startSet :=
  current_run_readWord_rename (w := [])

theorem successor_rename :
    (M.rename ρ).successor (ρ.sets S) (ρ.symbol y) = ρ.sets (M.successor S y) :=
  current_readWord_rename (w := [y])

theorem alphabet_rename : (M.rename ρ).alphabet = M.alphabet.map ρ.symbol :=
  RuleIndex.alphabet_rename

theorem movesFrom_rename :
    (M.rename ρ).movesFrom (ρ.sets S) = (M.movesFrom S).map ρ.setRule := by
  rw [movesFrom_eq, movesFrom_eq, alphabet_rename, Numbering.toList_map, List.map_map, List.map_map]
  refine List.map_congr_left fun z _ => ?_
  rw [Function.comp_apply, successor_rename]
  rfl

theorem keptMoves_rename :
    (M.rename ρ).keptMoves keep (ρ.sets S) = (M.keptMoves keep S).map ρ.setRule := by
  have hkept : (fun r : Rule States => keep || !r.target.isEmpty) ∘ ρ.setRule =
      fun r => keep || !r.target.isEmpty := by
    funext r
    exact congrArg (keep || !·) States.isEmpty_map
  rw [keptMoves, movesFrom_rename, List.filter_map, hkept, keptMoves]

theorem searchSpace_rename :
    (M.rename ρ).searchSpace (seeds.map ρ.sets) = M.searchSpace seeds := by
  have hnodes : (M.rename ρ).rules.nodes = M.rules.nodes.map ρ.state := RuleIndex.nodes_rename
  rw [searchSpace, hnodes, Numbering.size_map, List.length_map, searchSpace]

/-- The renamed machine is searched as the machine itself. -/
theorem renamed_freeSearch :
    Renamed ρ.sets ρ.symbol (M.freeSearch keep seeds)
      ((M.rename ρ).freeSearch keep (seeds.map ρ.sets)) := by
  have hseeds : Renamed ρ.sets ρ.symbol (seeds.foldl Free.seed Search.empty)
      ((seeds.map ρ.sets).foldl Free.seed Search.empty) := by
    rw [foldl_seed, foldl_seed]
    exact ⟨Numbering.foldl_insert_map (v := .empty), rfl, rfl⟩
  have hmoves : ∀ S, (M.rename ρ).keptMoves keep (ρ.sets S) =
      (M.keptMoves keep S).map (Rule.map ρ.sets ρ.symbol) := fun _ => keptMoves_rename
  rw [freeSearch, freeSearch, searchSpace_rename]
  exact ((hseeds.report _ _).run hmoves _).report _ _

end Nfa

/-! ### Deterministic machines -/

/-- The deterministic machine `D'` is `D` with new names for states and symbols; everything is
listed in the same order. -/
structure SubsetDfa.Renamed (ρ : Renaming) (D D' : SubsetDfa) : Prop where
  /-- The start. -/
  start : D'.start = ρ.sets D.start
  /-- The states. -/
  states : D'.states = D.states.map ρ.sets
  /-- The moves. -/
  moves : D'.moves = D.moves.map ρ.setRule
  /-- The accepting states. -/
  accepting : D'.accepting = D.accepting.map ρ.sets
  /-- The symbols. -/
  alphabet : D'.alphabet = D.alphabet.map ρ.symbol

/-- The table `T'` is `T` with new names for its columns. -/
structure TableDfa.Renamed (ρ : Renaming) (T T' : TableDfa) : Prop where
  /-- There are as many states. -/
  size : T'.size = T.size
  /-- The same numbers accept. -/
  isAccepting : ∀ i, T'.isAccepting i = T.isAccepting i
  /-- They are listed alike. -/
  acceptingStates : T'.acceptingStates = T.acceptingStates
  /-- The moves are the same, and in the same order, but for the names of the symbols. -/
  entries : T'.entries = T.entries.map (Rule.map id ρ.symbol)

namespace TableDfa

variable {ρ : Renaming} {D D' : SubsetDfa} {states : Numbering States}
  {alphabet : Numbering Symbol} {cells : Array (Option State)} {l : List (Rule States)}

theorem foldl_fill_rename :
    (l.map ρ.setRule).foldl (fill (states.map ρ.sets) (alphabet.map ρ.symbol)) cells =
      l.foldl (fill states alphabet) cells := by
  have hfill : ∀ cells r, fill (states.map ρ.sets) (alphabet.map ρ.symbol) cells (ρ.setRule r) =
      fill states alphabet cells r := by
    intro cells r
    simp only [fill, Renaming.setRule, Rule.map, Numbering.number?_map, Numbering.size_map]
  rw [List.foldl_map]
  congr 1
  funext cells r
  exact hfill cells r

theorem cells_of_renamed (h : SubsetDfa.Renamed ρ D D') :
    (ofSubsets D').cells = (ofSubsets D).cells := by
  simp only [ofSubsets, h.states, h.moves, h.alphabet, foldl_fill_rename, Numbering.size_map]

theorem accepting_of_renamed (h : SubsetDfa.Renamed ρ D D') :
    (ofSubsets D').accepting = (ofSubsets D).accepting := by
  simp only [ofSubsets, h.states, h.accepting, Numbering.toList_map, Numbering.mask_map]

theorem size_of_renamed (h : SubsetDfa.Renamed ρ D D') :
    (ofSubsets D').size = (ofSubsets D).size := by
  rw [size_ofSubsets, size_ofSubsets, h.states, Numbering.size_map]

/-- A filled cell tells the same move, its symbol under the new name. -/
theorem entry?_of_alphabet {T T' : TableDfa} (h : T'.alphabet = T.alphabet.map ρ.symbol) (n : ℕ)
    (cell : Option State) :
    T'.entry? n cell = Rule.map id ρ.symbol <$> T.entry? n cell := by
  simp only [h, entry?, Numbering.get?_map, Numbering.size_map]
  cases cell with
  | none => rfl
  | some v => cases T.alphabet.get? (n % T.alphabet.size) <;> rfl

theorem renamed_ofSubsets (h : SubsetDfa.Renamed ρ D D') :
    Renamed ρ (ofSubsets D) (ofSubsets D') where
  size := size_of_renamed h
  isAccepting i := by rw [isAccepting, isAccepting, accepting_of_renamed h]
  acceptingStates := by
    rw [acceptingStates, acceptingStates, accepting_of_renamed h, size_of_renamed h]
  entries := by
    have halphabet : (ofSubsets D').alphabet = (ofSubsets D).alphabet.map ρ.symbol := h.alphabet
    rw [entries, entries, cells_of_renamed h, List.map_filterMap]
    exact List.filterMap_congr fun p _ => entry?_of_alphabet halphabet p.2 p.1

end TableDfa

namespace Nfa

variable {ρ : Renaming} {M : Nfa} {keep : Bool}

theorem renamed_subsetDfa :
    SubsetDfa.Renamed ρ (M.subsetDfa keep) ((M.rename ρ).subsetDfa keep) := by
  have hsearch : Renamed ρ.sets ρ.symbol (M.freeSearch keep [M.startSet])
      ((M.rename ρ).freeSearch keep [(M.rename ρ).startSet]) := by
    rw [startSet_rename]
    exact renamed_freeSearch
  refine ⟨startSet_rename, hsearch.found, hsearch.moves, ?_, alphabet_rename⟩
  change Numbering.filter _ ((M.rename ρ).freeSearch keep [(M.rename ρ).startSet]).found = _
  rw [hsearch.found]
  exact Numbering.filter_map fun _ => States.meets_map

theorem size_states_rename :
    (M.subsetDfa keep).states.size = ((M.rename ρ).subsetDfa keep).states.size := by
  rw [renamed_subsetDfa.states, Numbering.size_map]

/-- **Names do not matter.**  A machine with new names accepts the words with new names that the
machine accepts.  Determinizing it gives the same failure or the same result under new names, with
states, moves and symbols in the same order, and the table of the result has the same numbers of
states, the same accepting numbers and the same moves under the new names of the symbols. -/
theorem renaming_invariant (ρ : Renaming) (M : Nfa) :
    (∀ w, (M.rename ρ).accepts (w.map ρ.symbol) = M.accepts w) ∧
    SubsetDfa.Renamed ρ M.determinize (M.rename ρ).determinize ∧
    TableDfa.Renamed ρ M.table (M.rename ρ).table ∧
    ∀ c, SameOutcome (fun D D' => SubsetDfa.Renamed ρ D D' ∧
        TableDfa.Renamed ρ (TableDfa.ofSubsets D) (TableDfa.ofSubsets D'))
      (M.determinizeWithin c) ((M.rename ρ).determinizeWithin c) := by
  refine ⟨fun _ => accepts_rename, ?_, ?_, ?_⟩
  · rw [determinize_eq, determinize_eq]
    exact renamed_subsetDfa
  · rw [table, table, determinize_eq, determinize_eq]
    exact TableDfa.renamed_ofSubsets renamed_subsetDfa
  · refine sameOutcome_determinizeWithin (fun _ => size_states_rename) fun _ => ?_
    exact ⟨renamed_subsetDfa, TableDfa.renamed_ofSubsets renamed_subsetDfa⟩

/-- If the state 1 changes places with the greatest state and `a` with `b`, then `aPlus` accepts
`bb`, and its sets are found in the same order, though their members are listed in another. -/
theorem renaming_invariant_aPlus :
    (aPlus.rename .crossed).accepts (Word.ofString "bb") = true ∧
      aPlus.determinize.states.toList = [.ofList [1], .ofList [1, 2]] ∧
      (aPlus.rename .crossed).determinize.states.toList =
        [.ofList [4294967295], .ofList [2, 4294967295]] := by
  obtain ⟨haccepts, hdeterminize, -⟩ := renaming_invariant .crossed aPlus
  have hword : (Word.ofString "aa").map Renaming.crossed.symbol = Word.ofString "bb" := by
    decide +kernel
  have haa : aPlus.accepts (Word.ofString "aa") = true := by decide +kernel
  have hbb := (haccepts (Word.ofString "aa")).trans haa
  rw [hword] at hbb
  refine ⟨hbb, by decide +kernel, ?_⟩
  rw [hdeterminize.states]
  decide +kernel

end Nfa

end Determinize
