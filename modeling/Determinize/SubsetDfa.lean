import Determinize.SubsetSearch

/-!
# The deterministic machine on sets of states

A finished search is a deterministic machine: its states are the sets found, and at most one move
leaves a set on a symbol. A missing move rejects.

## Main definitions

* `SubsetDfa` : the machine; `SubsetDfa.ofSearch` makes it from a search.
* `SubsetDfa.next?`, `SubsetDfa.walk`, `SubsetDfa.accepts` : one move, the moves of a word, and
  whether they end in an accepting set.
* `Nfa.determinize`, `Nfa.determinizeWithin` : the deterministic machine of a machine, without a
  bound or under settings.
-/

namespace Determinize

/-- A deterministic machine whose states are sets of states. -/
structure SubsetDfa where
  /-- The state the machine starts in. -/
  start : States
  /-- The states, in the order in which they were found. -/
  states : Numbering States
  /-- The moves, in the order in which they were followed. -/
  moves : List (Rule States)
  /-- The states in which a word may end, in the order in which they were found. -/
  accepting : Numbering States
  /-- The symbols that the machine may read. -/
  alphabet : Numbering Symbol
  /-- The moves as arrows between the numbers of the states. -/
  arrows : Arrows

namespace SubsetDfa

/-- The machine that a search through the sets of `M` has found. A set accepts if it has an
accepting member. -/
def ofSearch (M : Nfa) (s : Search States) : SubsetDfa where
  start := M.startSet
  states := s.found
  moves := s.moves.toList
  accepting := s.found.filter fun S => S.meets M.accepting
  alphabet := M.alphabet
  arrows := Arrows.ofRules s.found s.moves.toList

variable (D : SubsetDfa)

/-- Where the move from a set on a symbol leads, if there is one. If there are several, the last
counts. -/
def next? (S : States) (y : Symbol) : Option States := do
  let i ← D.states.number? S
  let j ← (D.arrows.targets i y).getLast?
  D.states.get? j

/-- Where a word leads from a set, if no move is missing. -/
def walk (S : States) (w : Word) : Option States := w.foldlM D.next? S

/-- Whether a word leads from the start to an accepting set. -/
def accepts (w : Word) : Bool := (D.walk D.start w).any fun S => decide (S ∈ D.accepting)

end SubsetDfa

namespace Nfa

variable (M : Nfa)

/-- The deterministic machine without the empty set, however many states it has. -/
def determinize : SubsetDfa := SubsetDfa.ofSearch M M.searchAll

/-- The deterministic machine under settings. -/
def determinizeWithin (c : Settings) : Except TooManyStates SubsetDfa :=
  match M.searchWithin c with
  | .ok s => .ok (SubsetDfa.ofSearch M s)
  | .error r => .error r.reason

end Nfa

end Determinize
