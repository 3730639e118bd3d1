import Determinize.Nfa
import Determinize.Search.Settings
import Determinize.States.Text

/-!
# Searching the sets of states of a machine

Reading symbols leads a machine from one set of states to another. The search finds all sets that
can be reached from given ones, with the moves between them.

## Main definitions

* `Nfa.keptMoves` : the moves of a set, with or without those into the empty set.
* `Nfa.search` : the search from given sets under a gate.
* `Nfa.searchFrom` : the search from given sets that nothing stops and that keeps the empty set.
* `Nfa.searchAll`, `Nfa.searchWithin` : the search from the closure of the start state, without a
  bound or under settings.

The sets found beyond the seeds consist of states that the rules mention, so a search finds at most
`Nfa.searchSpace` sets, and that many expansions bring it to its end.
-/

namespace Determinize

namespace Nfa

variable (M : Nfa)

/-- The moves of a set that are followed: those into the empty set only if it is kept. -/
def keptMoves (keepEmpty : Bool) (S : States) : List (Rule States) :=
  (M.movesFrom S).filter fun r => keepEmpty || !r.target.isEmpty

/-- How many sets a search can find: the seeds, and the sets of states that rules mention. -/
def searchSpace (seeds : List States) : Nat := Nat.pow 2 M.rules.nodes.size + seeds.length

/-- Search from seeds, which are taken as they are. -/
def search {ε : Type} (gate : Search.Gate ε) (keepEmpty : Bool) (seeds : List States) :
    Except (Search.Refusal ε States) (Search States) := do
  let s ← seeds.foldlM (Search.seed gate) Search.empty
  let s := s.report (.seeded s.found.size M.alphabet.size)
  let s ← s.run gate (M.keptMoves keepEmpty) (M.searchSpace seeds)
  return s.report (.finished s.found.size s.moves.size)

/-- Search from seeds without a bound; the empty set is kept. -/
def searchFrom (seeds : List States) : Search States :=
  Search.ofUnstoppable (M.search .always true seeds)

/-- The closure of the start state. -/
def startSet : States := M.rules.closure (States.singleton M.start)

/-- Search from the closure of the start state without a bound; the empty set is left out. -/
def searchAll : Search States :=
  Search.ofUnstoppable (M.search .always Settings.default.keepEmpty [M.startSet])

/-- Search from the closure of the start state under settings. -/
def searchWithin (c : Settings) : Except (Search.Refusal TooManyStates States) (Search States) :=
  M.search c.gate c.keepEmpty [M.startSet]

end Nfa

end Determinize
