import Determinize.Numbering
import Determinize.Rule
import Determinize.Search.Record

/-!
# Breadth-first search

A search finds all states that moves lead to from its seeds. The states found are numbered as they
are found, and they are expanded in the same order: the queue of the search is the part of the
numbering that has not been expanded yet. Every state is expanded once, and its moves are recorded
then.

Before a found state is taken in for good, a gate is asked whether the search may hold that many
states. A search that its gate stops leaves its records behind, nothing else.

## Main definitions

* `Search` : a search on its way.
* `Search.Gate`, `Search.Refusal` : what may stop a search, and what is left of it then.
* `Search.seed`, `Search.reach`, `Search.follow`, `Search.expand` : the steps of a search.
* `Search.run` : expand what has been found, up to a number of expansions.
-/

namespace Determinize

/-- A search on its way through states of type `σ`. -/
structure Search (σ : Type) where
  /-- The states found, in the order in which they were found. -/
  found : Numbering σ
  /-- How many of them, from the first on, have been expanded. -/
  expanded : Nat
  /-- The moves of the expanded states, in the order in which they were followed. -/
  moves : Array (Rule σ)
  /-- What the search has reported. -/
  log : Array (Record σ)

namespace Search

/-- Tells whether a search may hold a number of states, or else why not. -/
abbrev Gate (ε : Type) := Nat → Except ε Unit

/-- The gate that lets everything pass. -/
def Gate.always : Gate Empty := fun _ => .ok ()

/-- What is left of a search that was stopped. -/
structure Refusal (ε σ : Type) where
  /-- Why it was stopped. -/
  reason : ε
  /-- What it had reported. -/
  log : Array (Record σ)

/-- A search that nothing can stop has a result. -/
def ofUnstoppable {σ : Type} : Except (Refusal Empty σ) (Search σ) → Search σ
  | .ok s => s
  | .error r => nomatch r.reason

variable {σ ε : Type}

/-- The search that has found nothing. -/
def empty : Search σ := ⟨.empty, 0, #[], #[]⟩

/-- The search with one more record. -/
def report (s : Search σ) (r : Record σ) : Search σ := { s with log := s.log.push r }

variable [DecidableEq σ] (gate : Gate ε)

/-- Number a state, and ask the gate about the states there are then. -/
def enter (s : Search σ) (a : σ) : Except (Refusal ε σ) (Search σ) :=
  let found := s.found.insert a
  match gate found.size with
  | .ok () => .ok { s with found }
  | .error reason => .error ⟨reason, s.log⟩

/-- Take in a seed. A seed that has been found already changes nothing. -/
def seed (s : Search σ) (a : σ) : Except (Refusal ε σ) (Search σ) :=
  if a ∈ s.found then .ok s else s.enter gate a

/-- Take in the target of a move, and report it, if it is new. -/
def reach (s : Search σ) (a : σ) : Except (Refusal ε σ) (Search σ) :=
  if a ∈ s.found then .ok s
  else (s.enter gate a).map fun t => t.report (.found s.found.size a)

/-- Follow a move: take in its target, then record the move. -/
def follow (s : Search σ) (r : Rule σ) : Except (Refusal ε σ) (Search σ) :=
  (s.reach gate r.target).map fun t => { t with moves := t.moves.push r }

/-- Expand the next state, whose moves are given. -/
def expand (s : Search σ) (moves : List (Rule σ)) : Except (Refusal ε σ) (Search σ) :=
  moves.foldlM (follow gate) { s with expanded := s.expanded + 1 }

/-- Expand at most `k` of the states found, those included that are found on the way. -/
def run (moves : σ → List (Rule σ)) : Nat → Search σ → Except (Refusal ε σ) (Search σ)
  | 0, s => .ok s
  | k + 1, s => match s.found.get? s.expanded with
    | none => .ok s
    | some a => do run moves k (← s.expand gate (moves a))

end Search

end Determinize
