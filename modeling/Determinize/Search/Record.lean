/-!
# Records of a search

A search tells its story in records: how many seeds it starts from, each state it finds, and what it
has in the end.

## Main definitions

* `Record` : what a search reports.
* `Record.level`, `Record.text` : how much a record matters, and its wording.
-/

namespace Determinize

/-- How much a record matters. -/
inductive Level where
  /-- Worth knowing when something is to be understood. -/
  | debug
  /-- A single step. -/
  | trace
  deriving DecidableEq

/-- The name of a level. -/
def Level.name : Level → String
  | debug => "DEBUG"
  | trace => "TRACE"

/-- What a search through states of type `σ` reports. -/
inductive Record (σ : Type) where
  /-- The search starts from this many distinct seeds, over an alphabet of this size. -/
  | seeded (seeds letters : Nat)
  /-- A new state has been found and has got this number. -/
  | found (number : Nat) (state : σ)
  /-- The search is over, with this many states and moves. -/
  | finished (states moves : Nat)
  deriving DecidableEq

namespace Record

variable {σ : Type}

/-- Beginning and end are worth knowing, a single state is a step. -/
def level : Record σ → Level
  | seeded .. => .debug
  | found .. => .trace
  | finished .. => .debug

/-- The wording of a record. -/
def text [ToString σ] : Record σ → String
  | seeded s n =>
    "subset construction: " ++ toString s ++ " seed state(s), alphabet of " ++ toString n
  | found i S => "discovered DFA state #" ++ toString i ++ ": " ++ toString S
  | finished n m =>
    "subset construction: " ++ toString n ++ " state(s), " ++ toString m ++ " rule(s)"

end Record

end Determinize
