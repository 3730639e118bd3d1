import Determinize.Search.Basic

/-!
# Settings of a search

## Main definitions

* `Settings` : how many states a search may hold, and whether it keeps the empty set.
* `TooManyStates` : a search had to hold more states than its settings allow.
* `Settings.gate` : the gate that stops a search there.
-/

namespace Determinize

/-- How a machine is to be determinized. -/
structure Settings where
  /-- The greatest number of states allowed, if there is one. -/
  bound : Option Nat := none
  /-- Whether the empty set, from which nothing is accepted, is kept as a state when it is reached.
  If it is not, the moves that lead to it are left out. -/
  keepEmpty : Bool := false
  deriving DecidableEq

namespace Settings

/-- No bound, and the empty set is left out. -/
def default : Settings := {}

/-- The same settings with a bound. -/
def withBound (c : Settings) (n : Nat) : Settings := { c with bound := some n }

/-- The same settings, the empty set kept or not. -/
def withEmpty (c : Settings) (keep : Bool) : Settings := { c with keepEmpty := keep }

/-- The settings as a record. -/
def recordText (c : Settings) : String :=
  let bound := match c.bound with
    | some n => "Some(" ++ toString n ++ ")"
    | none => "None"
  "SubsetConfig \x7b max_states: " ++ bound ++ ", keep_dead_state: " ++ toString c.keepEmpty ++
    " \x7d"

end Settings

/-- A search found more states than allowed. -/
structure TooManyStates where
  /-- The number of states found. -/
  states : Nat
  /-- The greatest number allowed. -/
  bound : Nat
  deriving DecidableEq

namespace TooManyStates

/-- What is told to the user. -/
def message (e : TooManyStates) : String :=
  "DFA state limit exceeded: " ++ toString e.states ++ " states (max: " ++ toString e.bound ++ ")"

/-- The two numbers as a record. -/
def recordText (e : TooManyStates) : String :=
  "StateLimitExceeded \x7b states: " ++ toString e.states ++ ", max: " ++ toString e.bound ++
    " \x7d"

end TooManyStates

/-- A search may hold as many states as the bound says. -/
def Settings.gate (c : Settings) : Search.Gate TooManyStates := fun n =>
  match c.bound with
  | some b => if b < n then .error ⟨n, b⟩ else .ok ()
  | none => .ok ()

end Determinize
