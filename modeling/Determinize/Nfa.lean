import Determinize.RuleIndex.Closure

/-!
# Machines with silent moves

A nondeterministic machine has a start state, accepting states and rules, some of which may be
silent moves. It is run by keeping the set of the states it may be in, closed under silent moves.

## Main definitions

* `Nfa` : the machine.
* `Nfa.Run` : the machine in the middle of a word; `Nfa.run` begins at the start state,
  `Nfa.runFrom` at any set of states.
* `Nfa.Run.read`, `Nfa.Run.readWord` : read on.
* `Nfa.accepts` : whether the machine can end a word in an accepting state.
* `Nfa.successor`, `Nfa.movesFrom` : how a set of states moves on the symbols of the alphabet.
-/

namespace Determinize

/-- A nondeterministic machine with silent moves. -/
structure Nfa where
  /-- The state the machine starts in. -/
  start : State
  /-- The states in which a word may end. -/
  accepting : States
  /-- The moves. -/
  rules : RuleIndex

namespace Nfa

/-- The machine with the given rules. -/
def ofRules (start : State) (accepting : List State) (rules : List (Rule State)) : Nfa :=
  ⟨start, States.ofList accepting, RuleIndex.ofList rules⟩

/-- A run of machine `M`: the states it may be in after what it has read. -/
structure Run (M : Nfa) where
  /-- The states the machine may be in. -/
  current : States

variable (M : Nfa)

/-- The symbols that the machine's rules read. -/
def alphabet : Numbering Symbol := M.rules.alphabet

/-- The run that begins in the closure of a set. -/
def runFrom (S : States) : Run M := ⟨M.rules.closure S⟩

/-- The run that begins in the closure of the start state. -/
def run : Run M := M.runFrom (States.singleton M.start)

namespace Run

variable {M} (ρ : Run M)

/-- Read a symbol: take one rule on it, then silent moves. The silent symbol is read like any
other, so it asks for a silent move. -/
def read (y : Symbol) : Run M := ⟨M.rules.closure (M.rules.image ρ.current y)⟩

/-- Read the symbols of a word in order. -/
def readWord (w : Word) : Run M := w.foldl read ρ

/-- Whether the machine may be in an accepting state. -/
def isAccepting : Bool := ρ.current.meets M.accepting

/-- Whether no state is left, so that nothing read from here on is accepted. -/
def isDead : Bool := ρ.current.isEmpty

end Run

/-- Whether the machine accepts a word. -/
def accepts (w : Word) : Bool := (M.run.readWord w).isAccepting

/-! ### Moves between sets of states -/

/-- The closed set in which the machine may be after reading a symbol from a set of states. -/
def successor (S : States) (y : Symbol) : States := ((M.runFrom S).read y).current

/-- The moves of a set of states, one for each symbol of the alphabet. -/
def movesFrom (S : States) : List (Rule States) :=
  let ρ := M.runFrom S
  M.alphabet.toList.map fun y => ⟨S, y, (ρ.read y).current⟩

end Nfa

end Determinize
