import Determinize.SubsetDfa

/-!
# The deterministic machine as a table

The states of a deterministic machine can be replaced by their numbers, and its moves by a table
with a row for each state and a column for each symbol of the alphabet. The rows follow one another
in one array, so the cell of state `s` and column `c` is `s * width + c`.

## Main definitions

* `TableDfa` : the table; `TableDfa.ofSubsets` fills it from a `SubsetDfa`.
* `TableDfa.next?`, `TableDfa.walk`, `TableDfa.accepts` : as for a `SubsetDfa`, on numbers.
* `TableDfa.entries` : all filled cells.

States are 32-bit numbers here; a table with more rows has no name for the rows beyond.
-/

namespace Determinize

/-- A deterministic machine with numbered states. -/
structure TableDfa where
  /-- The set of states that each number stands for. -/
  subsets : Array States
  /-- The numbers of the accepting states. -/
  accepting : Mask
  /-- The symbols, one for each column. -/
  alphabet : Numbering Symbol
  /-- The cells, row by row; an empty cell rejects. -/
  cells : Array (Option State)

namespace TableDfa

/-- Write a move into its cell. -/
def fill (states : Numbering States) (alphabet : Numbering Symbol) (cells : Array (Option State))
    (r : Rule States) : Array (Option State) :=
  match states.number? r.source, alphabet.number? r.symbol, states.number? r.target with
  | some i, some c, some j =>
    cells.setIfInBounds (i * alphabet.size + c) (some (UInt32.ofNat j))
  | _, _, _ => cells

/-- The table of a machine on sets, the sets numbered in the order in which they were found. -/
def ofSubsets (D : SubsetDfa) : TableDfa where
  subsets := D.states.toList.toArray
  accepting := D.states.mask D.accepting.toList
  alphabet := D.alphabet
  cells := D.moves.foldl (fill D.states D.alphabet)
    (Array.replicate (D.states.size * D.alphabet.size) none)

variable (T : TableDfa)

/-- The number of states. -/
def size : Nat := T.subsets.size

/-- The start state was found first. -/
def start : State := 0

/-- The set of states that a number stands for. -/
def subset? (s : State) : Option States := T.subsets[s.toNat]?

/-- Whether a word may end in a state. -/
def isAccepting (s : State) : Bool := s.toNat ∈ T.accepting

/-- The states in which a word may end, in ascending order. -/
def acceptingStates : List State := (T.accepting.members T.size).map UInt32.ofNat

/-- Where the move from a state on a symbol leads, if there is one. -/
def next? (s : State) (y : Symbol) : Option State := do
  let c ← T.alphabet.number? y
  (T.cells[s.toNat * T.alphabet.size + c]?).join

/-- The move in a cell, if the cell is filled. -/
def entry? (n : Nat) (cell : Option State) : Option (Rule State) := do
  let target ← cell
  let symbol ← T.alphabet.get? (n % T.alphabet.size)
  some ⟨UInt32.ofNat (n / T.alphabet.size), symbol, target⟩

/-- The moves in the filled cells, cell by cell. -/
def entries : List (Rule State) :=
  T.cells.toList.zipIdx.filterMap fun p => T.entry? p.2 p.1

/-- Where a word leads from a state, if no move is missing. -/
def walk (s : State) (w : Word) : Option State := w.foldlM T.next? s

/-- Whether a word leads from the start to an accepting state. A table without states has no start
and accepts nothing. -/
def accepts (w : Word) : Bool :=
  if T.subsets.isEmpty then false else (T.walk start w).any T.isAccepting

end TableDfa

/-- The table of the machine without the empty set. -/
def Nfa.table (M : Nfa) : TableDfa := TableDfa.ofSubsets M.determinize

end Determinize
