import Determinize.TableDfa

/-!
# Steps that can fail

Numbers have no bounds in this library, but those of a computer have: an index is a word of 64 bits,
a state one of 32, and a set of numbers may have been made for numbers below a capacity only. The
steps for which this matters are written here once more, so that they fail where something does not
fit, and tell why.

## Main definitions

* `Checked.Fault` : what can go wrong.
* `Checked.mul`, `Checked.add`, `Checked.pred`, `Checked.divMod`, `Checked.state`,
  `Checked.insert` : arithmetic on words, the state of a number, and one member more.
* `Checked.arrows`, `Checked.encode` : the arrows of rules, and the numbers of a set of states.
* `Checked.cell`, `Checked.table` : the number of a cell, and the table of a deterministic machine.
* `Checked.next?`, `Checked.entries`, `Checked.acceptingStates` : what can be asked of a table.
-/

namespace Determinize

namespace Checked

/-- Why a step fails. -/
inductive Fault where
  /-- A set has no room for a number. -/
  | capacity
  /-- A result is negative or has more than 64 bits. -/
  | overflow
  /-- A number has more than the 32 bits of a state. -/
  | narrowing
  /-- Something is divided by zero. -/
  | division
  /-- An index lies outside its array. -/
  | index
  deriving DecidableEq

/-- The number itself, if it is below a bound. -/
def below (bound : Nat) (fault : Fault) (n : Nat) : Except Fault Nat :=
  if n < bound then .ok n else .error fault

/-- The product of two words. -/
def mul (a b : Nat) : Except Fault Nat := below UInt64.size .overflow (a * b)

/-- The sum of two words. -/
def add (a b : Nat) : Except Fault Nat := below UInt64.size .overflow (a + b)

/-- The number before a number. -/
def pred (n : Nat) : Except Fault Nat := if n = 0 then .error .overflow else .ok (n - 1)

/-- Quotient and remainder. -/
def divMod (n d : Nat) : Except Fault (Nat × Nat) :=
  if d = 0 then .error .division else .ok (n / d, n % d)

/-- The state that a number names. -/
def state (n : Nat) : Except Fault State := (below UInt32.size .narrowing n).map UInt32.ofNat

/-- One member more in a mask with room for the numbers below a capacity. -/
def insert (capacity : Nat) (m : Mask) (i : Nat) : Except Fault Mask :=
  (below capacity .capacity i).map m.insert

/-- The mask of the numbers of a list, made with room for the numbers below a capacity. -/
def mask (capacity : Nat) (l : List Nat) : Except Fault Mask :=
  l.foldlM (insert capacity) .empty

/-! ### The index of rules -/

/-- Put a rule's arrow in front of its row. Targets are kept in sets with room for all numbers. -/
def addArrow {σ : Type} [DecidableEq σ] (nodes : Numbering σ) (r : Rule σ) (A : Arrows) :
    Except Fault Arrows :=
  match nodes.number? r.source, nodes.number? r.target with
  | some i, some j => do
    let j ← below nodes.size .capacity j
    return ⟨A.rows.modify i fun row => (r.symbol, j) :: row⟩
  | _, _ => .ok A

/-- The arrows of rules. -/
def arrows {σ : Type} [DecidableEq σ] (nodes : Numbering σ) (rules : List (Rule σ)) :
    Except Fault Arrows :=
  rules.foldrM (addArrow nodes) (Arrows.empty nodes.size)

/-- The numbers of the members of a set of states, in a mask with room for all states of rules. -/
def encode (R : RuleIndex) (S : States) : Except Fault Mask :=
  mask R.nodes.size (S.toList.filterMap R.nodes.number?)

/-! ### The table -/

/-- The number of the cell in a row and a column. -/
def cell (width row column : Nat) : Except Fault Nat := do
  let first ← mul row width
  add first column

/-- Write a move into its cell. -/
def fill (states : Numbering States) (alphabet : Numbering Symbol) (cells : Array (Option State))
    (r : Rule States) : Except Fault (Array (Option State)) :=
  match states.number? r.source, alphabet.number? r.symbol, states.number? r.target with
  | some i, some c, some j => do
    let n ← cell alphabet.size i c
    let n ← below cells.size .index n
    let target ← state j
    return cells.setIfInBounds n (some target)
  | _, _, _ => .ok cells

/-- The table of a machine on sets. -/
def table (D : SubsetDfa) : Except Fault TableDfa := do
  let accepting ← mask D.states.size (D.accepting.toList.filterMap D.states.number?)
  let count ← mul D.states.size D.alphabet.size
  let cells ← D.moves.foldlM (fill D.states D.alphabet) (Array.replicate count none)
  return { subsets := D.states.toList.toArray, accepting, alphabet := D.alphabet, cells }

variable (T : TableDfa)

/-- Where the move from a state on a symbol leads, if there is one. -/
def next? (s : State) (y : Symbol) : Except Fault (Option State) :=
  match T.alphabet.number? y with
  | some c => do
    let n ← cell T.alphabet.size s.toNat c
    return (T.cells[n]?).join
  | none => .ok none

/-- The move in a cell, if the cell is filled. -/
def entry? (n : Nat) (cell : Option State) : Except Fault (Option (Rule State)) :=
  match cell with
  | some target => do
    let (row, column) ← divMod n T.alphabet.size
    match T.alphabet.get? column with
    | some symbol =>
      let source ← state row
      return some ⟨source, symbol, target⟩
    | none => return none
  | none => .ok none

/-- The moves in the filled cells, cell by cell. -/
def entries : Except Fault (List (Rule State)) := do
  let found ← T.cells.toList.zipIdx.mapM fun p => entry? T p.2 p.1
  return found.filterMap id

/-- The states in which a word may end, in ascending order. -/
def acceptingStates : Except Fault (List State) := (T.accepting.members T.size).mapM state

end Checked

end Determinize
