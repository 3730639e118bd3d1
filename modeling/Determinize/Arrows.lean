import Determinize.Numbering
import Determinize.Rule

/-!
# Arrows between numbers

Rules between numbered states, sorted by source: row `i` holds the labelled arrows that leave the
state with number `i`, so that the moves of a state are found without looking through all rules.

## Main definitions

* `Arrows` : a row of labelled arrows for every number.
* `Arrows.ofRules` : the arrows of a list of rules, under a numbering of the states.
* `Arrows.targets` : where the arrows of a number on a symbol lead.
-/

namespace Determinize

/-- For every number, the arrows that leave it. -/
structure Arrows where
  /-- Row `i` lists symbol and target of each arrow from `i`. -/
  rows : Array (List (Symbol × Nat))

namespace Arrows

variable {σ : Type} [DecidableEq σ]

/-- No arrows among the numbers below `n`. -/
def empty (n : Nat) : Arrows := ⟨Array.replicate n []⟩

/-- Put a rule's arrow in front of its row; a rule whose ends have no numbers has no arrow. -/
def add (nodes : Numbering σ) (r : Rule σ) (A : Arrows) : Arrows :=
  match nodes.number? r.source, nodes.number? r.target with
  | some i, some j => ⟨A.rows.modify i fun row => (r.symbol, j) :: row⟩
  | _, _ => A

/-- The arrows of the rules, in the order of the rules within each row. -/
def ofRules (nodes : Numbering σ) (rules : List (Rule σ)) : Arrows :=
  rules.foldr (add nodes) (empty nodes.size)

/-- Where the arrows from `i` on symbol `y` lead. -/
def targets (A : Arrows) (i : Nat) (y : Symbol) : List Nat :=
  (A.rows[i]?.getD []).filterMap fun arrow => if arrow.1 = y then some arrow.2 else none

end Arrows

end Determinize
