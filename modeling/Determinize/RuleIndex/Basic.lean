import Determinize.Arrows
import Determinize.States.Basic

/-!
# Indexed lists of rules

A list of rules between states, kept together with what makes moves fast to find: a numbering of
its states, its alphabet, and the rows of its arrows. All three are functions of the rules, and the
type says so.

## Main definitions

* `RuleIndex` : rules with their index; `RuleIndex.ofList` builds it.
* `RuleIndex.rulesFrom` : the rules from a state on a symbol, found by looking at all rules.
* `RuleIndex.targets` : the states these rules lead to, found in the index.
* `RuleIndex.image` : the states one move away from a set of states.

A set of states is moved as a whole: `RuleIndex.encode` turns it into the mask of its numbers,
`RuleIndex.step` moves the mask along the arrows, and `RuleIndex.decode` turns it back.
-/

namespace Determinize

/-- The states at the ends of rules, source before target, rule by rule. -/
def endpoints (rules : List (Rule State)) : List State :=
  rules.flatMap fun r => [r.source, r.target]

/-- The symbols that rules read, rule by rule; silent moves read none. -/
def letters (rules : List (Rule State)) : List Symbol :=
  (rules.filter fun r => !r.isSilent).map Rule.symbol

/-- Rules with their states numbered, their alphabet, and their arrows sorted by source. -/
structure RuleIndex where
  /-- The rules, in the order given and with repetitions. -/
  rules : List (Rule State)
  /-- The states of the rules. -/
  nodes : Numbering State
  /-- The symbols that the rules read. -/
  alphabet : Numbering Symbol
  /-- The arrows between the numbers of the states. -/
  arrows : Arrows
  /-- States are numbered as they first appear. -/
  nodes_eq : nodes = Numbering.ofList (endpoints rules)
  /-- Symbols are listed as they first appear. -/
  alphabet_eq : alphabet = Numbering.ofList (letters rules)
  /-- Every rule has its arrow. -/
  arrows_eq : arrows = Arrows.ofRules nodes rules

namespace RuleIndex

/-- The index of a list of rules. -/
def ofList (rules : List (Rule State)) : RuleIndex :=
  let nodes := Numbering.ofList (endpoints rules)
  { rules, nodes
    alphabet := Numbering.ofList (letters rules)
    arrows := Arrows.ofRules nodes rules
    nodes_eq := rfl
    alphabet_eq := rfl
    arrows_eq := rfl }

variable (R : RuleIndex)

/-- All states that the rules mention. -/
def states : States := States.ofList R.nodes.toList

/-- The rules that apply in a state on a symbol, in their order and with repetitions. -/
def rulesFrom (s : State) (y : Symbol) : List (Rule State) :=
  R.rules.filter fun r => r.fits s y

/-- The states that the rules from a state on a symbol lead to. -/
def targets (s : State) (y : Symbol) : States :=
  match R.nodes.number? s with
  | some i => States.ofList ((R.arrows.targets i y).filterMap R.nodes.get?)
  | none => States.empty

/-! ### Moving a set of states -/

/-- The numbers of the members of a set; states that no rule mentions have none. -/
def encode (S : States) : Mask := R.nodes.mask S.toList

/-- The states whose numbers are in a mask. -/
def decode (m : Mask) : States := States.ofList (R.nodes.select m)

/-- The numbers at the targets of the arrows on a symbol from the numbers in a mask. -/
def step (m : Mask) (y : Symbol) : Mask :=
  Mask.ofList ((m.members R.nodes.size).flatMap fun i => R.arrows.targets i y)

/-- The states that one rule on a symbol leads to from a member of a set. On the silent symbol this
is one layer of silent moves, which need not contain the set it starts from. -/
def image (S : States) (y : Symbol) : States := R.decode (R.step (R.encode S) y)

end RuleIndex

end Determinize
