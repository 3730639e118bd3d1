import Determinize.Symbol

/-!
# Rules

A rule leads from one state to another on a symbol. The same rules describe a machine on states
and a machine on sets of states, so they are generic in the states they join.

## Main definitions

* `Rule` : source, symbol and target; a rule on `Symbol.silent` is a silent move.
* `Rule.fits` : whether the rule can be taken from a state on a symbol.
* `Rule.text`, `Rule.recordText` : the rule as an arrow, and as a record of its three parts.
-/

namespace Determinize

/-- A move from one state to another on a symbol. -/
structure Rule (σ : Type) where
  /-- The state the rule leaves. -/
  source : σ
  /-- The symbol it reads, `Symbol.silent` for a silent move. -/
  symbol : Symbol
  /-- The state it leads to. -/
  target : σ
  deriving DecidableEq

namespace Rule

variable {σ : Type}

/-- Whether the rule is a silent move. -/
def isSilent (r : Rule σ) : Bool := r.symbol.isSilent

/-- Whether the rule can be taken from state `s` on symbol `y`. -/
def fits [DecidableEq σ] (r : Rule σ) (s : σ) (y : Symbol) : Bool :=
  r.source = s && r.symbol = y

/-- The rule as an arrow from source to target with the symbol's text on it. -/
def text [ToString σ] (r : Rule σ) : String :=
  "#<FARule " ++ toString r.source ++ " --" ++ r.symbol.text ++ "--> " ++ toString r.target ++ ">"

/-- The rule as a record of its three parts, the symbol as a number. -/
def recordText [ToString σ] (r : Rule σ) : String :=
  "TransitionRule \x7b from: " ++ toString r.source ++ ", on: " ++ r.symbol.digits ++
    ", to: " ++ toString r.target ++ " \x7d"

end Rule

end Determinize
