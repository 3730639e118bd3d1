import Determinize.RuleIndex.Basic

/-!
# Closure under silent moves

The closure of a set of states adds every state that silent moves lead to. It spreads in waves: a
wave remembers what has been reached and what was reached last, and only the latter is expanded, so
the silent moves of a state are followed once. The spreading ends when a wave would add nothing,
after at most as many waves as there are states.

## Main definitions

* `RuleIndex.Wave` : what has been reached, and the frontier that was reached last.
* `RuleIndex.nextWave?` : the next wave, if it adds anything.
* `RuleIndex.closure` : the closure of a set of states.
-/

namespace Determinize

namespace RuleIndex

/-- A moment of the spreading, in numbers of states. -/
structure Wave where
  /-- Everything reached so far. -/
  reached : Mask
  /-- What the last wave added. -/
  frontier : Mask
  deriving DecidableEq

variable (R : RuleIndex)

/-- Before the first wave, the members of a set are reached, and all of them are new. -/
def firstWave (S : States) : Wave := ⟨R.encode S, R.encode S⟩

/-- Follow the silent moves of the frontier. What had not been reached is the next frontier; if
there is nothing of the kind, there is no next wave. -/
def nextWave? (w : Wave) : Option Wave :=
  let added := (R.step w.frontier .silent).diff w.reached
  if added.isEmpty then none else some ⟨w.reached.union added, added⟩

/-- At most `k` further waves. -/
def spread : Nat → Wave → Wave
  | 0, w => w
  | k + 1, w => match R.nextWave? w with
    | none => w
    | some w' => spread k w'

/-- The set with every state that silent moves lead to from a member. States that no rule mentions
stay as they are. -/
def closure (S : States) : States :=
  S.union (R.decode (R.spread R.nodes.size (R.firstWave S)).reached)

end RuleIndex

end Determinize
