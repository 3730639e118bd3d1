import Determinize.Rule

/-!
# Paths through rules

What a machine can do is told by its paths, without any set or index: a path reads a word by taking
rules one after the other, and may take silent moves anywhere.

## Main definitions

* `Path` : a path from one state to another that reads a word.
* `SilentSteps` : a given number of silent moves from one state to another.
-/

namespace Determinize

variable {σ : Type}

/-- `Path rules s w t` : from `s` a sequence of rules leads to `t` and reads `w` on its way. A
silent move reads nothing, or the silent symbol where the word has it. -/
inductive Path (rules : List (Rule σ)) : σ → Word → σ → Prop
  /-- At the end of a word the path may end. -/
  | stop (s : σ) : Path rules s [] s
  /-- Take a silent move and read nothing. -/
  | silent {r : Rule σ} {w : Word} {t : σ} (mem : r ∈ rules) (silent : r.symbol = .silent)
      (rest : Path rules r.target w t) : Path rules r.source w t
  /-- Take a rule and read its symbol. -/
  | letter {r : Rule σ} {w : Word} {t : σ} (mem : r ∈ rules)
      (rest : Path rules r.target w t) : Path rules r.source (r.symbol :: w) t

/-- `SilentSteps rules k s t` : `k` silent moves lead from `s` to `t`. -/
def SilentSteps (rules : List (Rule σ)) : Nat → σ → σ → Prop
  | 0, s, t => s = t
  | k + 1, s, t => ∃ r ∈ rules, r.symbol = .silent ∧ SilentSteps rules k s r.source ∧ r.target = t

end Determinize
