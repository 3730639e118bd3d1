import Determinize.Nfa
import Determinize.Proofs.Closure

/-!
# Runs and paths

A run keeps the set of the states that the machine may be in.  Reading a word from the closure
of a set ends in exactly the states that paths from the set lead to (`mem_current_readWord`), so
whether a word is accepted, and whether a run is dead, are questions about paths
(`readWord_iff_path`).

A set moves on a symbol by `Nfa.successor`, which closes the set before and after.  On closed
sets this is reading: `Nfa.successorAlong` follows a word and ends where the run ends.
-/

namespace Determinize

namespace Nfa

variable {M : Nfa} {S : States} {w : Word} {y : Symbol} {t : State}

/-! ### Runs -/

theorem mem_current_readWord :
    t ∈ ((M.runFrom S).readWord w).current ↔ ∃ s ∈ S, Path M.rules.rules s w t := by
  induction w generalizing S with
  | nil => exact RuleIndex.mem_closure
  | cons y w ih =>
    -- reading a letter is beginning anew in the image of the closure
    change t ∈ ((M.runFrom (M.rules.image (M.rules.closure S) y)).readWord w).current ↔ _
    simp only [ih, RuleIndex.mem_image, RuleIndex.mem_closure, path_cons_iff]
    constructor
    · rintro ⟨v, ⟨u, ⟨s, hs, hu⟩, hr⟩, hv⟩
      exact ⟨s, hs, u, v, hu, hr, hv⟩
    · rintro ⟨s, hs, u, v, hu, hr, hv⟩
      exact ⟨v, ⟨u, ⟨s, hs, hu⟩, hr⟩, hv⟩

namespace Run

variable {ρ : Run M}

theorem isAccepting_iff : ρ.isAccepting = true ↔ ∃ q ∈ ρ.current, q ∈ M.accepting :=
  States.meets_iff

theorem isDead_iff : ρ.isDead = true ↔ ∀ q, q ∉ ρ.current := by
  rw [isDead, States.isEmpty_iff]
  refine ⟨fun h q => h ▸ States.not_mem_empty, fun h => States.ext fun q => ?_⟩
  exact ⟨fun hq => absurd hq (h q), fun hq => absurd hq States.not_mem_empty⟩

/-- Nothing can be read from the empty set. -/
theorem isDead_readWord (h : ρ.isDead = true) : (ρ.readWord w).isDead = true := by
  induction w generalizing ρ with
  | nil => exact h
  | cons y w ih =>
    refine ih (isDead_iff.2 fun t ht => ?_)
    have hempty : ρ.current = .empty := States.isEmpty_iff.1 h
    have hread : (ρ.read y).current = .empty := by
      simp [read, hempty, RuleIndex.image_empty]
    exact States.not_mem_empty (hread ▸ ht)

end Run

theorem isAccepting_readWord_iff :
    ((M.runFrom S).readWord w).isAccepting = true ↔
      ∃ s ∈ S, ∃ q ∈ M.accepting, Path M.rules.rules s w q := by
  simp only [Run.isAccepting_iff, mem_current_readWord]
  constructor
  · rintro ⟨q, ⟨s, hs, hp⟩, hq⟩
    exact ⟨s, hs, q, hq, hp⟩
  · rintro ⟨s, hs, q, hq, hp⟩
    exact ⟨q, ⟨s, hs, hp⟩, hq⟩

theorem isDead_readWord_iff :
    ((M.runFrom S).readWord w).isDead = true ↔ ¬ ∃ s ∈ S, ∃ q, Path M.rules.rules s w q := by
  simp only [Run.isDead_iff, mem_current_readWord]
  constructor
  · rintro h ⟨s, hs, q, hp⟩
    exact h q ⟨s, hs, hp⟩
  · rintro h q ⟨s, hs, hp⟩
    exact h ⟨s, hs, q, hp⟩

theorem accepts_iff_path :
    M.accepts w = true ↔ ∃ q ∈ M.accepting, Path M.rules.rules M.start w q := by
  rw [accepts, run, isAccepting_readWord_iff]
  simp

/-- **Runs follow paths.**  After a word, the run that began in the closure of `S` may be in
exactly the states that a path from a member of `S` leads to; it accepts iff one of them is
accepting, and it is dead, now and for ever, iff there is none.  So a machine accepts a word iff
a path leads from its start state to an accepting state. -/
theorem readWord_iff_path (M : Nfa) (S : States) (w : Word) :
    (∀ q, q ∈ ((M.runFrom S).readWord w).current ↔ ∃ s ∈ S, Path M.rules.rules s w q) ∧
    (((M.runFrom S).readWord w).isAccepting = true ↔
      ∃ s ∈ S, ∃ q ∈ M.accepting, Path M.rules.rules s w q) ∧
    (((M.runFrom S).readWord w).isDead = true ↔ ¬ ∃ s ∈ S, ∃ q, Path M.rules.rules s w q) ∧
    (((M.runFrom S).readWord w).isDead = true →
      ∀ x, (((M.runFrom S).readWord w).readWord x).isDead = true) ∧
    (M.accepts w = true ↔ ∃ q ∈ M.accepting, Path M.rules.rules M.start w q) :=
  ⟨fun _ => mem_current_readWord, isAccepting_readWord_iff, isDead_readWord_iff,
    fun h _ => Run.isDead_readWord h, accepts_iff_path⟩

/-! ### Sets as states -/

variable (M) in
/-- Where a word leads a set of states, each symbol by `Nfa.successor`. -/
def successorAlong (S : States) (w : Word) : States := w.foldl M.successor S

@[simp] theorem closure_successor : M.rules.closure (M.successor S y) = M.successor S y :=
  RuleIndex.closure_closure

/-- From a closed set, following a word is reading it. -/
theorem current_readWord_of_closed (hS : M.rules.closure S = S) :
    ((M.runFrom S).readWord w).current = M.successorAlong S w := by
  induction w generalizing S with
  | nil => exact hS
  | cons y w ih =>
    have hy : (M.runFrom S).read y = M.runFrom (M.successor S y) :=
      congrArg Run.mk closure_successor.symm
    change (((M.runFrom S).read y).readWord w).current = M.successorAlong (M.successor S y) w
    rw [hy, ih closure_successor]

end Nfa

end Determinize
