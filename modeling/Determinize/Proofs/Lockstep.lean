import Determinize.Proofs.Language

/-!
# Runs and walks keep step

A walk of a deterministic machine from its start stands, after every symbol read, at the set of
the states in which the run of the machine with silent moves may be.  The two machines differ in how
they fail.  Without the empty set, a move is missing exactly when the run has died
(`Nfa.walk_eq_none_iff`).  With it, a walk over the alphabet never fails, and goes on in the empty
set; only a symbol outside the alphabet ends it, and there the run dies as well
(`Nfa.walk_kept_of_not_over`).  The silent symbol is the one that a run can read and a walk cannot,
so words are without it here.
-/

namespace Determinize

namespace Nfa

variable {M : Nfa} {S : States} {w : Word}

theorem isDead_run_readWord_iff :
    (M.run.readWord w).isDead = true ↔ M.successorAlong M.startSet w = .empty := by
  rw [Run.isDead, current_run_readWord, States.isEmpty_iff]

/-! ### Without the empty set -/

/-- The walk stands at the set of the run, as long as that is not empty. -/
theorem walk_eq_some_iff (hw : Symbol.silent ∉ w) :
    (M.subsetDfa false).walk M.startSet w = some S ↔
      (M.run.readWord w).current = S ∧ S ≠ .empty := by
  rw [walk_subsetDfa start_mem_states, current_run_readWord]
  constructor
  · rintro ⟨-, hS, hk⟩
    exact ⟨hS, hk.resolve_left Bool.false_ne_true⟩
  · rintro ⟨rfl, hne⟩
    exact ⟨over_of_successorAlong_ne_empty hw hne, rfl, .inr hne⟩

/-- A move is missing exactly when the run is dead. -/
theorem walk_eq_none_iff (hw : Symbol.silent ∉ w) :
    (M.subsetDfa false).walk M.startSet w = none ↔ (M.run.readWord w).isDead = true := by
  rw [Option.eq_none_iff_forall_ne_some, isDead_run_readWord_iff, ← current_run_readWord]
  simp only [ne_eq, walk_eq_some_iff hw, not_and, not_not, forall_eq']

/-! ### With the empty set -/

theorem walk_kept_of_over (hw : Word.Over M.alphabet w) :
    (M.subsetDfa true).walk M.startSet w = some (M.run.readWord w).current := by
  rw [walk_subsetDfa start_mem_states, current_run_readWord]
  exact ⟨hw, rfl, .inl rfl⟩

/-- Where a symbol outside the alphabet has been read, the walk is over and the run is dead. -/
theorem walk_kept_of_not_over (hs : Symbol.silent ∉ w) (hw : ¬ Word.Over M.alphabet w) :
    (M.subsetDfa true).walk M.startSet w = none ∧ (M.run.readWord w).isDead = true := by
  constructor
  · rw [Option.eq_none_iff_forall_ne_some]
    intro S hS
    exact hw ((walk_subsetDfa start_mem_states).1 hS).1
  · rw [isDead_run_readWord_iff]
    by_contra hne
    exact hw (over_of_successorAlong_ne_empty hs hne)

/-- **Runs and walks keep step** on a word without the silent symbol.  The walk without the empty
set leads to the set of the run unless that is empty, and it is missing exactly if the run is dead.
The walk with the empty set is where the run is as long as all symbols read are in the alphabet, at
the end of the word or before; from the first other symbol on it is missing, and the run is dead. -/
theorem walk_lockstep (M : Nfa) (w : Word) (hw : Symbol.silent ∉ w) :
    (∀ S, M.determinize.walk M.determinize.start w = some S ↔
      (M.run.readWord w).current = S ∧ S ≠ .empty) ∧
    (M.determinize.walk M.determinize.start w = none ↔ (M.run.readWord w).isDead = true) ∧
    ∃ K, M.determinizeWithin ⟨none, true⟩ = .ok K ∧
      ∀ x, x <+: w →
        (Word.Over M.alphabet x → K.walk K.start x = some (M.run.readWord x).current) ∧
        (¬ Word.Over M.alphabet x →
          K.walk K.start x = none ∧ (M.run.readWord x).isDead = true) := by
  rw [determinize_eq]
  refine ⟨fun S => walk_eq_some_iff hw, walk_eq_none_iff hw, M.subsetDfa true,
    determinizeWithin_unbounded, ?_⟩
  intro x hx
  exact ⟨walk_kept_of_over, walk_kept_of_not_over fun hs => hw (hx.subset hs)⟩

/-- `aPlus` does not know the symbol `b`: its walks end there, and its run is dead. -/
theorem walk_lockstep_aPlus :
    Symbol.silent ∉ Word.ofString "ab" ∧
      aPlus.determinize.walk aPlus.determinize.start (Word.ofString "ab") = none ∧
      (aPlus.run.readWord (Word.ofString "ab")).isDead = true := by
  have hw : Symbol.silent ∉ Word.ofString "ab" := by decide +kernel
  have hdead : (aPlus.run.readWord (Word.ofString "ab")).isDead = true := by decide +kernel
  obtain ⟨-, hnone, -⟩ := walk_lockstep aPlus (Word.ofString "ab") hw
  exact ⟨hw, hnone.2 hdead, hdead⟩

end Nfa

end Determinize
