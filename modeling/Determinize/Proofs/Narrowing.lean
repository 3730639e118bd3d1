import Determinize.Proofs.Language

/-!
# Reading the silent symbol

A run reads the silent symbol like any other: it asks for a silent move.  But a run has already made
all silent moves it can make, since it is closed when it begins and after every symbol
(`Nfa.isClosed_readWord`).  So what it finds by one more silent move it had before, and reading the
silent symbol can only narrow down where the run may be (`Nfa.Run.IsClosed.within_read`).

A run that has read less of this kind is in no worse position.  Reading keeps inclusion
(`Nfa.Run.Within.read`), so of two runs, of which one reads the silent symbols of a word and the
other does not, the latter keeps all the states of the former (`Nfa.Run.Within.readWord_audible`).
Whatever is accepted with silent symbols is therefore accepted without them, and then by the
deterministic machines and their tables as well, which never read a silent symbol.
-/

namespace Determinize

/-- The word without its silent symbols. -/
def Word.audible (w : Word) : Word := w.filter fun y => !y.isSilent

/-- The deterministic machine accepts the word, and so does its table if it has a number for every
state. -/
structure SubsetDfa.TableAccepts (D : SubsetDfa) (w : Word) : Prop where
  /-- The answer of the machine. -/
  accepts : D.accepts w = true
  /-- The answer of the table. -/
  table : D.states.size ≤ 2 ^ 32 → (TableDfa.ofSubsets D).accepts w = true

namespace Word

variable {w : Word} {y : Symbol}

@[simp] theorem audible_cons_silent : audible (.silent :: w) = audible w :=
  List.filter_cons_of_neg (by decide)

theorem audible_cons_of_ne (hy : y ≠ .silent) : audible (y :: w) = y :: audible w :=
  List.filter_cons_of_pos (by simp [Symbol.isSilent, hy])

theorem silent_not_mem_audible : Symbol.silent ∉ w.audible := by
  intro h
  exact absurd (List.mem_filter.1 h).2 (by decide)

end Word

namespace RuleIndex

variable {R : RuleIndex} {S T : States} {t : State} {y : Symbol}

theorem image_mono (h : ∀ s ∈ S, s ∈ T) (ht : t ∈ R.image S y) : t ∈ R.image T y := by
  obtain ⟨s, hs, hr⟩ := mem_image.1 ht
  exact mem_image.2 ⟨s, h s hs, hr⟩

/-- One layer of silent moves stays in the closure. -/
theorem image_silent_subset_closure (ht : t ∈ R.image S .silent) : t ∈ R.closure S := by
  obtain ⟨s, hs, hr⟩ := mem_image.1 ht
  exact mem_closure.2 ⟨s, hs, .single_silent hr⟩

end RuleIndex

namespace Nfa

variable {M : Nfa} {S : States} {w x : Word} {y : Symbol}

namespace Run

/-- The run `ρ` may be in no state but those in which the run `ρ'` may be. -/
def Within (ρ ρ' : Run M) : Prop := ∀ q ∈ ρ.current, q ∈ ρ'.current

/-- The run has made all the silent moves it can make. -/
def IsClosed (ρ : Run M) : Prop := M.rules.closure ρ.current = ρ.current

variable {ρ ρ' ρ'' : Run M}

theorem Within.refl (ρ : Run M) : ρ.Within ρ := fun _ hq => hq

theorem Within.trans (h : ρ.Within ρ') (h' : ρ'.Within ρ'') : ρ.Within ρ'' := by
  intro q hq
  exact h' q (h q hq)

/-! ### Closed runs -/

theorem isClosed_read : (ρ.read y).IsClosed := RuleIndex.closure_closure

theorem IsClosed.readWord (h : ρ.IsClosed) : (ρ.readWord w).IsClosed := by
  induction w generalizing ρ with
  | nil => exact h
  | cons y w ih => exact ih isClosed_read

/-! ### One symbol -/

/-- **Reading keeps inclusion.** -/
theorem Within.read (h : ρ.Within ρ') : (ρ.read y).Within (ρ'.read y) := by
  intro q hq
  exact RuleIndex.closure_mono (fun _ => RuleIndex.image_mono h) hq

/-- **Reading the silent symbol narrows a closed run.** -/
theorem IsClosed.within_read (h : ρ.IsClosed) : (ρ.read .silent).Within ρ := by
  intro q hq
  have hclosure : q ∈ M.rules.closure (M.rules.closure ρ.current) :=
    RuleIndex.closure_mono (fun _ => RuleIndex.image_silent_subset_closure) hq
  rwa [RuleIndex.closure_closure, h] at hclosure

/-! ### Words -/

/-- The run that leaves out the silent symbols keeps the states of the run that reads them. -/
theorem Within.readWord_audible (h : ρ.Within ρ') (hρ' : ρ'.IsClosed) :
    (ρ.readWord w).Within (ρ'.readWord w.audible) := by
  induction w generalizing ρ ρ' with
  | nil => exact h
  | cons y w ih =>
    by_cases hy : y = .silent
    · -- the other run waits, and has been closed before
      rw [hy, Word.audible_cons_silent]
      exact ih (h.read.trans hρ'.within_read) hρ'
    · rw [Word.audible_cons_of_ne hy]
      exact ih h.read isClosed_read

theorem Within.isAccepting (h : ρ.Within ρ') (hacc : ρ.isAccepting = true) :
    ρ'.isAccepting = true := by
  obtain ⟨q, hq, hqacc⟩ := isAccepting_iff.1 hacc
  exact isAccepting_iff.2 ⟨q, h q hq, hqacc⟩

end Run

/-! ### Reachable runs and acceptance -/

theorem isClosed_runFrom : (M.runFrom S).IsClosed := RuleIndex.closure_closure

theorem isClosed_readWord : ((M.runFrom S).readWord w).IsClosed := isClosed_runFrom.readWord

theorem accepts_audible (h : M.accepts w = true) : M.accepts w.audible = true := by
  have hwithin : (M.run.readWord w).Within (M.run.readWord w.audible) :=
    (Run.Within.refl _).readWord_audible isClosed_runFrom
  exact hwithin.isAccepting h

theorem tableAccepts_audible {keep : Bool} (h : M.accepts w = true) :
    (M.subsetDfa keep).TableAccepts w.audible := by
  have haccepts : (M.subsetDfa keep).accepts w.audible = true := by
    rw [accepts_subsetDfa_of_not_silent Word.silent_not_mem_audible, accepts_audible h]
  exact ⟨haccepts, fun hsize => (TableDfa.accepts_ofSubsets hsize).trans haccepts⟩

/-- **Reading the silent symbol only ever narrows.**  Whatever a run began with and has read so far,
one more silent symbol leads to none but states in which it may have been before, and a word leads
to none but states to which it also leads without its silent symbols.  So if the machine accepts a
word, the machine, its deterministic machines and their tables accept the word without its silent
symbols. -/
theorem readSilent_narrows (M : Nfa) :
    (∀ S x, (((M.runFrom S).readWord x).read .silent).Within ((M.runFrom S).readWord x)) ∧
    (∀ S x w, (((M.runFrom S).readWord x).readWord w).Within
      (((M.runFrom S).readWord x).readWord w.audible)) ∧
    ∀ w, M.accepts w = true →
      M.accepts w.audible = true ∧ M.determinize.TableAccepts w.audible ∧
      ∀ c D, M.determinizeWithin c = .ok D → D.TableAccepts w.audible := by
  refine ⟨fun S x => isClosed_readWord.within_read,
    fun S x w => (Run.Within.refl _).readWord_audible isClosed_readWord,
    fun w hw => ⟨accepts_audible hw, ?_, fun c D hD => ?_⟩⟩
  · rw [determinize_eq]
    exact tableAccepts_audible hw
  · rw [eq_subsetDfa_of_determinizeWithin hD]
    exact tableAccepts_audible hw

/-- `aPlus` accepts `a`, a silent symbol and `a`; so its deterministic machine accepts `aa`. -/
theorem readSilent_narrows_aPlus :
    aPlus.accepts [.ofChar 'a', .silent, .ofChar 'a'] = true ∧
      aPlus.determinize.accepts (Word.ofString "aa") = true := by
  have hw : aPlus.accepts [.ofChar 'a', .silent, .ofChar 'a'] = true := by decide +kernel
  obtain ⟨-, -, haccepts⟩ := readSilent_narrows aPlus
  exact ⟨hw, (haccepts _ hw).2.1.accepts⟩

end Nfa

end Determinize
