import Determinize.Proofs.TableDfa

/-!
# Determinizing keeps the language

A machine, its deterministic machines, with the empty set and without it, and their tables are
five ways to answer whether a word is accepted.  On words without the silent symbol they agree
(`Nfa.accepts_agree`), whether or not the symbols belong to the alphabet; in particular they
agree on strings.  The silent symbol is no symbol of a deterministic machine, so a word that has
it is rejected by the other four, whatever the machine with silent moves says.
-/

namespace Determinize

/-- No character has the number of the silent symbol. -/
theorem Symbol.ofChar_ne_silent (c : Char) : Symbol.ofChar c ≠ .silent := by
  intro h
  have hval : c.val = 0xFFFFFFFF := congrArg Symbol.id h
  have hvalid : c.val.toNat < 0xD800 ∨ 0xDFFF < c.val.toNat ∧ c.val.toNat < 0x110000 := c.valid
  rw [hval] at hvalid
  revert hvalid
  decide

theorem Word.silent_not_mem_ofString (s : String) : Symbol.silent ∉ Word.ofString s := by
  intro h
  obtain ⟨c, -, hc⟩ := List.mem_map.1 h
  exact Symbol.ofChar_ne_silent c hc

namespace Nfa

/-- The machine `M`, the deterministic machine without the empty set, the deterministic machine
`K` and their tables give the same answer to a word.  Tables can name `2 ^ 32` states. -/
structure Agree (M : Nfa) (K : SubsetDfa) (w : Word) : Prop where
  /-- The answer of the deterministic machine without the empty set. -/
  determinize : M.determinize.accepts w = M.accepts w
  /-- The answer of its table. -/
  table : M.determinize.states.size ≤ 2 ^ 32 → M.table.accepts w = M.accepts w
  /-- The answer of `K`. -/
  kept : K.accepts w = M.accepts w
  /-- The answer of the table of `K`. -/
  keptTable : K.states.size ≤ 2 ^ 32 → (TableDfa.ofSubsets K).accepts w = M.accepts w

variable {M : Nfa} {w : Word}

theorem table_eq : M.table = TableDfa.ofSubsets (M.subsetDfa false) := by
  rw [table, determinize_eq]

theorem agree_of_not_silent (hw : Symbol.silent ∉ w) : Agree M (M.subsetDfa true) w where
  determinize := by rw [determinize_eq, accepts_subsetDfa_of_not_silent hw]
  table hsize := by
    rw [determinize_eq] at hsize
    rw [table_eq, TableDfa.accepts_ofSubsets hsize, accepts_subsetDfa_of_not_silent hw]
  kept := accepts_subsetDfa_of_not_silent hw
  keptTable hsize := by
    rw [TableDfa.accepts_ofSubsets hsize, accepts_subsetDfa_of_not_silent hw]

/-- **Determinizing keeps the language.**  On every word without the silent symbol, and so on
every string, the machine, its two deterministic machines and their tables give one answer.  A
word with the silent symbol is rejected by the deterministic machines and by their tables. -/
theorem accepts_agree (M : Nfa) :
    ∃ K, M.determinizeWithin ⟨none, true⟩ = .ok K ∧
      (∀ w, Symbol.silent ∉ w → Agree M K w) ∧
      (∀ w, Symbol.silent ∈ w →
        M.determinize.accepts w = false ∧ M.table.accepts w = false ∧
        K.accepts w = false ∧ (TableDfa.ofSubsets K).accepts w = false) ∧
      ∀ s, Agree M K (Word.ofString s) := by
  refine ⟨M.subsetDfa true, determinizeWithin_unbounded, fun w => agree_of_not_silent,
    fun w hw => ?_, fun s => agree_of_not_silent (Word.silent_not_mem_ofString s)⟩
  rw [determinize_eq, table_eq]
  exact ⟨accepts_subsetDfa_of_silent hw, TableDfa.accepts_ofSubsets_of_silent hw,
    accepts_subsetDfa_of_silent hw, TableDfa.accepts_ofSubsets_of_silent hw⟩

/-- A machine that reads `a` from state 1 to state 2 and goes back silently. -/
def aPlus : Nfa := ofRules 1 [2] [⟨1, .ofChar 'a', 2⟩, ⟨2, .silent, 1⟩]

/-- The two sets of `aPlus` are within a bound of two. -/
theorem determinizeWithin_aPlus :
    aPlus.determinizeWithin ⟨some 2, true⟩ = .ok (aPlus.subsetDfa true) :=
  determinizeWithin_of_size_le (by decide +kernel)

/-- The table of `aPlus` can name all its states, so it accepts `aa` as the machine does. -/
theorem accepts_agree_aPlus :
    Symbol.silent ∉ Word.ofString "aa" ∧ aPlus.determinize.states.size ≤ 2 ^ 32 ∧
      aPlus.accepts (Word.ofString "aa") = true ∧
      aPlus.table.accepts (Word.ofString "aa") = true := by
  have hw : Symbol.silent ∉ Word.ofString "aa" := by decide +kernel
  have hsize : aPlus.determinize.states.size ≤ 2 ^ 32 := by decide +kernel
  have hacc : aPlus.accepts (Word.ofString "aa") = true := by decide +kernel
  obtain ⟨K, -, hagree, -⟩ := accepts_agree aPlus
  exact ⟨hw, hsize, hacc, ((hagree _ hw).table hsize).trans hacc⟩

end Nfa

end Determinize
