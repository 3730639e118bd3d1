import Determinize.Proofs.Narrowing
import Mathlib.Combinatorics.Pigeonhole

/-!
# Whether anything is accepted

Determinizing shows whether a machine accepts any word at all: it does exactly if one of the sets
found accepts (`Nfa.accepting_eq_nil_iff`).  A set that accepts has been found on a word over the
alphabet, and the machine accepts this word.  Conversely, whatever word the machine accepts, it
also accepts it without its silent symbols (`Nfa.accepts_audible`); then only symbols of the
alphabet are left, and the word leads to a set that accepts.

The word on which a set was found need not be short, but some word is.  A word that is as long as
there are sets passes through some set twice (`Nfa.exists_repeated_set`), and the part in between
can be cut out.  So every set that is not empty can be reached by a word with fewer symbols than
there are sets (`Nfa.exists_short_word`).
-/

namespace Determinize

namespace Nfa

variable {M : Nfa} {S : States} {w : Word} {i j : ℕ} {keep : Bool}

/-! ### Short words -/

/-- What a word reads between two visits to a set can be cut out. -/
theorem successorAlong_cut
    (h : M.successorAlong S (w.take i) = M.successorAlong S (w.take j)) :
    M.successorAlong S (w.take i ++ w.drop j) = M.successorAlong S w := by
  rw [successorAlong_append, h, ← successorAlong_append, List.take_append_drop]

/-- A word that does not lead to the empty set passes through states only. -/
theorem successorAlong_take_mem_states (hw : Word.Over M.alphabet w)
    (hne : M.successorAlong M.startSet w ≠ .empty) (i : ℕ) :
    M.successorAlong M.startSet (w.take i) ∈ (M.subsetDfa false).states := by
  refine mem_states_subsetDfa.2 ⟨⟨w.take i, fun y hy => hw y (List.mem_of_mem_take hy), rfl⟩, ?_⟩
  refine .inr fun hempty => hne ?_
  rw [← List.take_append_drop i w, successorAlong_append, hempty, successorAlong_empty]

theorem exists_repeated_set (hw : Word.Over M.alphabet w)
    (hne : M.successorAlong M.startSet w ≠ .empty)
    (hlen : (M.subsetDfa false).states.size ≤ w.length) :
    ∃ i j, i < j ∧ j ≤ w.length ∧
      M.successorAlong M.startSet (w.take i) = M.successorAlong M.startSet (w.take j) := by
  have hcard : (M.subsetDfa false).states.toList.toFinset.card <
      (Finset.range (w.length + 1)).card := by
    rw [Finset.card_range, List.toFinset_card_of_nodup (Numbering.nodup _)]
    exact Nat.lt_succ_of_le hlen
  obtain ⟨i, hi, j, hj, hij, heq⟩ := Finset.exists_ne_map_eq_of_card_lt_of_maps_to hcard
    fun i _ => List.mem_toFinset.2 (successorAlong_take_mem_states hw hne i)
  have hi : i ≤ w.length := Nat.le_of_lt_succ (Finset.mem_range.1 hi)
  have hj : j ≤ w.length := Nat.le_of_lt_succ (Finset.mem_range.1 hj)
  rcases Nat.lt_or_gt_of_ne hij with hlt | hlt
  · exact ⟨i, j, hlt, hj, heq⟩
  · exact ⟨j, i, hlt, hi, heq.symm⟩

/-- **Sets are reached by short words.**  Where a word leads, if not to the empty set, a word with
fewer symbols than there are states leads as well. -/
theorem exists_short_word (hw : Word.Over M.alphabet w)
    (hne : M.successorAlong M.startSet w ≠ .empty) :
    ∃ x, Word.Over M.alphabet x ∧ x.length < (M.subsetDfa false).states.size ∧
      M.successorAlong M.startSet x = M.successorAlong M.startSet w := by
  -- cut as long as the word is too long
  induction hn : w.length using Nat.strong_induction_on generalizing w with
  | h n ih =>
    subst hn
    rcases Nat.lt_or_ge w.length (M.subsetDfa false).states.size with hlt | hge
    · exact ⟨w, hw, hlt, rfl⟩
    · obtain ⟨i, j, hij, hj, heq⟩ := exists_repeated_set hw hne hge
      have hcut := successorAlong_cut heq
      have hover : Word.Over M.alphabet (w.take i ++ w.drop j) :=
        Word.over_append.2 ⟨fun y hy => hw y (List.mem_of_mem_take hy),
          fun y hy => hw y (List.mem_of_mem_drop hy)⟩
      have hshort : (w.take i ++ w.drop j).length < w.length := by
        rw [List.length_append, List.length_take, List.length_drop]
        omega
      obtain ⟨x, hx, hlen, hxw⟩ := ih _ hshort hover (hcut ▸ hne) rfl
      exact ⟨x, hx, hlen, hxw.trans hcut⟩

/-! ### Sets that accept -/

/-- An accepted word leads, without its silent symbols, to a state that accepts. -/
theorem successorAlong_audible_mem_accepting (h : M.accepts w = true) :
    M.successorAlong M.startSet w.audible ∈ (M.subsetDfa keep).accepting := by
  have haccepts : (M.subsetDfa keep).accepts w.audible = true :=
    (tableAccepts_audible h).accepts
  obtain ⟨hover, q, hq, hacc⟩ := accepts_subsetDfa_iff.1 haccepts
  refine mem_accepting_subsetDfa.2 ⟨mem_states_subsetDfa.2 ⟨⟨_, hover, rfl⟩, ?_⟩, q, hq, hacc⟩
  exact .inr fun hempty => States.not_mem_empty (hempty ▸ hq)

/-- A set that accepts is reached by a short word, which is accepted. -/
theorem exists_short_accepted (hS : S ∈ (M.subsetDfa false).accepting) :
    ∃ w, Word.Over M.alphabet w ∧ w.length < (M.subsetDfa false).states.size ∧
      M.accepts w = true := by
  obtain ⟨hstates, q, hq, hacc⟩ := mem_accepting_subsetDfa.1 hS
  obtain ⟨⟨w, hw, rfl⟩, -⟩ := mem_states_subsetDfa.1 hstates
  obtain ⟨x, hx, hlen, heq⟩ :=
    exists_short_word hw fun hempty => States.not_mem_empty (hempty ▸ hq)
  exact ⟨x, hx, hlen, accepts_iff_successorAlong.2 ⟨q, heq ▸ hq, hacc⟩⟩

theorem accepting_eq_nil_iff :
    (M.subsetDfa false).accepting.toList = [] ↔ ∀ w, M.accepts w = false := by
  rw [List.eq_nil_iff_forall_not_mem]
  constructor
  · intro hnone w
    rw [Bool.eq_false_iff]
    intro h
    exact hnone _ (successorAlong_audible_mem_accepting h)
  · intro hrejects S hS
    obtain ⟨w, -, -, hw⟩ := exists_short_accepted hS
    exact Bool.false_ne_true ((hrejects w).symm.trans hw)

/-- **Determinizing decides emptiness.**  The deterministic machine has no accepting state exactly
if the machine accepts no word, with silent and foreign symbols or without.  If it has one, the
machine accepts a word over the alphabet, so one without the silent symbol, that has fewer symbols
than there are states. -/
theorem accepting_decidesEmptiness (M : Nfa) :
    (M.determinize.accepting.toList = [] ↔ ∀ w, M.accepts w = false) ∧
    (M.determinize.accepting.toList ≠ [] →
      ∃ w, Word.Over M.alphabet w ∧ Symbol.silent ∉ w ∧
        w.length < M.determinize.states.size ∧ M.accepts w = true) := by
  rw [determinize_eq]
  refine ⟨accepting_eq_nil_iff, fun hne => ?_⟩
  obtain ⟨S, hS⟩ := List.exists_mem_of_ne_nil _ hne
  obtain ⟨w, hw, hlen, hacc⟩ := exists_short_accepted hS
  exact ⟨w, hw, fun hsilent => silent_not_mem_alphabet (hw _ hsilent), hlen, hacc⟩

/-- The second of the two sets of `aPlus` accepts, so `aPlus` accepts a word of at most one
symbol. -/
theorem accepting_decidesEmptiness_aPlus :
    aPlus.determinize.accepting.toList ≠ [] ∧
      ∃ w, Word.Over aPlus.alphabet w ∧ w.length < 2 ∧ aPlus.accepts w = true := by
  have hne : aPlus.determinize.accepting.toList ≠ [] := by decide +kernel
  have hsize : aPlus.determinize.states.size = 2 := by decide +kernel
  obtain ⟨w, hw, -, hlen, hacc⟩ := (accepting_decidesEmptiness aPlus).2 hne
  exact ⟨hne, w, hw, hsize ▸ hlen, hacc⟩

end Nfa

end Determinize
