import Determinize.Proofs.SubsetDfa.Bound

/-!
# The states of the deterministic machine

Chains of moves between sets are words over the alphabet (`Nfa.reflTransGen_leads_iff`).  The
deterministic machine therefore has as its states the sets to which words over the alphabet lead
from the start set, the empty set included or not (`Nfa.mem_states_subsetDfa`): nothing lies
behind the empty set, so leaving it out hides no other set.
-/

namespace Determinize

/-- All symbols of the word belong to the alphabet. -/
def Word.Over (A : Numbering Symbol) (w : Word) : Prop := ∀ y ∈ w, y ∈ A

theorem Word.over_append {A : Numbering Symbol} {w x : Word} :
    Word.Over A (w ++ x) ↔ Word.Over A w ∧ Word.Over A x := List.forall_mem_append

theorem Word.over_singleton {A : Numbering Symbol} {y : Symbol} :
    Word.Over A [y] ↔ y ∈ A := List.forall_mem_singleton

namespace Nfa

open Relation Search

variable {M : Nfa} {S T : States} {w x : Word} {y : Symbol} {keep : Bool}

theorem successorAlong_append :
    M.successorAlong S (w ++ x) = M.successorAlong (M.successorAlong S w) x := List.foldl_append

theorem closure_successorAlong (hS : M.rules.closure S = S) :
    M.rules.closure (M.successorAlong S w) = M.successorAlong S w := by
  induction w generalizing S with
  | nil => exact hS
  | cons y w ih => exact ih closure_successor

/-- Chains of moves are words.  Without the empty set, chains reach the sets that words reach and
that are not empty, and where they began. -/
theorem reflTransGen_leads_iff :
    ReflTransGen (Leads (M.keptMoves keep)) S T ↔
      (∃ w, Word.Over M.alphabet w ∧ M.successorAlong S w = T) ∧
        (keep = true ∨ T ≠ .empty ∨ T = S) := by
  constructor
  · intro h
    induction h with
    | refl => exact ⟨⟨[], List.forall_mem_nil _, rfl⟩, .inr (.inr rfl)⟩
    | tail _ hUT ih =>
      obtain ⟨⟨w, hw, rfl⟩, -⟩ := ih
      obtain ⟨y, hy, rfl, hk⟩ := leads_iff.1 hUT
      refine ⟨⟨w ++ [y], Word.over_append.2 ⟨hw, Word.over_singleton.2 hy⟩, ?_⟩,
        hk.imp_right .inl⟩
      exact successorAlong_append
  · -- from the end of the word, since what comes before a set that is not empty is not empty
    rintro ⟨⟨w, hw, rfl⟩, hk⟩
    induction w using List.reverseRecOn with
    | nil => exact .refl
    | append_singleton w y ih =>
      obtain ⟨hw, hy⟩ := Word.over_append.1 hw
      rw [Word.over_singleton] at hy
      have hstep : M.successorAlong S (w ++ [y]) = M.successor (M.successorAlong S w) y :=
        successorAlong_append
      rw [hstep] at hk ⊢
      by_cases hS : M.successor (M.successorAlong S w) y = S
      · rw [hS]
      · have hkeep : keep = true ∨ M.successor (M.successorAlong S w) y ≠ .empty :=
          hk.imp_right fun h => h.resolve_right hS
        refine (ih hw (hkeep.imp_right fun hne => .inl fun he => ?_)).tail
          (leads_iff.2 ⟨y, hy, rfl, hkeep⟩)
        rw [he, successor_empty] at hne
        exact hne rfl

/-! ### The start set -/

theorem start_mem_startSet : M.start ∈ M.startSet :=
  RuleIndex.subset_closure (States.mem_singleton.2 rfl)

theorem startSet_ne_empty : M.startSet ≠ .empty :=
  fun h => States.not_mem_empty (h ▸ start_mem_startSet)

theorem closure_startSet : M.rules.closure M.startSet = M.startSet := RuleIndex.closure_closure

/-! ### The sets found -/

theorem mem_states_subsetDfa :
    S ∈ (M.subsetDfa keep).states ↔
      (∃ w, Word.Over M.alphabet w ∧ M.successorAlong M.startSet w = S) ∧
        (keep = true ∨ S ≠ .empty) := by
  change S ∈ (M.freeSearch keep [M.startSet]).found ↔ _
  rw [complete_freeSearch.mem_found_iff]
  simp only [List.mem_singleton, exists_eq_left, reflTransGen_leads_iff]
  refine and_congr_right fun _ => or_congr_right ⟨?_, .inl⟩
  rintro (hne | rfl)
  · exact hne
  · exact startSet_ne_empty

theorem start_subsetDfa : (M.subsetDfa keep).start = M.startSet := rfl

theorem start_mem_states : M.startSet ∈ (M.subsetDfa keep).states :=
  mem_states_subsetDfa.2 ⟨⟨[], List.forall_mem_nil _, rfl⟩, .inr startSet_ne_empty⟩

theorem mem_accepting_subsetDfa :
    S ∈ (M.subsetDfa keep).accepting ↔
      S ∈ (M.subsetDfa keep).states ∧ ∃ q ∈ S, q ∈ M.accepting :=
  List.mem_filter.trans (and_congr_right fun _ => States.meets_iff)

/-- How the states of a deterministic machine are listed. -/
structure WellListed (M : Nfa) (D : SubsetDfa) : Prop where
  /-- Every set occurs once. -/
  nodup : D.states.toList.Nodup
  /-- Every set is closed. -/
  closed : ∀ S ∈ D.states, M.rules.closure S = S
  /-- The start is the closure of the start state. -/
  start_eq : D.start = M.rules.closure (.singleton M.start)
  /-- The start comes first. -/
  first : D.states.get? 0 = some D.start
  /-- The accepting states come in the same order. -/
  order : D.accepting.toList.Sublist D.states.toList
  /-- The accepting states are the sets with an accepting member. -/
  mem_accepting : ∀ S, S ∈ D.accepting ↔ S ∈ D.states ∧ ∃ q ∈ S, q ∈ M.accepting

theorem wellListed_subsetDfa : WellListed M (M.subsetDfa keep) where
  nodup := (M.subsetDfa keep).states.nodup
  closed S hS := by
    obtain ⟨⟨w, -, rfl⟩, -⟩ := mem_states_subsetDfa.1 hS
    exact closure_successorAlong closure_startSet
  start_eq := rfl
  first := by
    have hcomplete : Complete (M.keptMoves keep) [M.startSet] (M.freeSearch keep [M.startSet]) :=
      complete_freeSearch
    obtain ⟨l, hl⟩ := hcomplete.seeds_first
    change (M.freeSearch keep [M.startSet]).found.toList[0]? = _
    rw [← hl]
    rfl
  order := List.filter_sublist
  mem_accepting _ := mem_accepting_subsetDfa

/-- **Determinizing finds exactly the sets that words reach.**  With the empty set kept, the
states are the sets to which the words over the alphabet lead from the start set; without it,
those of them that are not empty.  In either case every set occurs once and is closed, the start
set comes first, and the accepting states are the sets with an accepting member, in the order in
which they were found. -/
theorem mem_states_iff_reachable (M : Nfa) :
    ∃ K, M.determinizeWithin ⟨none, true⟩ = .ok K ∧
      (∀ S, S ∈ K.states ↔ ∃ w, Word.Over M.alphabet w ∧ M.successorAlong M.startSet w = S) ∧
      (∀ S, S ∈ M.determinize.states ↔
        (∃ w, Word.Over M.alphabet w ∧ M.successorAlong M.startSet w = S) ∧ S ≠ .empty) ∧
      WellListed M K ∧ WellListed M M.determinize := by
  refine ⟨M.subsetDfa true, determinizeWithin_unbounded, fun S => ?_, fun S => ?_,
    wellListed_subsetDfa, determinize_eq ▸ wellListed_subsetDfa⟩
  · simp [mem_states_subsetDfa]
  · simp [determinize_eq, mem_states_subsetDfa]

end Nfa

end Determinize
