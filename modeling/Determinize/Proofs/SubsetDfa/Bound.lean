import Determinize.Proofs.SubsetSearch
import Determinize.SubsetDfa

/-!
# The bound on the number of sets

Determinizing without a bound always has a result, `Nfa.subsetDfa`.  A bound is exact, and it
shows in nothing else (`Nfa.determinizeWithin_bound`): as long as the unbounded result has no
more states than allowed, the bounded one is the same machine, and otherwise the search is given
up when it has found one state too many.
-/

namespace Determinize

namespace Nfa

open Search

variable (M : Nfa) (keep : Bool)

/-- The deterministic machine without a bound, the empty set kept or left out. -/
def subsetDfa : SubsetDfa := SubsetDfa.ofSearch M (M.freeSearch keep [M.startSet])

variable {M keep} {m k : ℕ}

theorem determinize_eq : M.determinize = M.subsetDfa false := by
  rw [determinize, searchAll_eq, subsetDfa]

theorem determinizeWithin_unbounded :
    M.determinizeWithin ⟨none, keep⟩ = .ok (M.subsetDfa keep) := by
  simp only [determinizeWithin, searchWithin_unbounded, subsetDfa]

theorem gate_of_le (h : k ≤ m) : (⟨some m, keep⟩ : Settings).gate k = .ok () :=
  if_neg (Nat.not_lt.2 h)

theorem gate_succ : (⟨some m, keep⟩ : Settings).gate (m + 1) = .error ⟨m + 1, m⟩ :=
  if_pos (Nat.lt_succ_self m)

/-- What a bound refuses is above it, and the failure tells both. -/
theorem eq_of_gate_eq_error {e : TooManyStates}
    (h : (⟨some m, keep⟩ : Settings).gate k = .error e) : e = ⟨k, m⟩ := by
  simp only [Settings.gate] at h
  split at h
  · exact (Except.error.inj h).symm
  · cases h

/-- The bounded search against the search without a gate. -/
theorem guarded_searchWithin :
    Guarded (⟨some m, keep⟩ : Settings).gate Search.empty (M.searchWithin ⟨some m, keep⟩)
      (M.freeSearch keep [M.startSet]) :=
  guarded_search

theorem determinizeWithin_of_size_le (h : (M.subsetDfa keep).states.size ≤ m) :
    M.determinizeWithin ⟨some m, keep⟩ = .ok (M.subsetDfa keep) := by
  have hsearch : M.searchWithin ⟨some m, keep⟩ = .ok (M.freeSearch keep [M.startSet]) :=
    guarded_searchWithin.passes fun k _ hk => gate_of_le (Nat.le_trans hk h)
  simp only [determinizeWithin, hsearch, subsetDfa]

theorem determinizeWithin_of_lt_size (h : m < (M.subsetDfa keep).states.size) :
    M.determinizeWithin ⟨some m, keep⟩ = .error ⟨m + 1, m⟩ := by
  obtain ⟨log, hsearch⟩ := (guarded_searchWithin (M := M)).refuses m _ (Nat.zero_le m) h
    (fun k _ hk => gate_of_le hk) gate_succ
  simp only [determinizeWithin, hsearch]

/-- What determinizing under settings gives, if it gives anything, is the machine found without a
bound. -/
theorem eq_subsetDfa_of_determinizeWithin {c : Settings} {D : SubsetDfa}
    (h : M.determinizeWithin c = .ok D) : D = M.subsetDfa c.keepEmpty := by
  obtain ⟨bound, keep⟩ := c
  cases bound with
  | none => exact Except.ok.inj (h.symm.trans determinizeWithin_unbounded)
  | some m =>
    rcases Nat.lt_or_ge m (M.subsetDfa keep).states.size with hm | hm
    · rw [determinizeWithin_of_lt_size hm] at h
      cases h
    · exact Except.ok.inj (h.symm.trans (determinizeWithin_of_size_le hm))

/-- Determinizing, under settings or not, gives one of the two machines found without a bound. -/
theorem exists_eq_subsetDfa {D : SubsetDfa}
    (h : D = M.determinize ∨ ∃ c, M.determinizeWithin c = .ok D) :
    ∃ keep, D = M.subsetDfa keep := by
  rcases h with rfl | ⟨c, hc⟩
  · exact ⟨false, determinize_eq⟩
  · exact ⟨c.keepEmpty, eq_subsetDfa_of_determinizeWithin hc⟩

/-- Two machines whose deterministic machines have as many states either both keep a bound or both
fail alike. -/
theorem sameOutcome_determinizeWithin {M' : Nfa} {P : SubsetDfa → SubsetDfa → Prop}
    (hsize : ∀ keep, (M.subsetDfa keep).states.size = (M'.subsetDfa keep).states.size)
    (hP : ∀ keep, P (M.subsetDfa keep) (M'.subsetDfa keep)) (c : Settings) :
    SameOutcome P (M.determinizeWithin c) (M'.determinizeWithin c) := by
  obtain ⟨bound, keep⟩ := c
  cases bound with
  | none =>
    rw [determinizeWithin_unbounded, determinizeWithin_unbounded]
    exact .ok (hP keep)
  | some m =>
    by_cases hm : m < (M.subsetDfa keep).states.size
    · rw [determinizeWithin_of_lt_size hm, determinizeWithin_of_lt_size (hsize keep ▸ hm)]
      exact .error _
    · have hle : (M.subsetDfa keep).states.size ≤ m := Nat.not_lt.1 hm
      rw [determinizeWithin_of_size_le hle, determinizeWithin_of_size_le (hsize keep ▸ hle)]
      exact .ok (hP keep)

/-- **The bound is exact.**  Let `D` be the machine found without a bound.  Under the bound `m`
the result is `D` itself if `D` has at most `m` states, and if it has more, the failure tells of
`m + 1` states.  Leaving out the empty set is what determinizing without settings does. -/
theorem determinizeWithin_bound (M : Nfa) (keep : Bool) :
    ∃ D, M.determinizeWithin ⟨none, keep⟩ = .ok D ∧
      (∀ m, ((∃ e, M.determinizeWithin ⟨some m, keep⟩ = .error e) ↔ m < D.states.size) ∧
        (m < D.states.size → M.determinizeWithin ⟨some m, keep⟩ = .error ⟨m + 1, m⟩) ∧
        (D.states.size ≤ m → M.determinizeWithin ⟨some m, keep⟩ = .ok D)) ∧
      M.determinizeWithin ⟨none, false⟩ = .ok M.determinize := by
  refine ⟨M.subsetDfa keep, determinizeWithin_unbounded, fun m => ⟨⟨?_, ?_⟩, ?_, ?_⟩, ?_⟩
  · rintro ⟨e, he⟩
    by_contra hm
    rw [determinizeWithin_of_size_le (Nat.not_lt.1 hm)] at he
    cases he
  · exact fun hm => ⟨_, determinizeWithin_of_lt_size hm⟩
  · exact determinizeWithin_of_lt_size
  · exact determinizeWithin_of_size_le
  · rw [determinize_eq, determinizeWithin_unbounded]

end Nfa

end Determinize
