import Determinize.Arrows

/-!
# The arrows of a list of rules

`Arrows.ofRules` sorts rules by their source, one row for each number.  Reading a row for a
symbol gives back the rules from that source on that symbol, in the order in which they were
listed (`Arrows.targets_ofRules`), and nothing else (`Arrows.mem_targets_ofRules`).
-/

namespace Determinize

namespace Arrows

variable {σ : Type} [DecidableEq σ] {nodes : Numbering σ} {rules : List (Rule σ)} {r : Rule σ}
  {A : Arrows} {i j : Nat} {y : Symbol}

/-- The number that a rule leads to, if the rule can be taken from number `i` on symbol `y`. -/
def hop? (nodes : Numbering σ) (i : Nat) (y : Symbol) (r : Rule σ) : Option Nat :=
  if nodes.number? r.source = some i ∧ r.symbol = y then nodes.number? r.target else none

theorem hop?_eq_some_iff :
    hop? nodes i y r = some j ↔
      nodes.number? r.source = some i ∧ r.symbol = y ∧ nodes.number? r.target = some j := by
  unfold hop?
  split <;> simp_all

theorem size_rows_add : (add nodes r A).rows.size = A.rows.size := by
  unfold add
  split
  · simp
  · rfl

theorem size_rows_ofRules : (ofRules nodes rules).rows.size = nodes.size := by
  induction rules with
  | nil => simp [ofRules, empty]
  | cons r rules ih => exact size_rows_add.trans ih

theorem targets_empty {n : Nat} : (empty n).targets i y = [] := by
  simp only [targets, empty, Array.getElem?_replicate]
  split <;> rfl

/-- A rule's arrow stands in front of its row, and the other rows are as they were. -/
theorem targets_add (hA : A.rows.size = nodes.size) :
    (add nodes r A).targets i y = (hop? nodes i y r).toList ++ A.targets i y := by
  unfold add hop?
  cases hs : nodes.number? r.source with
  | none => simp
  | some k =>
    cases ht : nodes.number? r.target with
    | none => simp
    | some l =>
      have hk : k < A.rows.size := hA ▸ Numbering.lt_size_of_number? hs
      by_cases hki : k = i
      · subst hki
        simp only [targets, Array.getElem?_modify, Array.getElem?_eq_getElem hk, ↓reduceIte,
          Option.map_some, Option.getD_some, List.filterMap_cons, true_and]
        by_cases hy : r.symbol = y <;> simp [hy]
      · simp [targets, Array.getElem?_modify, hki]

theorem targets_ofRules :
    (ofRules nodes rules).targets i y = rules.filterMap (hop? nodes i y) := by
  induction rules with
  | nil => exact targets_empty
  | cons r rules ih =>
    have h : ofRules nodes (r :: rules) = add nodes r (ofRules nodes rules) := rfl
    rw [h, targets_add size_rows_ofRules, ih, List.filterMap_cons]
    cases hop? nodes i y r <;> rfl

/-- **Arrows are rules between numbers.** -/
theorem mem_targets_ofRules :
    j ∈ (ofRules nodes rules).targets i y ↔
      ∃ s t, nodes.number? s = some i ∧ nodes.number? t = some j ∧ ⟨s, y, t⟩ ∈ rules := by
  simp only [targets_ofRules, List.mem_filterMap, hop?_eq_some_iff]
  constructor
  · rintro ⟨⟨s, y', t⟩, hr, hs, rfl, ht⟩
    exact ⟨s, t, hs, ht, hr⟩
  · rintro ⟨s, t, hs, ht, hr⟩
    exact ⟨⟨s, y, t⟩, hr, hs, rfl, ht⟩

end Arrows

end Determinize
