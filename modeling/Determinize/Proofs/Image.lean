import Determinize.Proofs.Arrows
import Determinize.RuleIndex.Basic
import Determinize.States.Lemmas

/-!
# The index of a list of rules moves sets as its rules say

A set of states is moved on bit masks, through the numbering of the states and the rows of
arrows.  `RuleIndex.mem_image` says what comes out in terms of the rules alone: the states that
some rule on the symbol leads to from a member of the set.  States that no rule mentions have no
number; they are dropped on the way in and cannot come out.
-/

namespace Determinize

theorem mem_endpoints {rules : List (Rule State)} {s : State} :
    s ∈ endpoints rules ↔ ∃ r ∈ rules, s = r.source ∨ s = r.target := by
  simp [endpoints]

theorem mem_letters {rules : List (Rule State)} {y : Symbol} :
    y ∈ letters rules ↔ y ≠ .silent ∧ ∃ r ∈ rules, r.symbol = y := by
  simp only [letters, List.mem_map, List.mem_filter, Rule.isSilent, Symbol.isSilent]
  constructor
  · rintro ⟨r, ⟨hr, hs⟩, rfl⟩
    exact ⟨by simpa using hs, r, hr, rfl⟩
  · rintro ⟨hs, r, hr, rfl⟩
    exact ⟨r, ⟨hr, by simpa using hs⟩, rfl⟩

namespace RuleIndex

variable {R : RuleIndex} {S : States} {s t : State} {y : Symbol} {m : Mask} {i j : Nat}

theorem mem_nodes : s ∈ R.nodes ↔ ∃ r ∈ R.rules, s = r.source ∨ s = r.target := by
  rw [R.nodes_eq, Numbering.mem_ofList, mem_endpoints]

theorem source_mem_nodes (h : ⟨s, y, t⟩ ∈ R.rules) : s ∈ R.nodes :=
  mem_nodes.2 ⟨_, h, .inl rfl⟩

theorem target_mem_nodes (h : ⟨s, y, t⟩ ∈ R.rules) : t ∈ R.nodes :=
  mem_nodes.2 ⟨_, h, .inr rfl⟩

theorem mem_alphabet : y ∈ R.alphabet ↔ y ≠ .silent ∧ ∃ r ∈ R.rules, r.symbol = y := by
  rw [R.alphabet_eq, Numbering.mem_ofList, mem_letters]

@[simp] theorem mem_states : s ∈ R.states ↔ s ∈ R.nodes := by
  rw [states, States.mem_ofList, Numbering.mem_toList]

/-! ### Masks of states -/

theorem mem_encode : i ∈ R.encode S ↔ ∃ s ∈ S, R.nodes.number? s = some i := by
  simp [encode]

theorem mem_decode : s ∈ R.decode m ↔ ∃ i ∈ m, R.nodes.number? s = some i := by
  simp [decode]

/-- A state is decoded from a mask if its number is in the mask. -/
theorem mem_decode_of_number? (hi : R.nodes.number? s = some i) : s ∈ R.decode m ↔ i ∈ m := by
  rw [mem_decode]
  constructor
  · rintro ⟨j, hj, hj'⟩
    rwa [← Option.some.inj (hj'.symm.trans hi)]
  · intro h
    exact ⟨i, h, hi⟩

theorem mem_step :
    j ∈ R.step m y ↔ ∃ s t, ⟨s, y, t⟩ ∈ R.rules ∧ (∃ i ∈ m, R.nodes.number? s = some i) ∧
      R.nodes.number? t = some j := by
  simp only [step, Mask.mem_ofList, List.mem_flatMap, Mask.mem_members, R.arrows_eq,
    Arrows.mem_targets_ofRules]
  constructor
  · rintro ⟨i, ⟨-, hi⟩, s, t, hs, ht, hr⟩
    exact ⟨s, t, hr, ⟨i, hi, hs⟩, ht⟩
  · rintro ⟨s, t, hr, ⟨i, hi, hs⟩, ht⟩
    exact ⟨i, ⟨Numbering.lt_size_of_number? hs, hi⟩, s, t, hs, ht, hr⟩

/-- Encoding drops the states that no rule mentions. -/
@[simp] theorem mem_decode_encode : t ∈ R.decode (R.encode S) ↔ t ∈ S ∧ t ∈ R.nodes := by
  simp only [mem_decode, mem_encode]
  constructor
  · rintro ⟨i, ⟨s, hs, hi⟩, ht⟩
    exact ⟨Numbering.number?_inj ht hi ▸ hs, Numbering.mem_of_number? ht⟩
  · rintro ⟨hS, hn⟩
    obtain ⟨i, hi⟩ := Numbering.exists_number? hn
    exact ⟨i, ⟨t, hS, hi⟩, hi⟩

/-- Moving a mask moves the states it stands for. -/
@[simp] theorem mem_decode_step :
    t ∈ R.decode (R.step m y) ↔ ∃ s ∈ R.decode m, ⟨s, y, t⟩ ∈ R.rules := by
  simp only [mem_decode, mem_step]
  constructor
  · rintro ⟨j, ⟨s, t', hr, hs, hj⟩, ht⟩
    exact ⟨s, hs, Numbering.number?_inj ht hj ▸ hr⟩
  · rintro ⟨s, hs, hr⟩
    obtain ⟨j, hj⟩ := Numbering.exists_number? (target_mem_nodes hr)
    exact ⟨j, ⟨s, t, hr, hs, hj⟩, hj⟩

/-! ### The image of a set -/

/-- **The image of a set** under a symbol is where the rules on that symbol lead from the
members of the set. -/
theorem mem_image : t ∈ R.image S y ↔ ∃ s ∈ S, ⟨s, y, t⟩ ∈ R.rules := by
  simp only [image, mem_decode_step, mem_decode_encode]
  constructor
  · rintro ⟨s, ⟨hs, -⟩, hr⟩
    exact ⟨s, hs, hr⟩
  · rintro ⟨s, hs, hr⟩
    exact ⟨s, ⟨hs, source_mem_nodes hr⟩, hr⟩

/-- The index finds the targets of the rules from a state on a symbol. -/
theorem mem_targets : t ∈ R.targets s y ↔ ⟨s, y, t⟩ ∈ R.rules := by
  unfold targets
  cases hs : R.nodes.number? s with
  | none =>
    refine iff_of_false States.not_mem_empty fun hr => ?_
    obtain ⟨i, hi⟩ := Numbering.exists_number? (source_mem_nodes hr)
    rw [hs] at hi
    cases hi
  | some i =>
    simp only [States.mem_ofList, List.mem_filterMap, R.arrows_eq, Arrows.mem_targets_ofRules,
      ← Numbering.number?_eq_some_iff]
    constructor
    · rintro ⟨j, ⟨s', t', hs', hj, hr⟩, ht⟩
      rw [Numbering.number?_inj hs hs', Numbering.number?_inj ht hj]
      exact hr
    · intro hr
      obtain ⟨j, hj⟩ := Numbering.exists_number? (target_mem_nodes hr)
      exact ⟨j, ⟨s, t, hs, hj, hr⟩, hj⟩

theorem image_empty : R.image .empty y = .empty :=
  States.ext fun t => by simp [mem_image]

/-- A symbol that no rule reads, the silent symbol aside, leads nowhere. -/
theorem image_eq_empty (hs : y ≠ .silent) (hy : y ∉ R.alphabet) : R.image S y = .empty := by
  refine States.ext fun t => ⟨fun ht => ?_, fun ht => absurd ht States.not_mem_empty⟩
  obtain ⟨s, -, hr⟩ := mem_image.1 ht
  exact absurd (mem_alphabet.2 ⟨hs, _, hr, rfl⟩) hy

theorem image_subset_nodes (ht : t ∈ R.image S y) : t ∈ R.nodes := by
  obtain ⟨s, -, hr⟩ := mem_image.1 ht
  exact target_mem_nodes hr

end RuleIndex

end Determinize
