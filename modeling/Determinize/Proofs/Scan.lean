import Determinize.Proofs.Image
import Determinize.Proofs.Path
import Mathlib.Data.List.Basic
import Mathlib.Data.List.Induction

/-!
# The index and the scan

What rules say can be found without any index, by looking at them one after the other
(`RuleIndex.rulesFrom`).  The index finds the same: the targets of a state are those of the rules
that the scan finds, and a set moves as its members do, for states without a number as well as for
those with one (`RuleIndex.index_agreesWithScan`).  On the silent symbol this is a single move, so
that a set may lose members by it.

The states and the alphabet of an index are those of its rules.  The alphabet has an order: a symbol
comes before another if a rule with the first is listed before all rules with the second.  That is
how a numbering lists values (`Numbering.pairwise_idxOf_ofList`), and leaving out the silent moves
first does not disturb it.
-/

namespace Determinize

/-- The index of rules answers as a scan of the rules does. -/
structure RuleIndex.AgreesWithScan (R : RuleIndex) : Prop where
  /-- The targets of a state on a symbol are those of the rules that the scan finds. -/
  targets : ∀ s y, R.targets s y = States.ofList ((R.rulesFrom s y).map Rule.target)
  /-- A set moves to the targets of its members. -/
  image : ∀ S y t, t ∈ R.image S y ↔ ∃ s ∈ S, t ∈ R.targets s y
  /-- On the silent symbol, a set moves to what is exactly one silent move away. -/
  image_silent : ∀ S t, t ∈ R.image S .silent ↔ ∃ s ∈ S, SilentSteps R.rules 1 s t
  /-- The states are the sources and the targets of the rules. -/
  states : ∀ s, s ∈ R.states ↔ ∃ r ∈ R.rules, s = r.source ∨ s = r.target
  /-- The alphabet lists no symbol twice. -/
  alphabet_nodup : R.alphabet.toList.Nodup
  /-- The alphabet consists of the symbols of the rules, without the silent one. -/
  alphabet : ∀ y, y ∈ R.alphabet.toList ↔ y ≠ .silent ∧ ∃ r ∈ R.rules, r.symbol = y
  /-- The symbols are listed in the order in which they first appear in the rules. -/
  alphabet_order : R.alphabet.toList.Pairwise fun y z =>
    (R.rules.map Rule.symbol).idxOf y < (R.rules.map Rule.symbol).idxOf z

/-! ### The order of first appearance -/

section FirstAppearance

variable {α : Type} [DecidableEq α] {l : List α} {a b : α} {p : α → Bool}

/-- Values are numbered in the order in which they first appear. -/
theorem Numbering.pairwise_idxOf_ofList :
    (ofList l).toList.Pairwise fun a b => l.idxOf a < l.idxOf b := by
  induction l using List.reverseRecOn with
  | nil => exact .nil
  | append_singleton l c ih =>
    have hfold : ofList (l ++ [c]) = (ofList l).insert c := List.foldl_append
    -- what has appeared in `l` keeps its place there
    have hplace : ∀ a ∈ (ofList l).toList, (l ++ [c]).idxOf a = l.idxOf a :=
      fun a ha => List.idxOf_append_of_mem (mem_ofList.1 ha)
    have hl : (ofList l).toList.Pairwise fun a b => (l ++ [c]).idxOf a < (l ++ [c]).idxOf b := by
      refine ih.imp_of_mem fun ha hb hab => ?_
      rwa [hplace _ ha, hplace _ hb]
    rw [hfold]
    by_cases hc : c ∈ ofList l
    · rwa [insert_of_mem hc]
    · rw [toList_insert_of_not_mem hc]
      refine List.pairwise_append.2 ⟨hl, List.pairwise_singleton _ _, fun a ha b hb => ?_⟩
      have hcl : c ∉ l := mt mem_ofList.2 hc
      rw [List.mem_singleton.1 hb, hplace a ha, List.idxOf_append_of_notMem hcl]
      exact Nat.lt_add_right _ (List.idxOf_lt_length_of_mem (mem_ofList.1 ha))

/-- Leaving out values does not change the order of the others. -/
theorem idxOf_lt_idxOf_of_filter (hb : p b = true)
    (h : (l.filter p).idxOf a < (l.filter p).idxOf b) : l.idxOf a < l.idxOf b := by
  induction l with
  | nil => exact absurd h (Nat.lt_irrefl _)
  | cons c l ih =>
    cases hc : p c with
    | true =>
      rw [List.filter_cons_of_pos hc] at h
      grind
    | false =>
      rw [List.filter_cons_of_neg (by simp [hc])] at h
      grind

end FirstAppearance

namespace RuleIndex

variable {R : RuleIndex} {S : States} {s t : State} {y : Symbol} {r : Rule State}

/-! ### The scan -/

theorem mem_rulesFrom : r ∈ R.rulesFrom s y ↔ r ∈ R.rules ∧ r.source = s ∧ r.symbol = y := by
  simp [rulesFrom, Rule.fits]

theorem targets_eq_scan : R.targets s y = States.ofList ((R.rulesFrom s y).map Rule.target) := by
  refine States.ext fun t => ?_
  simp only [mem_targets, States.mem_ofList, List.mem_map, mem_rulesFrom]
  constructor
  · intro h
    exact ⟨_, ⟨h, rfl, rfl⟩, rfl⟩
  · rintro ⟨r, ⟨hr, rfl, rfl⟩, rfl⟩
    exact hr

theorem mem_image_iff_targets : t ∈ R.image S y ↔ ∃ s ∈ S, t ∈ R.targets s y := by
  simp only [mem_image, mem_targets]

theorem mem_image_silent :
    t ∈ R.image S .silent ↔ ∃ s ∈ S, SilentSteps R.rules 1 s t := by
  rw [mem_image]
  constructor
  · rintro ⟨s, hs, hr⟩
    exact ⟨s, hs, _, hr, rfl, rfl, rfl⟩
  · rintro ⟨s, hs, ⟨_, _, _⟩, hr, rfl, rfl, rfl⟩
    exact ⟨s, hs, hr⟩

/-! ### The alphabet -/

theorem letters_eq (rules : List (Rule State)) :
    letters rules = (rules.map Rule.symbol).filter fun y => !y.isSilent := by
  rw [letters, List.filter_map]
  rfl

theorem pairwise_alphabet :
    R.alphabet.toList.Pairwise fun y z =>
      (R.rules.map Rule.symbol).idxOf y < (R.rules.map Rule.symbol).idxOf z := by
  have hsilent : ∀ y ∈ R.alphabet.toList, (!y.isSilent) = true := by
    intro y hy
    simpa [Symbol.isSilent] using (mem_alphabet.1 hy).1
  have horder : R.alphabet.toList.Pairwise fun y z =>
      (letters R.rules).idxOf y < (letters R.rules).idxOf z := by
    rw [R.alphabet_eq]
    exact Numbering.pairwise_idxOf_ofList
  refine horder.imp_of_mem fun _ hz hyz => ?_
  rw [letters_eq] at hyz
  exact idxOf_lt_idxOf_of_filter (hsilent _ hz) hyz

theorem agreesWithScan : R.AgreesWithScan where
  targets _ _ := targets_eq_scan
  image _ _ _ := mem_image_iff_targets
  image_silent _ _ := mem_image_silent
  states _ := mem_states.trans mem_nodes
  alphabet_nodup := R.alphabet.nodup
  alphabet _ := mem_alphabet
  alphabet_order := pairwise_alphabet

/-- **The index agrees with the scan.**  Whatever the rules, the index finds the targets of the
rules that a scan finds, moves a set to the targets of its members, and has the states and the
alphabet of the rules, the latter in the order of first appearance.  On the silent symbol the image
of a set is one layer of silent moves, which need not contain the set. -/
theorem index_agreesWithScan :
    (∀ rules, (ofList rules).AgreesWithScan) ∧
    ∃ rules S, ∃ s ∈ S, s ∉ (ofList rules).image S .silent := by
  refine ⟨fun _ => agreesWithScan, [⟨1, .silent, 2⟩], .singleton 1, 1, ?_, ?_⟩
  · exact States.mem_singleton.2 rfl
  · -- the only rule leads away from 1
    simp [mem_image, ofList]

end RuleIndex

end Determinize
