import Determinize.Proofs.Image
import Determinize.SubsetDfa
import Mathlib.Data.List.Nodup

/-!
# Rows of arrows and hash maps

The arrows of a number stand in one row, and whoever asks for those on a symbol goes through the
row.  The other way to keep them is a hash map whose keys are a number and a symbol
(`Arrows.keyed`).  It is filled rule by rule, and each rule changes what is kept under its own key
only, so what a key holds in the end comes of the targets in the row, one after the other
(`Arrows.getElem?_keyed`).

Two such maps do the work of rows.  In the map of an index, rules with the same key share a mask
(`RuleIndex.masks`); it finds the same targets and moves masks alike (`RuleIndex.maskTargets_eq`,
`RuleIndex.maskStep_eq`).  In the map of a deterministic machine the last rule with a key prevails,
and a move looked up there is the move looked up in the rows (`SubsetDfa.next?_ofSearch`).
-/

namespace Determinize

/-- Symbols are hashed as their numbers. -/
instance : Hashable Symbol := ⟨fun y => hash y.id⟩

namespace Arrows

section Keyed

variable {σ β : Type} [DecidableEq σ] (put : Option β → ℕ → β) (nodes : Numbering σ)

/-- Keep a rule under the number of its source and its symbol: `put` takes what is kept there, if
anything is, and the number of the target.  A rule whose ends have no numbers is not kept. -/
def keep (m : Std.HashMap (ℕ × Symbol) β) (r : Rule σ) : Std.HashMap (ℕ × Symbol) β :=
  match nodes.number? r.source, nodes.number? r.target with
  | some i, some j => m.alter (i, r.symbol) fun b => some (put b j)
  | _, _ => m

/-- The hash map of a list of rules. -/
def keyed (rules : List (Rule σ)) : Std.HashMap (ℕ × Symbol) β := rules.foldl (keep put nodes) ∅

/-- For each number and symbol the mask of the numbers that rules lead to. -/
def masks : List (Rule σ) → Std.HashMap (ℕ × Symbol) Mask :=
  keyed (fun m j => (m.getD .empty).insert j) nodes

/-- For each number and symbol the number that the last rule leads to. -/
def lasts : List (Rule σ) → Std.HashMap (ℕ × Symbol) ℕ := keyed (fun _ j => j) nodes

end Keyed

variable {σ β : Type} [DecidableEq σ] {put : Option β → ℕ → β} {nodes : Numbering σ}
  {rules : List (Rule σ)} {r : Rule σ} {m : Std.HashMap (ℕ × Symbol) β} {i : ℕ} {y : Symbol}

/-- A rule changes what is kept under its own key. -/
theorem getElem?_keep :
    (keep put nodes m r)[(i, y)]? =
      (hop? nodes i y r).toList.foldl (fun b j => some (put b j)) m[(i, y)]? := by
  unfold keep hop?
  cases hs : nodes.number? r.source with
  | none => simp
  | some k =>
    cases ht : nodes.number? r.target with
    | none => simp
    | some l =>
      -- under the rule's own key the target has been put, and all other keys are as they were
      simp only [Std.HashMap.getElem?_alter, beq_iff_eq, Prod.mk.injEq, Option.some.injEq]
      split <;> simp_all

theorem getElem?_foldl_keep :
    (rules.foldl (keep put nodes) m)[(i, y)]? =
      (rules.filterMap (hop? nodes i y)).foldl (fun b j => some (put b j)) m[(i, y)]? := by
  induction rules generalizing m with
  | nil => rfl
  | cons r rules ih =>
    rw [List.foldl_cons, ih, getElem?_keep, List.filterMap_cons]
    cases hop? nodes i y r <;> rfl

/-- **A key holds** what the targets in its row have made of nothing, one after the other. -/
theorem getElem?_keyed :
    (keyed put nodes rules)[(i, y)]? =
      ((ofRules nodes rules).targets i y).foldl (fun b j => some (put b j)) none := by
  rw [keyed, getElem?_foldl_keep, targets_ofRules, Std.HashMap.getElem?_empty]

theorem getD_foldl_insert {l : List ℕ} {b : Option Mask} :
    (l.foldl (fun b j => some ((b.getD .empty).insert j)) b).getD .empty =
      l.foldl Mask.insert (b.getD .empty) := by
  induction l generalizing b with
  | nil => rfl
  | cons j l ih => exact ih

/-- The mask under a key is that of the targets in the row. -/
theorem getD_masks :
    (masks nodes rules)[(i, y)]?.getD .empty = Mask.ofList ((ofRules nodes rules).targets i y) := by
  rw [masks, getElem?_keyed]
  exact getD_foldl_insert

theorem foldl_some {l : List ℕ} {b : Option ℕ} :
    l.foldl (fun _ j => some j) b = l.getLast?.or b := by
  induction l generalizing b with
  | nil => rfl
  | cons j l ih =>
    rw [List.foldl_cons, ih, List.getLast?_cons]
    cases l.getLast? <;> rfl

/-- The number under a key is the last target in the row. -/
theorem getElem?_lasts :
    (lasts nodes rules)[(i, y)]? = ((ofRules nodes rules).targets i y).getLast? := by
  rw [lasts, getElem?_keyed, foldl_some, Option.or_none]

end Arrows

namespace Mask

variable {m : Mask} {l : List ℕ} {f : ℕ → Option Mask} {j : ℕ}

/-- Add the masks that some of the numbers in a list have. -/
theorem mem_foldl_union :
    j ∈ l.foldl (fun k i => match f i with | some n => k.union n | none => k) m ↔
      j ∈ m ∨ ∃ i ∈ l, j ∈ (f i).getD .empty := by
  induction l generalizing m with
  | nil => simp
  | cons i l ih =>
    rw [List.foldl_cons, ih, List.exists_mem_cons_iff, ← or_assoc]
    cases f i <;> simp

end Mask

namespace RuleIndex

section Masks

variable (R : RuleIndex)

/-- The masks of an index: for each number and symbol, where the rules lead. -/
def masks : Std.HashMap (ℕ × Symbol) Mask := Arrows.masks R.nodes R.rules

/-- The states that the rules from a state on a symbol lead to, found in the masks. -/
def maskTargets (s : State) (y : Symbol) : States :=
  match (R.nodes.number? s).bind fun i => R.masks[(i, y)]? with
  | some m => R.decode m
  | none => .empty

/-- The numbers that rules on a symbol lead to from the numbers in a mask, mask added to mask. -/
def maskStep (m : Mask) (y : Symbol) : Mask :=
  (m.members R.nodes.size).foldl (fun k i => match R.masks[(i, y)]? with
    | some n => k.union n
    | none => k) .empty

end Masks

variable {R : RuleIndex} {s t : State} {m : Mask} {i j : ℕ} {y : Symbol}

theorem mem_getD_masks :
    j ∈ R.masks[(i, y)]?.getD .empty ↔ j ∈ R.arrows.targets i y := by
  rw [masks, Arrows.getD_masks, Mask.mem_ofList, R.arrows_eq]

/-- **Masks find the targets** that rows of arrows find. -/
theorem maskTargets_eq : R.maskTargets s y = R.targets s y := by
  unfold maskTargets targets
  cases R.nodes.number? s with
  | none => rfl
  | some i =>
    refine States.ext fun t => ?_
    simp only [Option.bind_some, States.mem_ofList, List.mem_filterMap, ← mem_getD_masks,
      ← Numbering.number?_eq_some_iff]
    cases R.masks[(i, y)]? with
    | none => simp
    | some n => exact mem_decode

/-- **Masks move masks** as rows of arrows do. -/
theorem maskStep_eq : R.maskStep m y = R.step m y := by
  refine Mask.ext fun j => ?_
  simp only [maskStep, step, Mask.mem_foldl_union, Mask.not_mem_empty, false_or, mem_getD_masks,
    Mask.mem_ofList, List.mem_flatMap]

end RuleIndex

namespace SubsetDfa

variable {M : Nfa} {s : Search States} {S : States} {y : Symbol}

/-- **A move is looked up** as in a map in which the last move with a key prevails. -/
theorem next?_ofSearch :
    (ofSearch M s).next? S y = (do
      let i ← s.found.number? S
      let j ← (Arrows.lasts s.found s.moves.toList)[(i, y)]?
      s.found.get? j) := by
  simp only [Arrows.getElem?_lasts]
  rfl

end SubsetDfa

end Determinize
