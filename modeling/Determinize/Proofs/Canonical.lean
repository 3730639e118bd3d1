import Determinize.States.Lemmas
import Mathlib.Data.Finset.Card
import Mathlib.Order.Defs.Unbundled

/-!
# Sets of states are canonical

A set of states is kept as an ascending list, and whatever is done to sets, the list stays the
ascending list of the members.  This is said by comparison with finite sets that have no order and
no representation: a sequence of steps (`States.Step`) builds a set of states, and it denotes a
`Finset`; the first has the members of the second (`States.toFinset_build`).  Questions about sets
are then questions about their members.

Sets compare as their lists do, and lists compare lexicographically
(`States.compare_eq_lt_iff`).  As a list is determined by its members, the comparison is a
linear order of the sets (`States.isLinearOrder_compare`).
-/

namespace Determinize

namespace States

variable {S T U : States} {a : State} {l : List State}

/-! ### The members of a set of states -/

/-- The members, without their order. -/
def toFinset (S : States) : Finset State := ⟨S.toList, S.nodup⟩

@[simp] theorem mem_toFinset : a ∈ S.toFinset ↔ a ∈ S := Iff.rfl

theorem toFinset_inj : S.toFinset = T.toFinset ↔ S = T := by
  refine ⟨fun h => ext fun a => ?_, congrArg toFinset⟩
  rw [← mem_toFinset, h, mem_toFinset]

theorem card_toFinset : S.toFinset.card = S.size := rfl

@[simp] theorem toFinset_empty : empty.toFinset = ∅ := rfl

@[simp] theorem toFinset_singleton : (singleton a).toFinset = {a} := rfl

@[simp] theorem toFinset_insert : (S.insert a).toFinset = Insert.insert a S.toFinset :=
  Finset.ext fun b => by simp

@[simp] theorem toFinset_insertAll : (S.insertAll l).toFinset = S.toFinset ∪ l.toFinset :=
  Finset.ext fun b => by simp [or_comm]

@[simp] theorem toFinset_ofList : (ofList l).toFinset = l.toFinset :=
  Finset.ext fun b => by simp

@[simp] theorem toFinset_union : (S.union T).toFinset = S.toFinset ∪ T.toFinset :=
  Finset.ext fun b => by simp

@[simp] theorem toFinset_diff : (S.diff T).toFinset = S.toFinset \ T.toFinset :=
  Finset.ext fun b => by simp

/-! ### Sequences of steps -/

/-- A step in the making of a set.  The set that is added or taken away has itself been made by a
sequence of steps. -/
inductive Step where
  /-- Begin anew without members. -/
  | empty
  /-- Begin anew with one member. -/
  | singleton (a : State)
  /-- Begin anew with the states of a list. -/
  | ofList (l : List State)
  /-- Add a state. -/
  | insert (a : State)
  /-- Add the states of a list. -/
  | insertAll (l : List State)
  /-- Add the members of another set. -/
  | union (other : List Step)
  /-- Take the members of another set away. -/
  | diff (other : List Step)

namespace Step

mutual

/-- The set that a step makes of a set. -/
def apply (S : States) : Step → States
  | .empty => States.empty
  | .singleton a => States.singleton a
  | .ofList l => States.ofList l
  | .insert a => S.insert a
  | .insertAll l => S.insertAll l
  | .union other => S.union (applyAll States.empty other)
  | .diff other => S.diff (applyAll States.empty other)

/-- The set that steps make of a set, one after the other. -/
def applyAll (S : States) : List Step → States
  | [] => S
  | p :: steps => applyAll (p.apply S) steps

end

mutual

/-- The members after a step. -/
def denote (s : Finset State) : Step → Finset State
  | .empty => ∅
  | .singleton a => {a}
  | .ofList l => l.toFinset
  | .insert a => Insert.insert a s
  | .insertAll l => s ∪ l.toFinset
  | .union other => s ∪ denoteAll ∅ other
  | .diff other => s \ denoteAll ∅ other

/-- The members after steps, one after the other. -/
def denoteAll (s : Finset State) : List Step → Finset State
  | [] => s
  | p :: steps => denoteAll (p.denote s) steps

end

mutual

/-- A step does to a set what it does to the members. -/
theorem toFinset_apply (S : States) : ∀ p : Step, (p.apply S).toFinset = p.denote S.toFinset
  | .empty => by simp [apply, denote]
  | .singleton a => by simp [apply, denote]
  | .ofList l => by simp [apply, denote]
  | .insert a => by simp [apply, denote]
  | .insertAll l => by simp [apply, denote]
  | .union other => by simp [apply, denote, toFinset_applyAll States.empty other]
  | .diff other => by simp [apply, denote, toFinset_applyAll States.empty other]

/-- Steps do to a set what they do to the members. -/
theorem toFinset_applyAll (S : States) :
    ∀ steps : List Step, (applyAll S steps).toFinset = denoteAll S.toFinset steps
  | [] => rfl
  | p :: steps => by
    rw [applyAll, denoteAll, toFinset_applyAll (p.apply S) steps, toFinset_apply S p]

end

end Step

/-- The set that a sequence of steps builds, the first of which finds no members. -/
def build (steps : List Step) : States := Step.applyAll empty steps

/-- The members that a sequence of steps denotes. -/
def denoted (steps : List Step) : Finset State := Step.denoteAll ∅ steps

theorem toFinset_build (steps : List Step) : (build steps).toFinset = denoted steps :=
  Step.toFinset_applyAll empty steps

/-! ### Questions -/

theorem contains_eq : S.contains a = decide (a ∈ S.toFinset) := rfl

theorem isEmpty_eq : S.isEmpty = decide (S.toFinset = ∅) := by
  rw [Bool.eq_iff_iff, isEmpty_iff, decide_eq_true_iff, ← toFinset_empty, toFinset_inj]

theorem isSubsetOf_eq : S.isSubsetOf T = decide (S.toFinset ⊆ T.toFinset) := by
  rw [Bool.eq_iff_iff, isSubsetOf_iff, decide_eq_true_iff]
  exact Iff.rfl

theorem meets_eq : S.meets T = decide (S.toFinset ∩ T.toFinset).Nonempty := by
  rw [Bool.eq_iff_iff, meets_iff, decide_eq_true_iff]
  simp only [Finset.Nonempty, Finset.mem_inter, mem_toFinset]

/-! ### The order of sets -/

instance : Std.TransOrd States where
  eq_swap := Std.OrientedOrd.eq_swap (α := List State)
  isLE_trans := Std.TransOrd.isLE_trans (α := List State)

instance : Std.LawfulEqOrd States where
  compare_self := Std.ReflOrd.compare_self (α := List State)
  eq_of_compare h := toList_injective (Std.LawfulEqOrd.eq_of_compare h)

/-- Lists of states compare lexicographically. -/
theorem compare_list_eq_lt_iff {l m : List State} :
    compare l m = .lt ↔ List.Lex (· < ·) l m := by
  induction l generalizing m with
  | nil => cases m <;> simp
  | cons a l ih =>
    cases m with
    | nil => simp
    | cons b m =>
      rw [List.compare_cons_cons, Ordering.then_eq_lt, Std.compare_eq_lt, ih,
        List.cons_lex_cons_iff, Std.compare_eq_iff_eq]

theorem compare_eq_lt_iff : compare S T = .lt ↔ List.Lex (· < ·) S.toList T.toList :=
  compare_list_eq_lt_iff

theorem compare_eq_gt_iff : compare S T = .gt ↔ List.Lex (· < ·) T.toList S.toList :=
  Std.OrientedCmp.gt_iff_lt.trans compare_eq_lt_iff

/-- One of two sets is at most as great as the other. -/
theorem isLE_compare_total : (compare S T).isLE = true ∨ (compare T S).isLE = true := by
  have hswap : compare T S = (compare S T).swap := Std.OrientedOrd.eq_swap
  rw [hswap]
  cases compare S T <;> simp

theorem isLinearOrder_compare : IsLinearOrder States fun S T => (compare S T).isLE = true where
  refl _ := Std.ReflOrd.isLE_rfl
  trans _ _ _ := Std.TransOrd.isLE_trans
  antisymm _ _ hST hTS := Std.LawfulEqOrd.eq_of_compare (Std.OrientedCmp.isLE_antisymm hST hTS)
  total _ _ := isLE_compare_total

/-! ### Sets built by steps -/

/-- A set of states lists given members: its list is the ascending list of them, and what it says
of a state and of its size is true of them. -/
structure Lists (S : States) (s : Finset State) : Prop where
  /-- The list is strictly ascending. -/
  ascending : S.toList.Pairwise (· < ·)
  /-- The list consists of the members. -/
  mem_toList : ∀ a, a ∈ S.toList ↔ a ∈ s
  /-- A state is contained if it is a member. -/
  contains : ∀ a, S.contains a = decide (a ∈ s)
  /-- The set is empty if there are no members. -/
  isEmpty : S.isEmpty = decide (s = ∅)
  /-- The size is the number of members. -/
  size : S.size = s.card

/-- Two sets of states compare as their members do. -/
structure CompareAs (S T : States) (s t : Finset State) : Prop where
  /-- A set is part of another if its members are. -/
  isSubsetOf : S.isSubsetOf T = decide (s ⊆ t)
  /-- Sets meet if they have a member in common. -/
  meets : S.meets T = decide (s ∩ t).Nonempty
  /-- The difference lists the members of the one that are not members of the other. -/
  diff : (S.diff T).Lists (s \ t)
  /-- Sets are equal if they have the same members. -/
  eq_iff : S = T ↔ s = t
  /-- A set is the smaller if its list comes first lexicographically. -/
  lt_iff : compare S T = .lt ↔ List.Lex (· < ·) S.toList T.toList
  /-- A set is the greater if the other list comes first. -/
  gt_iff : compare S T = .gt ↔ List.Lex (· < ·) T.toList S.toList
  /-- No set comes first only if the sets are equal. -/
  eq_iff_compare : compare S T = .eq ↔ S = T

theorem lists_toFinset : S.Lists S.toFinset where
  ascending := S.sorted
  mem_toList _ := Iff.rfl
  contains _ := contains_eq
  isEmpty := isEmpty_eq
  size := card_toFinset.symm

theorem compareAs_toFinset : CompareAs S T S.toFinset T.toFinset where
  isSubsetOf := isSubsetOf_eq
  meets := meets_eq
  diff := toFinset_diff ▸ lists_toFinset
  eq_iff := toFinset_inj.symm
  lt_iff := compare_eq_lt_iff
  gt_iff := compare_eq_gt_iff
  eq_iff_compare := Std.LawfulEqOrd.compare_eq_iff_eq

/-- **A set of states is determined by its members, however it was built.**  Whatever the steps, the
set lists the members that they denote, two sets compare as their members do, and the order of
sets, which is the lexicographic order of their lists, is linear. -/
theorem build_canonical :
    (∀ steps, (build steps).Lists (denoted steps)) ∧
    (∀ steps steps',
      CompareAs (build steps) (build steps') (denoted steps) (denoted steps')) ∧
    IsLinearOrder States fun S T => (compare S T).isLE = true := by
  refine ⟨fun steps => ?_, fun steps steps' => ?_, isLinearOrder_compare⟩
  · rw [← toFinset_build]
    exact lists_toFinset
  · rw [← toFinset_build, ← toFinset_build]
    exact compareAs_toFinset

example : build [.insert 4, .insert 1, .union [.singleton 7, .insert 4], .diff [.ofList [7, 9]]] =
    build [.ofList [1, 4]] := by decide

end States

end Determinize
