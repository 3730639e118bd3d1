/-!
# Sets of states

The machine's memory is a set of states. A set is kept as the ascending list of its members, so
equal sets are equal values, whatever the order in which their members arrived, and a set can
itself serve as a state of another machine.

## Main definitions

* `State` : a state of a machine, a 32-bit number.
* `States` : a finite set of states.
* `States.insert`, `States.ofList`, `States.union`, `States.filter`, `States.diff` :
  building sets.
* `States.contains`, `States.isSubsetOf`, `States.meets` : the questions that can be asked.

Sets are ordered as their ascending lists, lexicographically.
-/

namespace Determinize

/-- A state of a machine. Any number may serve as a state. -/
abbrev State := UInt32

/-- A finite set of states. -/
structure States where
  /-- The members in ascending order. -/
  toList : List State
  /-- No member is listed twice or out of order. -/
  sorted : toList.Pairwise (· < ·)
  deriving DecidableEq

namespace States

/-- Put a state at its place in an ascending list, unless it is there already. -/
def insertAscending (a : State) : List State → List State
  | [] => [a]
  | b :: l => if a < b then a :: b :: l else if a = b then b :: l else b :: insertAscending a l

theorem mem_insertAscending {a b : State} {l : List State} :
    b ∈ insertAscending a l ↔ b = a ∨ b ∈ l := by
  induction l with
  | nil => simp [insertAscending]
  | cons c l ih =>
    unfold insertAscending
    split
    · simp
    · split
      · next h => subst h; simp
      · simp only [List.mem_cons, ih]; grind

theorem pairwise_insertAscending {a : State} {l : List State} (h : l.Pairwise (· < ·)) :
    (insertAscending a l).Pairwise (· < ·) := by
  induction l with
  | nil => simp [insertAscending]
  | cons c l ih =>
    obtain ⟨hc, hl⟩ := List.pairwise_cons.1 h
    unfold insertAscending
    split
    · next hac =>
      refine List.pairwise_cons.2 ⟨fun b hb => ?_, h⟩
      rcases List.mem_cons.1 hb with rfl | hb
      · exact hac
      · exact UInt32.lt_trans hac (hc b hb)
    · split
      · exact h
      · next hac hne =>
        refine List.pairwise_cons.2 ⟨fun b hb => ?_, ih hl⟩
        rcases mem_insertAscending.1 hb with rfl | hb
        · exact UInt32.lt_of_le_of_ne (UInt32.not_lt.1 hac) (Ne.symm hne)
        · exact hc b hb

/-- A state is a member if the list shows it. -/
instance : Membership State States := ⟨fun S a => a ∈ S.toList⟩

instance (a : State) (S : States) : Decidable (a ∈ S) :=
  inferInstanceAs (Decidable (a ∈ S.toList))

/-- The set without members. -/
def empty : States := ⟨[], .nil⟩

/-- The set with one member. -/
def singleton (a : State) : States := ⟨[a], List.pairwise_singleton _ a⟩

/-- The set with one member more. -/
def insert (S : States) (a : State) : States :=
  ⟨insertAscending a S.toList, pairwise_insertAscending S.sorted⟩

/-- The set with all states of a list added, in whatever order and however often they occur. -/
def insertAll (S : States) (l : List State) : States := l.foldr (fun a T => T.insert a) S

/-- The set of the states of a list. -/
def ofList (l : List State) : States := empty.insertAll l

/-- The members of either set. -/
def union (S T : States) : States := S.insertAll T.toList

/-- The members that pass a test. -/
def filter (p : State → Bool) (S : States) : States := ⟨S.toList.filter p, S.sorted.filter p⟩

/-- The members of the first set that are not in the second. -/
def diff (S T : States) : States := S.filter fun a => !decide (a ∈ T)

/-- Whether a state is a member. -/
def contains (S : States) (a : State) : Bool := a ∈ S

/-- Whether there are no members. -/
def isEmpty (S : States) : Bool := S.toList.isEmpty

/-- The number of members. -/
def size (S : States) : Nat := S.toList.length

/-- Whether every member of the first set is in the second. -/
def isSubsetOf (S T : States) : Bool := S.toList.all fun a => decide (a ∈ T)

/-- Whether the two sets have a member in common. -/
def meets (S T : States) : Bool := S.toList.any fun a => decide (a ∈ T)

/-- Sets compare as their ascending lists: the first difference decides, and a list that the other
continues is the smaller. -/
instance : Ord States := ⟨fun S T => compare S.toList T.toList⟩

end States

end Determinize
