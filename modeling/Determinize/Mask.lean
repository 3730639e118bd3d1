/-!
# Bit masks

A finite set of numbers, kept as the bits of one number: `i` is a member if bit `i` is set.

## Main definitions

* `Mask` : a set of numbers; `Mask.ofList`, `Mask.insert`, `Mask.union`, `Mask.diff` build masks.
* `Mask.members` : the members below a bound, in ascending order.

Every operation is described by the membership in its result.
-/

namespace Determinize

/-- A finite set of numbers. -/
structure Mask where
  /-- Bit `i` of this number tells whether `i` is a member. -/
  bits : Nat
  deriving DecidableEq

namespace Mask

/-- A number is a member if its bit is set. -/
instance : Membership Nat Mask := ⟨fun m i => m.bits.testBit i = true⟩

instance (i : Nat) (m : Mask) : Decidable (i ∈ m) :=
  inferInstanceAs (Decidable (m.bits.testBit i = true))

/-- The mask without members. -/
def empty : Mask := ⟨0⟩

/-- The mask with one member more. -/
def insert (m : Mask) (i : Nat) : Mask := ⟨m.bits ||| 1 <<< i⟩

/-- The mask of the numbers of a list. -/
def ofList (l : List Nat) : Mask := l.foldl insert empty

/-- The members of either mask. -/
def union (m k : Mask) : Mask := ⟨m.bits ||| k.bits⟩

/-- The members of the first mask that are not in the second. -/
def diff (m k : Mask) : Mask := ⟨m.bits ^^^ (m.bits &&& k.bits)⟩

/-- Whether there are no members. -/
def isEmpty (m : Mask) : Bool := m.bits = 0

/-- The members below `n`, in ascending order. -/
def members (m : Mask) (n : Nat) : List Nat := (List.range n).filter fun i => decide (i ∈ m)

/-! ### Membership -/

variable {m k : Mask} {i j n : Nat} {l : List Nat}

theorem mem_def : i ∈ m ↔ m.bits.testBit i = true := Iff.rfl

@[simp] theorem not_mem_empty : i ∉ empty := by simp [mem_def, empty]

@[simp] theorem mem_insert : i ∈ m.insert j ↔ i = j ∨ i ∈ m := by
  simp only [mem_def, insert, Nat.testBit_or, Bool.or_eq_true, Nat.one_shiftLeft,
    Nat.testBit_two_pow, decide_eq_true_eq]
  grind

theorem mem_foldl_insert : i ∈ l.foldl insert m ↔ i ∈ l ∨ i ∈ m := by
  induction l generalizing m with
  | nil => simp
  | cons j l ih => rw [List.foldl_cons, ih, mem_insert, List.mem_cons]; grind

@[simp] theorem mem_ofList : i ∈ ofList l ↔ i ∈ l := by simp [ofList, mem_foldl_insert]

@[simp] theorem mem_union : i ∈ m.union k ↔ i ∈ m ∨ i ∈ k := by simp [mem_def, union]

@[simp] theorem mem_diff : i ∈ m.diff k ↔ i ∈ m ∧ i ∉ k := by
  simp only [mem_def, diff, Nat.testBit_xor, Nat.testBit_and]
  cases m.bits.testBit i <;> cases k.bits.testBit i <;> simp

@[simp] theorem mem_members : i ∈ m.members n ↔ i < n ∧ i ∈ m := by simp [members]

/-- A mask is determined by its members. -/
theorem ext (h : ∀ i, i ∈ m ↔ i ∈ k) : m = k := by
  cases m; cases k
  congr 1
  exact Nat.eq_of_testBit_eq fun i => Bool.eq_iff_iff.2 (h i)

@[simp] theorem isEmpty_iff : m.isEmpty = true ↔ ∀ i, i ∉ m := by
  simp only [isEmpty, decide_eq_true_eq]
  refine ⟨fun h i hi => ?_, fun h => ?_⟩
  · rw [mem_def, h, Nat.zero_testBit] at hi
    exact Bool.false_ne_true hi
  · have : m = empty := ext fun i => ⟨fun hi => absurd hi (h i), fun hi => absurd hi not_mem_empty⟩
    rw [this, empty]

end Mask

end Determinize
