import Determinize.States.Basic

/-!
# Membership in sets of states

Every operation on sets is described by which states are members of its result, and two sets with
the same members are equal (`States.ext`).
-/

namespace Determinize

namespace States

variable {S T : States} {a b : State} {l : List State} {p : State → Bool}

@[simp] theorem mem_toList : a ∈ S.toList ↔ a ∈ S := Iff.rfl

@[simp] theorem not_mem_empty : a ∉ empty := List.not_mem_nil

@[simp] theorem mem_singleton : a ∈ singleton b ↔ a = b := List.mem_singleton

@[simp] theorem mem_insert : a ∈ S.insert b ↔ a = b ∨ a ∈ S := mem_insertAscending

@[simp] theorem mem_insertAll : a ∈ S.insertAll l ↔ a ∈ l ∨ a ∈ S := by
  induction l with
  | nil => simp [insertAll]
  | cons b l ih =>
    have h : S.insertAll (b :: l) = (S.insertAll l).insert b := rfl
    rw [h, mem_insert, ih, List.mem_cons, or_assoc]

@[simp] theorem mem_ofList : a ∈ ofList l ↔ a ∈ l := by simp [ofList]

@[simp] theorem mem_union : a ∈ S.union T ↔ a ∈ S ∨ a ∈ T := by
  simp [union, or_comm]

@[simp] theorem mem_filter : a ∈ S.filter p ↔ a ∈ S ∧ p a = true := List.mem_filter

@[simp] theorem mem_diff : a ∈ S.diff T ↔ a ∈ S ∧ a ∉ T := by simp [diff]

@[simp] theorem contains_iff : S.contains a = true ↔ a ∈ S := by simp [contains]

@[simp] theorem isSubsetOf_iff : S.isSubsetOf T = true ↔ ∀ a ∈ S, a ∈ T := by
  simp [isSubsetOf]

@[simp] theorem meets_iff : S.meets T = true ↔ ∃ a ∈ S, a ∈ T := by
  simp [meets]

/-- Two ascending lists with the same members are the same list. -/
theorem eq_of_ascending {l m : List State} (hl : l.Pairwise (· < ·)) (hm : m.Pairwise (· < ·))
    (h : ∀ a, a ∈ l ↔ a ∈ m) : l = m := by
  induction l generalizing m with
  | nil =>
    cases m with
    | nil => rfl
    | cons b m => exact absurd ((h b).2 List.mem_cons_self) List.not_mem_nil
  | cons a l ih =>
    cases m with
    | nil => exact absurd ((h a).1 List.mem_cons_self) List.not_mem_nil
    | cons b m =>
      obtain ⟨ha, hl'⟩ := List.pairwise_cons.1 hl
      obtain ⟨hb, hm'⟩ := List.pairwise_cons.1 hm
      have hab : a = b := by
        rcases List.mem_cons.1 ((h a).1 List.mem_cons_self) with hab | ham
        · exact hab
        rcases List.mem_cons.1 ((h b).2 List.mem_cons_self) with hba | hbl
        · exact hba.symm
        · exact absurd (UInt32.lt_trans (ha b hbl) (hb a ham)) (UInt32.lt_irrefl a)
      subst hab
      congr 1
      refine ih hl' hm' fun c => ⟨fun hc => ?_, fun hc => ?_⟩
      · rcases List.mem_cons.1 ((h c).1 (List.mem_cons_of_mem _ hc)) with rfl | hc'
        · exact absurd (ha c hc) (UInt32.lt_irrefl c)
        · exact hc'
      · rcases List.mem_cons.1 ((h c).2 (List.mem_cons_of_mem _ hc)) with rfl | hc'
        · exact absurd (hb c hc) (UInt32.lt_irrefl c)
        · exact hc'

theorem toList_injective (h : S.toList = T.toList) : S = T := by
  cases S; cases T; cases h; rfl

/-- A set is determined by its members. -/
theorem ext (h : ∀ a, a ∈ S ↔ a ∈ T) : S = T :=
  toList_injective (eq_of_ascending S.sorted T.sorted h)

/-- No member is listed twice. -/
theorem nodup (S : States) : S.toList.Nodup := S.sorted.imp UInt32.ne_of_lt

@[simp] theorem isEmpty_iff : S.isEmpty = true ↔ S = empty := by
  rw [isEmpty, List.isEmpty_iff]
  exact ⟨fun h => toList_injective h, fun h => h ▸ rfl⟩

end States

end Determinize
