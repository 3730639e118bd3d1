import Determinize.Proofs.Search.Complete

/-!
# Searching without some of the states

Some states can be left out of a search: those that fail a test, if their moves lead only to states
that fail it too.  The search that does not follow moves to such states finds the other states in
the same order and records the other moves in the same order (`Search.Pruned`).  The two searches
do not go in step: while the full search expands a state that fails the test, the pruned search
waits, and so it needs at most as many expansions (`Search.Pruned.run`).  Both come to their end
within the same number of expansions (`Search.Pruned.run_of_finished`).
-/

namespace Determinize

namespace Numbering

variable {α : Type} {v : Numbering α} {p : α → Bool} {a : α} {l : List α}

/-- A value that passes a test is listed after as many passing values as are listed before it. -/
theorem get?_filter {n : ℕ} (h : v.get? n = some a) (ha : p a = true) :
    (v.filter p).get? ((v.toList.take n).filter p).length = some a := by
  obtain ⟨hn, hget⟩ := List.getElem?_eq_some_iff.1 h
  have hdrop : v.toList.drop n = a :: v.toList.drop (n + 1) := by
    rw [List.drop_eq_getElem_cons hn, hget]
  have hlist : v.toList.filter p =
      (v.toList.take n).filter p ++ a :: (v.toList.drop (n + 1)).filter p := by
    rw [← List.filter_cons_of_pos ha, ← hdrop, ← List.filter_append, List.take_append_drop]
  change (v.toList.filter p)[((v.toList.take n).filter p).length]? = some a
  simp [hlist]

variable [DecidableEq α]

theorem filter_insert_of_pos (ha : p a = true) :
    (v.insert a).filter p = (v.filter p).insert a := by
  apply toList_injective
  by_cases hv : a ∈ v
  · have hf : a ∈ v.filter p := List.mem_filter.2 ⟨hv, ha⟩
    rw [insert_of_mem hv, insert_of_mem hf]
  · have hf : a ∉ v.filter p := fun hf => hv (List.mem_filter.1 hf).1
    rw [toList_insert_of_not_mem hf]
    simp only [filter, toList_insert_of_not_mem hv, List.filter_append, List.filter_cons, ha,
      ↓reduceIte, List.filter_nil]

theorem filter_insert_of_neg (ha : p a = false) : (v.insert a).filter p = v.filter p := by
  apply toList_injective
  by_cases hv : a ∈ v
  · rw [insert_of_mem hv]
  · simp [filter, toList_insert_of_not_mem hv, ha]

/-- Values that fail a test may be dropped before or after the others get their numbers. -/
theorem filter_foldl_insert :
    (l.foldl insert v).filter p = (l.filter p).foldl insert (v.filter p) := by
  induction l generalizing v with
  | nil => rfl
  | cons a l ih =>
    rw [List.foldl_cons, ih]
    cases ha : p a with
    | true => rw [filter_insert_of_pos ha, List.filter_cons_of_pos ha, List.foldl_cons]
    | false => rw [filter_insert_of_neg ha, List.filter_cons_of_neg (by simp [ha])]

end Numbering

namespace Search

variable {σ : Type} {moves : σ → List (Rule σ)} {p : σ → Bool} {s t : Search σ} {a : σ} {k : ℕ}
  {l : List (Rule σ)}

/-- The moves to states that pass a test. -/
def prune (p : σ → Bool) (moves : σ → List (Rule σ)) (a : σ) : List (Rule σ) :=
  (moves a).filter fun r => p r.target

/-- The search `t` is the search `s` without the states that fail the test `p`, and without the
moves to them. -/
structure Pruned (p : σ → Bool) (s t : Search σ) : Prop where
  /-- The other states have been found in the same order. -/
  found : t.found = s.found.filter p
  /-- The same of them have been expanded. -/
  expanded : t.expanded = ((s.found.toList.take s.expanded).filter p).length
  /-- The other moves have been recorded in the same order. -/
  moves : t.moves.toList = s.moves.toList.filter fun r => p r.target

namespace Pruned

theorem report (h : Pruned p s t) (r r' : Record σ) : Pruned p (s.report r) (t.report r') :=
  ⟨h.found, h.expanded, h.moves⟩

/-- A state that passes the test is the next one to be expanded in both searches. -/
theorem get?_expanded (h : Pruned p s t) (ha : s.found.get? s.expanded = some a)
    (hp : p a = true) : t.found.get? t.expanded = some a := by
  rw [h.found, h.expanded]
  exact Numbering.get?_filter ha hp

/-- If the full search has expanded all it has found, so has the pruned search. -/
theorem finished (h : Pruned p s t) (hs : s.found.size ≤ s.expanded) :
    t.found.size ≤ t.expanded := by
  have htake : s.found.toList.take s.expanded = s.found.toList := List.take_of_length_le hs
  rw [h.expanded, htake, h.found]
  exact Nat.le_refl _

end Pruned

variable [DecidableEq σ]

/-! ### Runs that have come to their end -/

namespace Free

theorem run_succ (ha : s.found.get? s.expanded = some a) :
    run moves (k + 1) s = run moves k (expand s (moves a)) := by
  simp only [run, ha]

theorem run_eq_self (h : s.found.size ≤ s.expanded) : run moves k s = s := by
  cases k with
  | zero => rfl
  | succ k =>
    have hget : s.found.get? s.expanded = none := List.getElem?_eq_none h
    simp only [run, hget]

theorem run_add (i j : ℕ) : run moves (i + j) s = run moves j (run moves i s) := by
  induction i generalizing s with
  | zero => rw [Nat.zero_add, run]
  | succ i ih =>
    rw [Nat.succ_add]
    cases ha : s.found.get? s.expanded with
    | none =>
      have hend : s.found.size ≤ s.expanded := List.getElem?_eq_none_iff.1 ha
      rw [run_eq_self hend, run_eq_self hend, run_eq_self hend]
    | some a => rw [run_succ ha, run_succ ha, ih]

end Free

/-! ### Two searches side by side -/

namespace Pruned

/-- Both searches expand a state that passes the test. -/
theorem expand_of_pos (h : Pruned p s t) (ha : s.found.get? s.expanded = some a)
    (hp : p a = true) :
    Pruned p (Free.expand s l) (Free.expand t (l.filter fun r => p r.target)) where
  found := by
    rw [Free.found_expand, Free.found_expand, h.found, Numbering.filter_foldl_insert,
      List.filter_map]
    rfl
  expanded := by
    rw [Free.expanded_expand, Free.expanded_expand, Free.take_found_expand ha, h.expanded,
      List.filter_append, List.filter_cons_of_pos hp, List.length_append]
    rfl
  moves := by
    rw [Free.moves_expand, Free.moves_expand, h.moves, List.filter_append]

/-- The pruned search waits while a state that fails the test is expanded. -/
theorem expand_of_neg (h : Pruned p s t) (ha : s.found.get? s.expanded = some a)
    (hp : p a = false) (hl : ∀ r ∈ l, p r.target = false) : Pruned p (Free.expand s l) t := by
  have hnone : l.filter (fun r => p r.target) = [] :=
    List.filter_eq_nil_iff.2 fun r hr => by simp [hl r hr]
  refine ⟨?_, ?_, ?_⟩
  · have htargets : (l.map Rule.target).filter p = [] := by
      rw [List.filter_map]
      exact congrArg (List.map Rule.target) hnone
    rw [Free.found_expand, Numbering.filter_foldl_insert, htargets, h.found]
    rfl
  · rw [Free.expanded_expand, Free.take_found_expand ha, List.filter_append,
      List.filter_cons_of_neg (by simp [hp]), List.filter_nil, List.append_nil, h.expanded]
  · rw [Free.moves_expand, List.filter_append, hnone, List.append_nil, h.moves]

/-- Whatever the full search has done, the pruned search can do in at most as many expansions. -/
theorem run (h : Pruned p s t)
    (hsink : ∀ a, p a = false → ∀ r ∈ moves a, p r.target = false) (k : ℕ) :
    ∃ j ≤ k, Pruned p (Free.run moves k s) (Free.run (prune p moves) j t) := by
  -- over the expansions of the full search; `j` counts those of states that pass
  induction k generalizing s t with
  | zero => exact ⟨0, Nat.le_refl 0, h⟩
  | succ k ih =>
    cases ha : s.found.get? s.expanded with
    | none =>
      rw [Free.run_eq_self (List.getElem?_eq_none_iff.1 ha)]
      exact ⟨0, Nat.zero_le _, h⟩
    | some a =>
      rw [Free.run_succ ha]
      cases hp : p a with
      | true =>
        obtain ⟨j, hj, hrun⟩ := ih (h.expand_of_pos (l := moves a) ha hp)
        refine ⟨j + 1, Nat.succ_le_succ hj, ?_⟩
        rw [Free.run_succ (h.get?_expanded ha hp)]
        exact hrun
      | false =>
        obtain ⟨j, hj, hrun⟩ := ih (h.expand_of_neg ha hp (hsink a hp))
        exact ⟨j, Nat.le_succ_of_le hj, hrun⟩

/-- **A complete search can be pruned** to one with the same number of expansions. -/
theorem run_of_finished (h : Pruned p s t)
    (hsink : ∀ a, p a = false → ∀ r ∈ moves a, p r.target = false)
    (hs : (Free.run moves k s).found.size ≤ (Free.run moves k s).expanded) :
    Pruned p (Free.run moves k s) (Free.run (prune p moves) k t) := by
  obtain ⟨j, hj, hrun⟩ := h.run hsink k
  obtain ⟨i, rfl⟩ := Nat.exists_eq_add_of_le hj
  -- the expansions that the pruned search has left do nothing
  have hrest : Free.run (prune p moves) (j + i) t = Free.run (prune p moves) j t :=
    (Free.run_add j i).trans (Free.run_eq_self (hrun.finished hs))
  rw [hrest]
  exact hrun

end Pruned

end Search

end Determinize
