import Determinize.Proofs.Search.Complete

/-!
# How a search ends

The loop of a search makes turns: while some state that has been found waits to be expanded, the
first such state is expanded (`Search.Turn`).  A turn may add more to what waits than it takes away,
so a single turn says nothing about the end.  But at most one turn can be made at any time
(`Search.Turn.deterministic`), so the loop ends if one sequence of turns leads to a search that has
expanded all it has found; there is no other sequence then (`Search.EndsIn`).

The runs of `Search.run` make turns (`Search.Free.turns_run`).  If a run with some number of
expansions has expanded all it has found, it is where the loop ends (`Search.Free.endsIn_run`), and
that the number of expansions was limited did not matter.
-/

namespace Determinize

namespace Search

open Relation

variable {σ : Type} [DecidableEq σ] {moves : σ → List (Rule σ)} {s t u : Search σ} {k : ℕ}

/-- A turn of the loop that nothing stops: the first of the states that have been found and have
not been expanded is expanded. -/
def Turn (moves : σ → List (Rule σ)) (s t : Search σ) : Prop :=
  ∃ a, s.found.get? s.expanded = some a ∧ s.expand Gate.always (moves a) = .ok t

/-- The loop that begins with the search `s` ends with the search `t`. -/
structure EndsIn (moves : σ → List (Rule σ)) (s t : Search σ) : Prop where
  /-- No sequence of turns from `s` on goes on for ever. -/
  terminates : Acc (fun v u => Turn moves u v) s
  /-- Turns lead from `s` to `t`. -/
  turns : ReflTransGen (Turn moves) s t
  /-- There is no turn from `t` on. -/
  last : ∀ u, ¬ Turn moves t u
  /-- All states found have been expanded. -/
  expanded : t.expanded = t.found.size

/-! ### Turns -/

theorem expand_always (l : List (Rule σ)) :
    s.expand Gate.always l = .ok (Free.expand s l) :=
  (Guarded.expand l).passes fun _ _ _ => rfl

theorem turn_iff :
    Turn moves s t ↔
      ∃ a, s.found.get? s.expanded = some a ∧ t = Free.expand s (moves a) := by
  simp only [Turn, expand_always, Except.ok.injEq, eq_comm]

theorem Turn.deterministic (ht : Turn moves s t) (hu : Turn moves s u) : t = u := by
  obtain ⟨a, ha, rfl⟩ := turn_iff.1 ht
  obtain ⟨b, hb, rfl⟩ := turn_iff.1 hu
  rw [Option.some.inj (ha.symm.trans hb)]

theorem Turn.lt_size (h : Turn moves s t) : s.expanded < s.found.size := by
  obtain ⟨a, ha, -⟩ := h
  exact (List.getElem?_eq_some_iff.1 ha).1

/-- From a search from which turns lead to a last one, no endless sequence of turns begins. -/
theorem acc_of_last (h : ReflTransGen (Turn moves) s t) (hlast : ∀ u, ¬ Turn moves t u) :
    Acc (fun v u => Turn moves u v) s := by
  induction h using ReflTransGen.head_induction_on with
  | refl => exact ⟨_, fun u hu => absurd hu (hlast u)⟩
  | head hsu _ ih =>
    -- the turn that leads to the last search is the only one
    exact ⟨_, fun v hv => hsu.deterministic hv ▸ ih⟩

namespace Free

/-! ### Runs -/

theorem turns_run (moves : σ → List (Rule σ)) (k : ℕ) (s : Search σ) :
    ReflTransGen (Turn moves) s (run moves k s) := by
  induction k generalizing s with
  | zero => exact .refl
  | succ k ih =>
    unfold run
    split
    · exact .refl
    · next a ha => exact .head (turn_iff.2 ⟨a, ha, rfl⟩) (ih _)

/-- **A run that has expanded all it has found is where the loop ends.** -/
theorem endsIn_run (hle : (run moves k s).expanded ≤ (run moves k s).found.size)
    (hge : (run moves k s).found.size ≤ (run moves k s).expanded) :
    EndsIn moves s (run moves k s) := by
  have hlast : ∀ u, ¬ Turn moves (run moves k s) u :=
    fun _ hu => absurd hu.lt_size (Nat.not_lt.2 hge)
  exact ⟨acc_of_last (turns_run moves k s) hlast, turns_run moves k s, hlast,
    Nat.le_antisymm hle hge⟩

end Free

end Search

end Determinize
