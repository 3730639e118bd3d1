import Determinize.Path

/-!
# Paths and silent moves

A path that reads nothing is a number of silent moves (`path_nil_iff`).  A path that reads a
letter first makes silent moves, then takes a rule on the letter, then goes on with the rest of
the word (`path_cons_iff`); the same holds of the silent symbol where the word has it.
-/

namespace Determinize

variable {σ : Type} {rules : List (Rule σ)} {s t u v : σ} {w x : Word} {y : Symbol} {k : Nat}

namespace Path

theorem append (h : Path rules s w t) (h' : Path rules t x u) : Path rules s (w ++ x) u := by
  induction h with
  | stop s => exact h'
  | silent mem silent _ ih => exact .silent mem silent (ih h')
  | letter mem _ ih => exact .letter mem (ih h')

/-- More rules have more paths. -/
theorem mono {rules' : List (Rule σ)} (hr : ∀ r ∈ rules, r ∈ rules') (h : Path rules s w t) :
    Path rules' s w t := by
  induction h with
  | stop s => exact .stop s
  | silent mem silent _ ih => exact .silent (hr _ mem) silent ih
  | letter mem _ ih => exact .letter (hr _ mem) ih

/-- The same rules, in whatever order, have the same paths. -/
theorem congr {rules' : List (Rule σ)} (hr : ∀ r, r ∈ rules ↔ r ∈ rules') :
    Path rules s w t ↔ Path rules' s w t :=
  ⟨mono fun r => (hr r).1, mono fun r => (hr r).2⟩

theorem single_silent (h : ⟨s, .silent, t⟩ ∈ rules) : Path rules s [] t :=
  .silent (r := ⟨s, .silent, t⟩) h rfl (.stop t)

end Path

namespace SilentSteps

theorem head (h : ⟨s, .silent, t⟩ ∈ rules) (hs : SilentSteps rules k t u) :
    SilentSteps rules (k + 1) s u := by
  induction k generalizing u with
  | zero =>
    cases hs
    exact ⟨⟨s, .silent, t⟩, h, rfl, rfl, rfl⟩
  | succ k ih =>
    obtain ⟨r, hr, hy, hs, rfl⟩ := hs
    exact ⟨r, hr, hy, ih hs, rfl⟩

theorem path (h : SilentSteps rules k s t) : Path rules s [] t := by
  induction k generalizing t with
  | zero => cases h; exact .stop s
  | succ k ih =>
    obtain ⟨⟨u, y, t⟩, hr, rfl, hs, rfl⟩ := h
    exact (ih hs).append (.single_silent hr)

end SilentSteps

/-- A path that reads nothing consists of silent moves. -/
theorem path_nil_iff : Path rules s [] t ↔ ∃ k, SilentSteps rules k s t := by
  refine ⟨fun h => ?_, fun ⟨_, h⟩ => h.path⟩
  -- the word is an index of `Path`, so it has to be a variable in the induction
  generalize hw : ([] : Word) = w at h
  induction h with
  | stop s => exact ⟨0, rfl⟩
  | @silent r w t mem silent rest ih =>
    obtain ⟨k, hk⟩ := ih hw
    exact ⟨k + 1, SilentSteps.head (silent ▸ mem) hk⟩
  | letter => cases hw

/-- A path that reads a letter makes silent moves up to a rule on that letter, takes the rule
and reads the rest from there. -/
theorem path_cons_iff :
    Path rules s (y :: w) t ↔
      ∃ u v, Path rules s [] u ∧ ⟨u, y, v⟩ ∈ rules ∧ Path rules v w t := by
  constructor
  · intro h
    generalize hx : y :: w = x at h
    induction h with
    | stop s => cases hx
    | silent mem silent _ ih =>
      obtain ⟨u, v, hu, hr, hv⟩ := ih hx
      exact ⟨u, v, .silent mem silent hu, hr, hv⟩
    | @letter r x t mem rest =>
      cases hx
      exact ⟨r.source, r.target, .stop _, mem, rest⟩
  · rintro ⟨u, v, hu, hr, hv⟩
    exact hu.append (.letter (r := ⟨u, y, v⟩) hr hv)

end Determinize
