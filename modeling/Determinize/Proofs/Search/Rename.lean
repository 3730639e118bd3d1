import Determinize.Proofs.Search.Prune
import Mathlib.Data.List.Nodup
import Mathlib.Logic.Embedding.Basic

/-!
# Searching under other names

A search compares states for equality and does nothing else with them.  If every state gets another
name, different states different names, and the moves lead between the new names as they did between
the old ones, then the search goes as before: it finds the same states in the same order under their
new names (`Search.Renamed.run`).
-/

namespace Determinize

variable {α β σ τ : Type}

/-- The rule with new names for its ends and its symbol. -/
def Rule.map (f : σ → τ) (g : Symbol → Symbol) (r : Rule σ) : Rule τ :=
  ⟨f r.source, g r.symbol, f r.target⟩

namespace Numbering

variable {f : α ↪ β} {v : Numbering α} {a : α} {l : List α} {i : ℕ}

/-- New names, with the numbers kept. -/
def map (f : α ↪ β) (v : Numbering α) : Numbering β :=
  ⟨v.toList.map f, v.nodup.map f.injective⟩

@[simp] theorem toList_map : (v.map f).toList = v.toList.map f := rfl

@[simp] theorem size_map : (v.map f).size = v.size := List.length_map f

theorem get?_map : (v.map f).get? i = (v.get? i).map f := List.getElem?_map

theorem mem_map : f a ∈ v.map f ↔ a ∈ v := List.mem_map_of_injective f.injective

theorem filter_map {p : α → Bool} {q : β → Bool} (h : ∀ a, q (f a) = p a) :
    (v.map f).filter q = (v.filter p).map f := by
  apply toList_injective
  have hqp : q ∘ f = p := funext h
  simp only [filter, toList_map, List.filter_map, hqp]

variable [DecidableEq α] [DecidableEq β]

theorem number?_map : (v.map f).number? (f a) = v.number? a := by
  refine Option.ext fun i => ?_
  rw [number?_eq_some_iff, number?_eq_some_iff, get?_map, Option.map_eq_some_iff]
  refine ⟨fun ⟨b, hb, hba⟩ => f.injective hba ▸ hb, fun ha => ⟨a, ha, rfl⟩⟩

theorem insert_map : (v.map f).insert (f a) = (v.insert a).map f := by
  by_cases ha : a ∈ v
  · rw [insert_of_mem ha, insert_of_mem (mem_map.2 ha)]
  · apply toList_injective
    rw [toList_insert_of_not_mem (mt mem_map.1 ha), toList_map, toList_map,
      toList_insert_of_not_mem ha, List.map_append, List.map_singleton]

theorem foldl_insert_map : (l.map f).foldl insert (v.map f) = (l.foldl insert v).map f := by
  induction l generalizing v with
  | nil => rfl
  | cons a l ih => rw [List.map_cons, List.foldl_cons, insert_map, ih, List.foldl_cons]

theorem ofList_map : ofList (l.map f) = (ofList l).map f := foldl_insert_map (v := empty)

theorem mask_map : (v.map f).mask (l.map f) = v.mask l := by
  have h : v.number? = (v.map f).number? ∘ f := funext fun a => number?_map.symm
  rw [mask, List.filterMap_map, ← h, mask]

end Numbering

namespace Search

variable {φ : σ ↪ τ} {g : Symbol → Symbol} {s : Search σ} {t : Search τ}
  {moves : σ → List (Rule σ)} {moves' : τ → List (Rule τ)}

/-- The search `t` is the search `s` with new names for states and symbols. -/
structure Renamed (φ : σ ↪ τ) (g : Symbol → Symbol) (s : Search σ) (t : Search τ) : Prop where
  /-- The same states have been found in the same order. -/
  found : t.found = s.found.map φ
  /-- As many of them have been expanded. -/
  expanded : t.expanded = s.expanded
  /-- The same moves have been recorded in the same order. -/
  moves : t.moves.toList = s.moves.toList.map (Rule.map φ g)

namespace Renamed

theorem report (h : Renamed φ g s t) (r : Record σ) (r' : Record τ) :
    Renamed φ g (s.report r) (t.report r') :=
  ⟨h.found, h.expanded, h.moves⟩

variable [DecidableEq σ] [DecidableEq τ]

theorem expand (h : Renamed φ g s t) (l : List (Rule σ)) :
    Renamed φ g (Free.expand s l) (Free.expand t (l.map (Rule.map φ g))) where
  found := by
    have htargets : (l.map (Rule.map φ g)).map Rule.target = (l.map Rule.target).map φ := by
      rw [List.map_map, List.map_map]
      rfl
    rw [Free.found_expand, Free.found_expand, h.found, htargets, Numbering.foldl_insert_map]
  expanded := by rw [Free.expanded_expand, Free.expanded_expand, h.expanded]
  moves := by rw [Free.moves_expand, Free.moves_expand, h.moves, List.map_append]

/-- **Renamed searches stay renamed**, expansion by expansion. -/
theorem run (h : Renamed φ g s t) (hmoves : ∀ a, moves' (φ a) = (moves a).map (Rule.map φ g))
    (k : ℕ) : Renamed φ g (Free.run moves k s) (Free.run moves' k t) := by
  induction k generalizing s t with
  | zero => exact h
  | succ k ih =>
    have hget : t.found.get? t.expanded = (s.found.get? s.expanded).map φ := by
      rw [h.found, h.expanded, Numbering.get?_map]
    cases ha : s.found.get? s.expanded with
    | none =>
      rw [ha] at hget
      simp only [Free.run, ha, hget]
      exact h
    | some a =>
      rw [ha] at hget
      rw [Free.run_succ ha, Free.run_succ hget, hmoves]
      exact ih (h.expand (moves a))

end Renamed

end Search

end Determinize
