import Determinize.Proofs.Search.Free
import Mathlib.Logic.Relation

/-!
# What a search finds

At any time of a search, the states expanded so far are the first ones found, their moves are the
moves recorded, and the targets of these moves have been found (`Search.Explored`); every state
found can be reached from a seed.  One expansion keeps this, so a whole run does.

A run that has expanded all it has found is complete (`Search.Complete`): it has found exactly
the states that moves lead to from the seeds, and it has recorded the moves of each.  A bound on
the number of states that can be found bounds the number of expansions needed
(`Search.size_found_run_le`).
-/

namespace Determinize

namespace Search

open Relation

variable {σ : Type} {moves : σ → List (Rule σ)} {seeds : List σ} {s : Search σ} {a b : σ}
  {r : Rule σ} {k : ℕ}

/-- Some move leads from `a` to `b`. -/
def Leads (moves : σ → List (Rule σ)) (a b : σ) : Prop := ∃ r ∈ moves a, r.target = b

variable [DecidableEq σ]

/-! ### What an expansion does -/

namespace Free

theorem found_reach : (reach s a).found = s.found.insert a := by
  unfold reach
  split
  · next ha => rw [Numbering.insert_of_mem ha]
  · rfl

theorem expanded_reach : (reach s a).expanded = s.expanded := by
  unfold reach
  split <;> rfl

theorem moves_reach : (reach s a).moves = s.moves := by
  unfold reach
  split <;> rfl

theorem found_foldl_follow (l : List (Rule σ)) :
    (l.foldl follow s).found = (l.map Rule.target).foldl Numbering.insert s.found := by
  induction l generalizing s with
  | nil => rfl
  | cons r l ih => rw [List.foldl_cons, ih, follow, found_reach, List.map_cons, List.foldl_cons]

theorem found_expand (l : List (Rule σ)) :
    (expand s l).found = (l.map Rule.target).foldl Numbering.insert s.found :=
  found_foldl_follow l

theorem expanded_expand (l : List (Rule σ)) : (expand s l).expanded = s.expanded + 1 := by
  have h : ∀ t : Search σ, (l.foldl follow t).expanded = t.expanded := by
    induction l with
    | nil => exact fun _ => rfl
    | cons r l ih => exact fun t => (ih _).trans expanded_reach
  exact h _

theorem moves_expand (l : List (Rule σ)) :
    (expand s l).moves.toList = s.moves.toList ++ l := by
  have h : ∀ t : Search σ, (l.foldl follow t).moves.toList = t.moves.toList ++ l := by
    induction l with
    | nil => exact fun t => (List.append_nil _).symm
    | cons r l ih => exact fun t => by simp [ih, follow, moves_reach]
  exact h _

theorem prefix_found_expand (l : List (Rule σ)) :
    s.found.toList <+: (expand s l).found.toList := by
  rw [found_expand]
  exact Numbering.prefix_foldl_insert

/-- After the expansion of `a`, the states expanded are those expanded before, and `a`. -/
theorem take_found_expand (ha : s.found.get? s.expanded = some a) (l : List (Rule σ)) :
    (expand s l).found.toList.take (s.expanded + 1) =
      s.found.toList.take s.expanded ++ [a] := by
  have hlt : s.expanded < s.found.toList.length := (List.getElem?_eq_some_iff.1 ha).1
  have hget : s.found.toList[s.expanded]? = some a := ha
  obtain ⟨m, hm⟩ := prefix_found_expand (s := s) l
  rw [← hm, List.take_append_of_le_length hlt, List.take_add_one, hget, Option.toList_some]

/-- What every expansion keeps, a run keeps. -/
theorem run_induction {P : Search σ → Prop}
    (hstep : ∀ t a, P t → t.found.get? t.expanded = some a → P (expand t (moves a)))
    (hs : P s) (k : ℕ) : P (run moves k s) := by
  induction k generalizing s with
  | zero => exact hs
  | succ k ih =>
    unfold run
    split
    · exact hs
    · next ha => exact ih (hstep _ _ hs ha)

end Free

/-! ### The invariant -/

/-- What holds of a search at any time between two expansions. -/
structure Explored (moves : σ → List (Rule σ)) (seeds : List σ) (s : Search σ) : Prop where
  /-- Only states found are expanded. -/
  expanded_le : s.expanded ≤ s.found.size
  /-- The seeds were found first. -/
  seeds_first : (Numbering.ofList seeds).toList <+: s.found.toList
  /-- The moves recorded are those of the states expanded, in the order in which they were found. -/
  moves_eq : s.moves.toList = (s.found.toList.take s.expanded).flatMap moves
  /-- The targets of these moves have been found. -/
  closed : ∀ a ∈ s.found.toList.take s.expanded, ∀ b, Leads moves a b → b ∈ s.found
  /-- Moves lead from a seed to every state found. -/
  reached : ∀ a ∈ s.found, ∃ b ∈ seeds, ReflTransGen (Leads moves) b a

namespace Explored

theorem start (hf : s.found = Numbering.ofList seeds) (he : s.expanded = 0) (hm : s.moves = #[]) :
    Explored moves seeds s where
  expanded_le := he ▸ Nat.zero_le _
  seeds_first := hf ▸ List.prefix_refl _
  moves_eq := by simp [he, hm]
  closed a ha := by simp [he] at ha
  reached a ha := ⟨a, Numbering.mem_ofList.1 (hf ▸ ha), .refl⟩

theorem expand (h : Explored moves seeds s) (ha : s.found.get? s.expanded = some a) :
    Explored moves seeds (Free.expand s (moves a)) := by
  have haf : a ∈ s.found := List.mem_of_getElem? ha
  have hlt : s.expanded < s.found.size := (List.getElem?_eq_some_iff.1 ha).1
  have hpre := Free.prefix_found_expand (s := s) (moves a)
  have htake := Free.take_found_expand ha (moves a)
  have hmem : ∀ b, b ∈ (Free.expand s (moves a)).found ↔ Leads moves a b ∨ b ∈ s.found := by
    intro b
    rw [Free.found_expand, Numbering.mem_foldl_insert, List.mem_map, Leads]
  refine ⟨?_, h.seeds_first.trans hpre, ?_, ?_, ?_⟩
  · rw [Free.expanded_expand]
    exact Nat.le_trans hlt hpre.length_le
  · rw [Free.moves_expand, Free.expanded_expand, htake, h.moves_eq]
    simp
  · -- a move of `a` leads to what has just been found, any other to what had been found before
    rw [Free.expanded_expand, htake]
    intro c hc b hb
    rcases List.mem_append.1 hc with hc | hc
    · exact (hmem b).2 (.inr (h.closed c hc b hb))
    · exact (hmem b).2 (.inl (List.mem_singleton.1 hc ▸ hb))
  · intro b hb
    rcases (hmem b).1 hb with hb | hb
    · obtain ⟨c, hc, hca⟩ := h.reached a haf
      exact ⟨c, hc, hca.tail hb⟩
    · exact h.reached b hb

theorem run (h : Explored moves seeds s) (k : ℕ) :
    Explored moves seeds (Free.run moves k s) :=
  Free.run_induction (fun _ _ ht ha => ht.expand ha) h k

/-- Records do not matter. -/
theorem report (h : Explored moves seeds s) (r : Record σ) : Explored moves seeds (s.report r) :=
  ⟨h.expanded_le, h.seeds_first, h.moves_eq, h.closed, h.reached⟩

end Explored

/-! ### Complete searches -/

/-- A search from seeds that has followed all moves there are. -/
structure Complete (moves : σ → List (Rule σ)) (seeds : List σ) (s : Search σ) : Prop where
  /-- The seeds were found first. -/
  seeds_first : (Numbering.ofList seeds).toList <+: s.found.toList
  /-- The states found are those that moves lead to from a seed. -/
  mem_found_iff : ∀ a, a ∈ s.found ↔ ∃ b ∈ seeds, ReflTransGen (Leads moves) b a
  /-- The moves recorded are those of the states found. -/
  moves_eq : s.moves.toList = s.found.toList.flatMap moves

theorem Explored.complete (h : Explored moves seeds s) (hs : s.found.size ≤ s.expanded) :
    Complete moves seeds s := by
  have htake : s.found.toList.take s.expanded = s.found.toList := List.take_of_length_le hs
  refine ⟨h.seeds_first, fun a => ⟨h.reached a, ?_⟩, htake ▸ h.moves_eq⟩
  rintro ⟨b, hb, hab⟩
  induction hab with
  | refl => exact h.seeds_first.subset (Numbering.mem_ofList.2 hb)
  | tail _ hcd ih =>
    exact h.closed _ (htake.symm ▸ ih) _ hcd

/-- A run either expands everything it finds or makes all the expansions it may make. -/
theorem expanded_run (moves : σ → List (Rule σ)) (s : Search σ) (k : ℕ) :
    (Free.run moves k s).found.size ≤ (Free.run moves k s).expanded ∨
      (Free.run moves k s).expanded = s.expanded + k := by
  induction k generalizing s with
  | zero => exact .inr rfl
  | succ k ih =>
    unfold Free.run
    split
    · next h => exact .inl (List.getElem?_eq_none_iff.1 h)
    · next a _ =>
      have := ih (Free.expand s (moves a))
      rw [Free.expanded_expand] at this
      omega

/-- A run with enough expansions expands everything it finds. -/
theorem size_found_run_le (h : Explored moves seeds s)
    (hk : ∀ t, Explored moves seeds t → t.found.size ≤ s.expanded + k) :
    (Free.run moves k s).found.size ≤ (Free.run moves k s).expanded := by
  rcases expanded_run moves s k with hall | hall
  · exact hall
  · exact hall ▸ hk _ (h.run k)

end Search

end Determinize
