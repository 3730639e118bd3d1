import Determinize.Proofs.Search.Complete

/-!
# The story of a search

A search that has taken in its seeds reports how many there are, and from then on every state it
finds.  What it has reported at any time is therefore determined by the states it has found
(`Search.story`, `Search.Told`).

A gate is asked about a state after that has got its number and before it is reported.  So a search
that is stopped leaves the story of the states before the one that the gate refused, and these are
states that the search would also have found without the gate (`Search.Recounts`).  One step of a
search recounts in this sense, hence so do an expansion and a run.
-/

namespace Determinize

namespace Search

variable {σ ε : Type}

/-- The story of a search over `n` letters that has begun with `k` seeds and has found the states of
a list: the seeds are only counted, every other state is reported with its number. -/
def story (k n : ℕ) (l : List σ) : List (Record σ) :=
  .seeded k n :: (l.zipIdx.drop k).map fun p => .found p.2 p.1

/-- The search has reported its story so far and nothing else. -/
structure Told (k n : ℕ) (s : Search σ) : Prop where
  /-- The seeds have been found. -/
  seeds_le : k ≤ s.found.size
  /-- What has been reported. -/
  log_eq : s.log.toList = story k n s.found.toList

/-- What something done under a gate comes to, if `t` is what it comes to without the gate. -/
inductive Recounts (gate : Gate ε) (k n : ℕ) (t : Search σ) :
    Except (Refusal ε σ) (Search σ) → Prop
  /-- The gate lets it through. -/
  | done (h : Told k n t) : Recounts gate k n t (.ok t)
  /-- The gate refuses the state that comes after those of a list. -/
  | stopped {e : ε} {log : Array (Record σ)} {l : List σ} (found : l <+: t.found.toList)
      (seeds_le : k ≤ l.length) (refused : gate (l.length + 1) = .error e)
      (log_eq : log.toList = story k n l) : Recounts gate k n t (.error ⟨e, log⟩)

variable {gate : Gate ε} {k n : ℕ} {l l' : List σ} {a : σ} {s t u : Search σ} {r : Rule σ}
  {x : Except (Refusal ε σ) (Search σ)} {f : Search σ → Except (Refusal ε σ) (Search σ)}

/-! ### Stories -/

theorem story_append (h : k ≤ l.length) :
    story k n (l ++ l') = story k n l ++ (l'.zipIdx l.length).map fun p => .found p.2 p.1 := by
  have hlen : k ≤ l.zipIdx.length := by rwa [List.length_zipIdx]
  rw [story, List.zipIdx_append, List.drop_append_of_le_length hlen, List.map_append, Nat.zero_add,
    story, List.cons_append]

/-- One state more is one record more. -/
theorem story_concat (h : k ≤ l.length) :
    story k n (l ++ [a]) = story k n l ++ [.found l.length a] := story_append h

theorem length_story (h : k ≤ l.length) : (story k n l).length = l.length + 1 - k := by
  rw [story, List.length_cons, List.length_map, List.length_drop, List.length_zipIdx]
  exact (Nat.sub_add_comm h).symm

/-- The story goes on as the search does. -/
theorem prefix_story (hl : l <+: l') (h : k ≤ l.length) : story k n l <+: story k n l' := by
  obtain ⟨m, rfl⟩ := hl
  rw [story_append h]
  exact List.prefix_append _ _

theorem lt_length_of_found_mem_story {i : ℕ} (h : .found i a ∈ story k n l) : i < l.length := by
  obtain ⟨⟨b, j⟩, hmem, heq⟩ := List.mem_map.1 ((List.mem_cons.1 h).resolve_left nofun)
  obtain ⟨rfl, rfl⟩ : j = i ∧ b = a := by simpa using heq
  obtain ⟨hj, -⟩ := List.getElem?_eq_some_iff.1
    (List.mem_zipIdx_iff_getElem?.1 (List.mem_of_mem_drop hmem))
  exact hj

theorem finished_not_mem_story {i j : ℕ} : .finished i j ∉ story k n l := by
  intro h
  obtain ⟨p, -, hp⟩ := List.mem_map.1 ((List.mem_cons.1 h).resolve_left nofun)
  cases hp

theorem Told.of_seeded (hlog : s.log.toList = [.seeded s.found.size n]) :
    Told s.found.size n s := by
  have hnone : s.found.toList.zipIdx.drop s.found.size = [] :=
    List.drop_eq_nil_of_le (Nat.le_of_eq List.length_zipIdx)
  exact ⟨Nat.le_refl _, by rw [hlog, story, hnone, List.map_nil]⟩

/-! ### What recounts -/

namespace Recounts

theorem told_of_ok (h : Recounts gate k n t (.ok u)) : Told k n u := by
  cases h with
  | done h => exact h

/-- One thing after the other. -/
theorem bind (h : Recounts gate k n t x) (hpre : t.found.toList <+: u.found.toList)
    (h' : Told k n t → Recounts gate k n u (f t)) : Recounts gate k n u (x >>= f) := by
  cases h with
  | done h => exact h' h
  | stopped found seeds_le refused log_eq =>
    exact .stopped (found.trans hpre) seeds_le refused log_eq

/-- What is done to the result afterwards is no part of the story if it finds and reports
nothing. -/
theorem map (h : Recounts gate k n t x) {g : Search σ → Search σ}
    (hfound : ∀ u, (g u).found = u.found) (hlog : ∀ u, (g u).log = u.log) :
    Recounts gate k n (g t) (x.map g) := by
  cases h with
  | done h => exact .done ⟨hfound t ▸ h.seeds_le, by rw [hlog, hfound, h.log_eq]⟩
  | stopped found seeds_le refused log_eq =>
    exact .stopped (hfound t ▸ found) seeds_le refused log_eq

end Recounts

/-! ### Steps of a search -/

variable [DecidableEq σ]

namespace Free

theorem prefix_found_run (moves : σ → List (Rule σ)) (j : ℕ) :
    s.found.toList <+: (run moves j s).found.toList :=
  run_induction (P := fun t => s.found.toList <+: t.found.toList)
    (fun _ _ ht _ => ht.trans (prefix_found_expand _)) List.prefix_rfl j

end Free

namespace Recounts

/-- A target is reported when the gate has let it pass. -/
theorem reach (h : Told k n s) : Recounts gate k n (Free.reach s a) (s.reach gate a) := by
  unfold Search.reach Free.reach
  split
  · exact .done h
  · next ha =>
    have hfound : (s.found.insert a).toList = s.found.toList ++ [a] :=
      Numbering.toList_insert_of_not_mem ha
    have hsize : (s.found.insert a).size = s.found.size + 1 := Numbering.size_insert_of_not_mem ha
    cases hgate : gate (s.found.size + 1) with
    | ok =>
      have henter : s.enter gate a = .ok (Free.seed s a) := by
        simp only [enter, hsize, hgate, Free.seed]
      rw [henter]
      refine .done ⟨Nat.le_trans h.seeds_le (hsize ▸ Nat.le_succ _), ?_⟩
      change (s.log.push _).toList = story k n (s.found.insert a).toList
      rw [Array.toList_push, h.log_eq, hfound, story_concat h.seeds_le]
      rfl
    | error e =>
      have henter : s.enter gate a = .error ⟨e, s.log⟩ := by
        simp only [enter, hsize, hgate]
      rw [henter]
      refine .stopped (l := s.found.toList) ?_ h.seeds_le hgate h.log_eq
      exact Numbering.prefix_insert

/-- Recording a move is not reported. -/
theorem follow (h : Told k n s) : Recounts gate k n (Free.follow s r) (s.follow gate r) :=
  (reach h).map (g := fun t => { t with moves := t.moves.push r }) (fun _ => rfl) fun _ => rfl

theorem expand (h : Told k n s) (moves : List (Rule σ)) :
    Recounts gate k n (Free.expand s moves) (s.expand gate moves) := by
  have hfold : ∀ t : Search σ, Told k n t →
      Recounts gate k n (moves.foldl Free.follow t) (moves.foldlM (Search.follow gate) t) := by
    induction moves with
    | nil => exact fun t ht => .done ht
    | cons r moves ih =>
      intro t ht
      have hpre : (Free.follow t r).found.toList <+:
          (moves.foldl Free.follow (Free.follow t r)).found.toList := by
        rw [Free.found_foldl_follow]
        exact Numbering.prefix_foldl_insert
      rw [List.foldlM_cons, List.foldl_cons]
      exact (follow ht).bind hpre (ih _)
  exact hfold _ ⟨h.seeds_le, h.log_eq⟩

/-- **A run recounts.** -/
theorem run (h : Told k n s) (moves : σ → List (Rule σ)) (j : ℕ) :
    Recounts gate k n (Free.run moves j s) (s.run gate moves j) := by
  induction j generalizing s with
  | zero => exact .done h
  | succ j ih =>
    unfold Search.run Free.run
    cases s.found.get? s.expanded with
    | none => exact .done h
    | some a => exact (expand h (moves a)).bind (Free.prefix_found_run moves j) ih

end Recounts

/-- Without a gate, a run goes on telling the story. -/
theorem Told.run (h : Told k n s) (moves : σ → List (Rule σ)) (j : ℕ) :
    Told k n (Free.run moves j s) := by
  have hrun : s.run Gate.always moves j = .ok (Free.run moves j s) :=
    (Guarded.run moves j).passes fun _ _ _ => rfl
  exact Recounts.told_of_ok (hrun ▸ Recounts.run h moves j)

end Search

end Determinize
