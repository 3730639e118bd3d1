import Determinize.Proofs.SubsetSearch

/-!
# Searching with a queue

A search needs no queue: the states that wait to be expanded are those that have been found and have
not been expanded, in the order in which they were found.  The same search can be written with a
queue that is kept apart (`Queued`).  A new state then goes to the end of the queue as soon as the
gate has let it pass, and the loop takes the first state out until none is left.

At any time the queue holds the states that have been found and have not been expanded
(`Queued.Mirrors`).  This is kept by every operation, so the two searches find the same states,
record the same moves, report the same and fail alike, and in the end nothing waits
(`Nfa.sameOutcome_searchQueued`).
-/

namespace Determinize

open Search

/-- A search on its way that keeps a queue. -/
structure Queued (σ : Type) where
  /-- The states found, in the order in which they were found. -/
  found : Numbering σ
  /-- The states that wait to be expanded, the first one first. -/
  queue : List σ
  /-- The moves of the expanded states, in the order in which they were followed. -/
  moves : Array (Rule σ)
  /-- What the search has reported. -/
  log : Array (Record σ)

namespace Queued

section Operations

variable {σ ε : Type}

/-- The search that has found nothing. -/
def empty : Queued σ := ⟨.empty, [], #[], #[]⟩

/-- The search with one more record. -/
def report (q : Queued σ) (r : Record σ) : Queued σ := { q with log := q.log.push r }

variable [DecidableEq σ] (gate : Gate ε)

/-- Number a state, and put it at the end of the queue if the gate lets it pass. -/
def enter (q : Queued σ) (a : σ) : Except (Refusal ε σ) (Queued σ) :=
  let found := q.found.insert a
  match gate found.size with
  | .ok () => .ok { q with found, queue := q.queue ++ [a] }
  | .error reason => .error ⟨reason, q.log⟩

/-- Take in a seed. -/
def seed (q : Queued σ) (a : σ) : Except (Refusal ε σ) (Queued σ) :=
  if a ∈ q.found then .ok q else q.enter gate a

/-- Take in the target of a move, and report it, if it is new. -/
def reach (q : Queued σ) (a : σ) : Except (Refusal ε σ) (Queued σ) :=
  if a ∈ q.found then .ok q
  else (q.enter gate a).map fun p => p.report (.found q.found.size a)

/-- Follow a move: take in its target, then record the move. -/
def follow (q : Queued σ) (r : Rule σ) : Except (Refusal ε σ) (Queued σ) :=
  (q.reach gate r.target).map fun p => { p with moves := p.moves.push r }

/-- Take the first state out of the queue and follow its moves, as long as there is one, but at
most `k` times. -/
def run (moves : σ → List (Rule σ)) : ℕ → Queued σ → Except (Refusal ε σ) (Queued σ)
  | 0, q => .ok q
  | k + 1, q => match q.queue with
    | [] => .ok q
    | a :: queue => do run moves k (← (moves a).foldlM (follow gate) { q with queue })

end Operations

variable {σ ε : Type}

/-- The search `q` with a queue stands where the search `s` stands. -/
structure Mirrors (q : Queued σ) (s : Search σ) : Prop where
  /-- The same states have been found in the same order. -/
  found : q.found = s.found
  /-- The queue consists of those that have not been expanded. -/
  queue : q.queue = s.found.toList.drop s.expanded
  /-- No state has been expanded that has not been found. -/
  expanded_le : s.expanded ≤ s.found.size
  /-- The same moves have been recorded in the same order. -/
  moves : q.moves = s.moves
  /-- The same has been reported. -/
  log : q.log = s.log

namespace Mirrors

variable {gate : Gate ε} {q : Queued σ} {s : Search σ} {a : σ} {r : Rule σ}
  {moves : σ → List (Rule σ)}

theorem empty : Mirrors (Queued.empty : Queued σ) Search.empty :=
  ⟨rfl, rfl, Nat.le_refl 0, rfl, rfl⟩

theorem report (h : q.Mirrors s) (r : Record σ) : (q.report r).Mirrors (s.report r) :=
  ⟨h.found, h.queue, h.expanded_le, h.moves, congrArg (Array.push · r) h.log⟩

/-- What waits is as much as has been found and not been expanded. -/
theorem queue_eq_nil_iff (h : q.Mirrors s) : q.queue = [] ↔ s.found.size ≤ s.expanded := by
  rw [h.queue, List.drop_eq_nil_iff, Numbering.size]

/-- The first state in the queue is the next one to be expanded. -/
theorem queue_eq_cons (h : q.Mirrors s) (ha : s.found.get? s.expanded = some a) :
    q.queue = a :: s.found.toList.drop (s.expanded + 1) := by
  obtain ⟨hlt, rfl⟩ := List.getElem?_eq_some_iff.1 ha
  rw [h.queue, List.drop_eq_getElem_cons hlt]

variable [DecidableEq σ]

theorem enter (h : q.Mirrors s) (ha : a ∉ s.found) :
    SameOutcome Mirrors (q.enter gate a) (s.enter gate a) := by
  unfold Queued.enter Search.enter
  rw [h.found, h.log]
  dsimp only
  cases gate (s.found.insert a).size with
  | error e => exact .error _
  | ok =>
    have hqueue : q.queue ++ [a] = (s.found.insert a).toList.drop s.expanded := by
      rw [h.queue, Numbering.toList_insert_of_not_mem ha,
        List.drop_append_of_le_length h.expanded_le]
    have hle : s.expanded ≤ (s.found.insert a).size := by
      rw [Numbering.size_insert_of_not_mem ha]
      exact Nat.le_succ_of_le h.expanded_le
    exact .ok ⟨rfl, hqueue, hle, h.moves, rfl⟩

theorem seed (h : q.Mirrors s) : SameOutcome Mirrors (q.seed gate a) (s.seed gate a) := by
  unfold Queued.seed Search.seed
  rw [h.found]
  split
  · exact .ok h
  · next ha => exact h.enter ha

theorem reach (h : q.Mirrors s) : SameOutcome Mirrors (q.reach gate a) (s.reach gate a) := by
  unfold Queued.reach Search.reach
  rw [h.found]
  split
  · exact .ok h
  · next ha => exact (h.enter ha).map fun _ _ h => h.report _

theorem follow (h : q.Mirrors s) : SameOutcome Mirrors (q.follow gate r) (s.follow gate r) := by
  refine h.reach.map fun p t h => ?_
  exact ⟨h.found, h.queue, h.expanded_le, congrArg (Array.push · r) h.moves, h.log⟩

/-- **A queue does not change the search**, turn by turn. -/
theorem run (h : q.Mirrors s) (k : ℕ) :
    SameOutcome Mirrors (q.run gate moves k) (s.run gate moves k) := by
  induction k generalizing q s with
  | zero => exact .ok h
  | succ k ih =>
    unfold Queued.run Search.run
    cases ha : s.found.get? s.expanded with
    | none =>
      have hnil : q.queue = [] := h.queue_eq_nil_iff.2 (List.getElem?_eq_none_iff.1 ha)
      rw [hnil]
      exact .ok h
    | some a =>
      rw [h.queue_eq_cons ha]
      -- taking the first state out of the queue is counting it as expanded
      have hlt : s.expanded < s.found.size := (List.getElem?_eq_some_iff.1 ha).1
      have hpop : Mirrors { q with queue := s.found.toList.drop (s.expanded + 1) }
          { s with expanded := s.expanded + 1 } := ⟨h.found, rfl, hlt, h.moves, h.log⟩
      have hexpand : SameOutcome Mirrors
          ((moves a).foldlM (Queued.follow gate)
            { q with queue := s.found.toList.drop (s.expanded + 1) })
          (s.expand gate (moves a)) := .foldlM (moves a) hpop fun _ _ _ h => h.follow
      exact hexpand.bind fun _ _ h => ih h

end Mirrors

end Queued

namespace Nfa

variable {ε : Type} {gate : Gate ε} {M : Nfa} {keep : Bool} {seeds : List States}

variable (M gate keep seeds) in
/-- The search through the sets of `M`, with a queue. -/
def searchQueued : Except (Refusal ε States) (Queued States) := do
  let q ← seeds.foldlM (Queued.seed gate) Queued.empty
  let q := q.report (.seeded q.found.size M.alphabet.size)
  let q ← q.run gate (M.keptMoves keep) (M.searchSpace seeds)
  return q.report (.finished q.found.size q.moves.size)

theorem mirrors_searchQueued :
    SameOutcome Queued.Mirrors (M.searchQueued gate keep seeds) (M.search gate keep seeds) := by
  have hseeds : SameOutcome Queued.Mirrors (seeds.foldlM (Queued.seed gate) Queued.empty)
      (seeds.foldlM (Search.seed gate) Search.empty) :=
    .foldlM seeds .empty fun _ _ _ h => h.seed
  refine hseeds.bind fun q s h => ?_
  rw [h.found]
  refine ((h.report _).run _).bind fun p t h => ?_
  rw [h.found, h.moves]
  exact .ok (h.report _)

/-- **A queue does not change the search.**  The searches with and without a queue have the same
outcome: both fail for the same reason and with the same records, or they have found the same sets
in the same order, with the same moves and records, and the queue is empty. -/
theorem sameOutcome_searchQueued :
    SameOutcome (fun q s => q.found = s.found ∧ q.moves = s.moves ∧ q.log = s.log ∧ q.queue = [])
      (M.searchQueued gate keep seeds) (M.search gate keep seeds) := by
  have hsearch : Guarded gate Search.empty (M.search gate keep seeds) (M.freeSearch keep seeds) :=
    guarded_search
  refine mirrors_searchQueued.imp fun q s hs h => ?_
  rw [hs] at hsearch
  have hall : s.found.size ≤ s.expanded := hsearch.eq_of_ok ▸ size_found_freeSearch_le
  exact ⟨h.found, h.moves, h.log, h.queue_eq_nil_iff.2 hall⟩

end Nfa

end Determinize
