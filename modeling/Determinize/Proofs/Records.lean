import Determinize.Proofs.Language
import Determinize.Proofs.Search.Story

/-!
# What a search reports

A search that comes to its end has reported how many seeds there were, then every set that is no
seed, in the order in which the sets were found and with its number, and then how many sets and
moves there are (`Nfa.tellsStory`).  So the records say no less about the sets than the result does.

A search that its bound stops has no result, but its records say how far it has come.  Under the
bound `m` it holds `m` sets when the next one is refused; the first of them is the seed, which is
counted in one record, and each of the others has one.  These `m` records are the first `m` of the
search without a bound (`Nfa.cutShort`).  If even the seed is refused, there are none.
-/

namespace Determinize

/-- A search through sets of states that began with `k` seeds over an alphabet of `n` symbols has
reported what it did. -/
structure TellsStory (k n : ℕ) (s : Search States) : Prop where
  /-- The number of seeds, the sets found beyond them with their numbers, and the totals. -/
  log_eq : s.log.toList =
    .seeded k n :: (s.found.toList.zipIdx.drop k).map (fun p => .found p.2 p.1) ++
      [.finished s.found.size s.moves.size]
  /-- The same in words. -/
  lines : s.log.toList.map (fun r => (r.level.name, r.text)) =
    ("DEBUG", "subset construction: " ++ toString k ++ " seed state(s), alphabet of " ++
        toString n) ::
      (s.found.toList.zipIdx.drop k).map (fun p =>
        ("TRACE", "discovered DFA state #" ++ toString p.2 ++ ": " ++ p.1.text)) ++
      [("DEBUG", "subset construction: " ++ toString s.found.size ++ " state(s), " ++
        toString s.moves.size ++ " rule(s)")]

/-- A log was cut short when its search held `m` states, and has been that of another search up to
there. -/
structure CutShort (m : ℕ) (full log : List (Record States)) : Prop where
  /-- The records are the first ones of the other search. -/
  eq_take : log = full.take m
  /-- There are as many records as states. -/
  length_eq : log.length = m
  /-- The state that was refused, which would have had the number `m`, is not reported. -/
  number_lt : ∀ i S, .found i S ∈ log → i < m
  /-- Nor is an end. -/
  not_finished : ∀ i j, .finished i j ∉ log

namespace Nfa

open Search

variable {M : Nfa} {keep : Bool} {seeds : List States} {m : ℕ} {ε : Type}
  {gate : Gate ε} {s : Search States}

/-! ### Searches that come to their end -/

variable (M seeds) in
/-- The search that has taken in its seeds. -/
def planted : Search States :=
  let s := seeds.foldl Free.seed Search.empty
  s.report (.seeded s.found.size M.alphabet.size)

theorem told_planted :
    Told (Numbering.ofList seeds).size M.alphabet.size (M.planted seeds) := by
  have hfound : (M.planted seeds).found = Numbering.ofList seeds := by
    rw [planted, foldl_seed]
    rfl
  have hlog : (M.planted seeds).log.toList =
      [.seeded (M.planted seeds).found.size M.alphabet.size] := by
    rw [planted, foldl_seed]
    rfl
  rw [← hfound]
  exact .of_seeded hlog

theorem log_freeSearch :
    (M.freeSearch keep seeds).log.toList =
      story (Numbering.ofList seeds).size M.alphabet.size (M.freeSearch keep seeds).found.toList ++
        [.finished (M.freeSearch keep seeds).found.size (M.freeSearch keep seeds).moves.size] := by
  let t := Free.run (M.keptMoves keep) (M.searchSpace seeds) (M.planted seeds)
  have htold : Told (Numbering.ofList seeds).size M.alphabet.size t := told_planted.run _ _
  change (t.log.push (.finished t.found.size t.moves.size)).toList = _
  rw [Array.toList_push, htold.log_eq]
  rfl

theorem tellsStory_freeSearch :
    TellsStory (Numbering.ofList seeds).size M.alphabet.size (M.freeSearch keep seeds) := by
  refine ⟨log_freeSearch, ?_⟩
  rw [log_freeSearch, story, List.cons_append, List.map_cons, List.map_append, List.map_map,
    List.map_singleton]
  rfl

theorem tellsStory (h : M.search gate keep seeds = .ok s) :
    TellsStory (Numbering.ofList seeds).size M.alphabet.size s := by
  have hsearch : Guarded gate Search.empty (M.search gate keep seeds) (M.freeSearch keep seeds) :=
    guarded_search
  rw [h] at hsearch
  rw [hsearch.eq_of_ok]
  exact tellsStory_freeSearch

/-! ### Searches that are stopped -/

/-- A search that is stopped after its seeds leaves the story of the sets it has found till then. -/
theorem story_of_stopped {r : Refusal ε States}
    (hseeds : seeds.foldlM (Search.seed gate) Search.empty = .ok (seeds.foldl Free.seed .empty))
    (h : M.search gate keep seeds = .error r) :
    ∃ l, l <+: (M.freeSearch keep seeds).found.toList ∧ (Numbering.ofList seeds).size ≤ l.length ∧
      gate (l.length + 1) = .error r.reason ∧
      r.log.toList = story (Numbering.ofList seeds).size M.alphabet.size l := by
  have hrun : Recounts gate (Numbering.ofList seeds).size M.alphabet.size
      (Free.run (M.keptMoves keep) (M.searchSpace seeds) (M.planted seeds))
      ((M.planted seeds).run gate (M.keptMoves keep) (M.searchSpace seeds)) :=
    .run told_planted _ _
  have hsearch : M.search gate keep seeds =
      (M.planted seeds).run gate (M.keptMoves keep) (M.searchSpace seeds) >>= fun t =>
        .ok (t.report (.finished t.found.size t.moves.size)) := by
    rw [search, hseeds]
    rfl
  rw [hsearch] at h
  cases hx : (M.planted seeds).run gate (M.keptMoves keep) (M.searchSpace seeds) with
  | ok t =>
    rw [hx] at h
    cases h
  | error e =>
    rw [hx] at h hrun
    cases h
    cases hrun with
    | stopped found seeds_le refused log_eq => exact ⟨_, found, seeds_le, refused, log_eq⟩

variable {r : Refusal TooManyStates States}

/-- A bound of zero refuses the start set. -/
theorem searchWithin_zero : M.searchWithin ⟨some 0, keep⟩ = .error ⟨⟨1, 0⟩, #[]⟩ := by
  have hseed : Search.seed (⟨some 0, keep⟩ : Settings).gate Search.empty M.startSet =
      .error ⟨⟨1, 0⟩, #[]⟩ := rfl
  rw [searchWithin, search, List.foldlM_cons, hseed]
  rfl

/-- A search that its bound stops had one state too many. -/
theorem reason_of_searchWithin (h : M.searchWithin ⟨some m, keep⟩ = .error r) :
    r.reason = ⟨m + 1, m⟩ := by
  have hdet : M.determinizeWithin ⟨some m, keep⟩ = .error r.reason := by
    simp only [determinizeWithin, h]
  rcases Nat.lt_or_ge m (M.subsetDfa keep).states.size with hlt | hle
  · rw [determinizeWithin_of_lt_size hlt] at hdet
    exact (Except.error.inj hdet).symm
  · rw [determinizeWithin_of_size_le hle] at hdet
    cases hdet

/-- **A bound cuts the records short.** -/
theorem cutShort (h : M.searchWithin ⟨some m, keep⟩ = .error r) :
    CutShort m (M.freeSearch keep [M.startSet]).log.toList r.log.toList := by
  cases m with
  | zero =>
    rw [searchWithin_zero] at h
    cases h
    exact ⟨rfl, rfl, nofun, nofun⟩
  | succ m =>
    have hseeds : [M.startSet].foldlM (Search.seed (⟨some (m + 1), keep⟩ : Settings).gate)
        Search.empty = .ok ([M.startSet].foldl Free.seed Search.empty) := by
      refine (Guarded.foldlM (fun _ _ => Guarded.seed) [M.startSet]).passes fun k _ hk => ?_
      exact gate_of_le (Nat.le_trans hk (Nat.le_add_left 1 m))
    obtain ⟨l, hl, hk, hgate, hlog⟩ := story_of_stopped hseeds h
    have hlen : l.length = m + 1 := by
      have hreason := (eq_of_gate_eq_error hgate).symm.trans (reason_of_searchWithin h)
      exact Nat.succ.inj (congrArg TooManyStates.states hreason)
    have hcount : r.log.toList.length = m + 1 := by
      rw [hlog, length_story hk, hlen]
      rfl
    have hprefix : r.log.toList <+: (M.freeSearch keep [M.startSet]).log.toList := by
      rw [hlog, log_freeSearch]
      exact (prefix_story hl hk).trans (List.prefix_append _ _)
    refine ⟨?_, hcount, fun i S hi => ?_, fun i j hi => ?_⟩
    · rw [← hcount]
      exact List.prefix_iff_eq_take.1 hprefix
    · rw [hlog] at hi
      exact hlen ▸ lt_length_of_found_mem_story hi
    · rw [hlog] at hi
      exact finished_not_mem_story hi

/-- **The records tell the story of a search.**  A search that comes to its end, whatever its gate,
its seeds and what it does with the empty set, has reported the number of distinct seeds, every set
found beyond them with its number, in their order, and the totals, and nothing else; the searches
without a bound come to their end.  If a search is stopped by the bound `m`, its records are the
first `m` records of the search without a bound. -/
theorem search_tellsStory (M : Nfa) :
    (∀ (ε : Type) (gate : Gate ε) keep seeds s, M.search gate keep seeds = .ok s →
      TellsStory (Numbering.ofList seeds).size M.alphabet.size s) ∧
    (∀ keep seeds, ∃ s, M.search Gate.always keep seeds = .ok s) ∧
    (∀ seeds, TellsStory (Numbering.ofList seeds).size M.alphabet.size (M.searchFrom seeds)) ∧
    TellsStory 1 M.alphabet.size M.searchAll ∧
    (∀ c s, M.searchWithin c = .ok s → TellsStory 1 M.alphabet.size s) ∧
    ∀ m keep r, M.searchWithin ⟨some m, keep⟩ = .error r →
      ∃ s, M.searchWithin ⟨none, keep⟩ = .ok s ∧ CutShort m s.log.toList r.log.toList := by
  refine ⟨fun _ _ _ _ _ => tellsStory, fun keep seeds => ?_, fun seeds => ?_, ?_,
    fun _ _ => tellsStory, fun m keep r h => ?_⟩
  · exact ⟨_, guarded_search.passes passes_always⟩
  · rw [searchFrom_eq]
    exact tellsStory_freeSearch
  · have htells : TellsStory (Numbering.ofList [M.startSet]).size M.alphabet.size
        (M.freeSearch false [M.startSet]) := tellsStory_freeSearch
    rwa [searchAll_eq]
  · exact ⟨_, searchWithin_unbounded, cutShort h⟩

/-- Under a bound of one, `aPlus` is given up at its second set: its only record counts the seed. -/
theorem search_tellsStory_aPlus :
    ∃ r s, aPlus.searchWithin ⟨some 1, true⟩ = .error r ∧
      aPlus.searchWithin ⟨none, true⟩ = .ok s ∧ TellsStory 1 1 s ∧
      CutShort 1 s.log.toList r.log.toList := by
  have hsize : 1 < (aPlus.freeSearch true [aPlus.startSet]).found.size := by decide +kernel
  obtain ⟨log, hr⟩ := (guarded_searchWithin (M := aPlus)).refuses 1 _ (Nat.zero_le 1) hsize
    (fun k _ hk => gate_of_le hk) gate_succ
  obtain ⟨-, -, -, -, htells, hcut⟩ := search_tellsStory aPlus
  obtain ⟨s, hs, hcut⟩ := hcut 1 true _ hr
  have hletters : aPlus.alphabet.size = 1 := by decide +kernel
  exact ⟨_, s, hr, hs, hletters ▸ htells _ s hs, hcut⟩

example : aPlus.searchAll.log.toList.map Record.text =
    ["subset construction: 1 seed state(s), alphabet of 1",
      "discovered DFA state #1: \x7b1, 2\x7d",
      "subset construction: 2 state(s), 2 rule(s)"] := by decide +kernel

end Nfa

end Determinize
