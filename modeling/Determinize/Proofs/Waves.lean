import Determinize.Proofs.Closure
import Mathlib.Data.List.Nodup
import Mathlib.Data.Nat.Find

/-!
# The waves of a closure, round by round

The closure of a set spreads in rounds (`RuleIndex.waveAfter?`).  Only the members that rules
mention (`RuleIndex.known`) take part; the others have no number.  The `k`-th wave has reached what
lies within `k` silent moves of them, its frontier lies at distance `k`, and no other number is in
its two masks (`RuleIndex.mem_reached_iff`, `RuleIndex.mem_frontier_iff`).

A state has one distance (`AtDistance.unique`), whatever cycles and detours there are.  So no two
rounds have a frontier in common, and no row of arrows is gone through twice
(`RuleIndex.nodup_followed`).  And since each round reaches a state more, the rounds come to an end
when there can be no further state (`RuleIndex.size_reached_le`).  They do not end before: nothing
is further away than the last frontier (`RuleIndex.le_of_atDistance`).
-/

namespace Determinize

variable {rules : List (Rule State)} {S : States} {t : State} {j k : ℕ}

/-! ### Distances -/

theorem AtDistance.unique (hj : AtDistance rules S j t) (hk : AtDistance rules S k t) : j = k := by
  by_contra hne
  rcases Nat.lt_or_gt_of_ne hne with h | h
  · exact hk.2 j h hj.1
  · exact hj.2 k h hk.1

/-- What silent moves lead to is at some distance, and a shortest way is no longer than another. -/
theorem exists_atDistance_le (h : SilentFrom rules S k t) : ∃ j ≤ k, AtDistance rules S j t := by
  classical
  have hex : ∃ k, SilentFrom rules S k t := ⟨k, h⟩
  exact ⟨Nat.find hex, Nat.find_min' hex h, Nat.find_spec hex, fun _ hi => Nat.find_min hex hi⟩

theorem exists_silentFrom_iff :
    (∃ j ≤ k, SilentFrom rules S j t) ↔ ∃ j ≤ k, AtDistance rules S j t := by
  constructor
  · rintro ⟨i, hi, h⟩
    obtain ⟨j, hj, hd⟩ := exists_atDistance_le h
    exact ⟨j, Nat.le_trans hj hi, hd⟩
  · rintro ⟨j, hj, hd⟩
    exact ⟨j, hj, hd.1⟩

namespace RuleIndex

section Rounds

variable (R : RuleIndex) (S : States)

/-- The members of a set that rules mention. -/
def known : States := S.filter fun s => decide (s ∈ R.nodes)

/-- The numbers whose silent moves are followed in the round after the `k`-th wave: the frontier of
that wave, number by number, as `RuleIndex.step` goes through it. -/
def followed (k : ℕ) : List ℕ :=
  match R.waveAfter? S k with
  | some w => w.frontier.members R.nodes.size
  | none => []

/-- The closure of a set spreads layer by layer. -/
structure SpreadsInLayers : Prop where
  /-- After `k` rounds, exactly the states are reached that are at most `k` silent moves away. -/
  reached : ∀ k w, R.waveAfter? S k = some w → ∀ i, i ∈ w.reached ↔
    ∃ t, R.nodes.number? t = some i ∧ ∃ j ≤ k, AtDistance R.rules (R.known S) j t
  /-- After `k` rounds, exactly the states at distance `k` are the frontier. -/
  frontier : ∀ k w, R.waveAfter? S k = some w → ∀ i, i ∈ w.frontier ↔
    ∃ t, R.nodes.number? t = some i ∧ AtDistance R.rules (R.known S) k t
  /-- The frontiers of different rounds are disjoint. -/
  disjoint : ∀ j k v w, R.waveAfter? S j = some v → R.waveAfter? S k = some w → j ≠ k →
    ∀ i ∈ v.frontier, i ∉ w.frontier
  /-- However many rounds there are, the silent moves of a state are followed once at most. -/
  once : ∀ n, ((List.range n).flatMap (R.followed S)).Nodup
  /-- After `k` rounds there comes one that adds nothing, and no state is further away than `k`
  silent moves.  With that one there are at most as many rounds as states that rules mention and `S`
  does not contain, and one more. -/
  ends : ∃ k w, R.waveAfter? S k = some w ∧ R.nextWave? w = none ∧
    (∀ j t, AtDistance R.rules (R.known S) j t → j ≤ k) ∧
    k + 1 + (R.known S).size ≤ R.states.size + 1 ∧ R.closure S = S.union (R.decode w.reached)

end Rounds

variable {R : RuleIndex} {m : Mask} {v w : Wave} {s : State} {i : ℕ}

/-! ### The members that rules mention -/

@[simp] theorem mem_known : s ∈ R.known S ↔ s ∈ S ∧ s ∈ R.nodes := by simp [known]

theorem decode_encode : R.decode (R.encode S) = R.known S := States.ext fun s => by simp

/-- A member without a number does not show in the mask. -/
theorem encode_known : R.encode (R.known S) = R.encode S := by
  refine Mask.ext fun i => ?_
  simp only [mem_encode, mem_known]
  constructor
  · rintro ⟨s, ⟨hs, -⟩, hi⟩
    exact ⟨s, hs, hi⟩
  · rintro ⟨s, hs, hi⟩
    exact ⟨s, ⟨hs, Numbering.mem_of_number? hi⟩, hi⟩

theorem waveAfter?_known : R.waveAfter? (R.known S) k = R.waveAfter? S k := by
  induction k with
  | zero => simp only [waveAfter?, firstWave, encode_known]
  | succ k ih => simp only [waveAfter?, ih]

/-! ### Masks that hold numbers of states only -/

theorem mem_iff_of_numbered (hm : ∀ i ∈ m, ∃ t, R.nodes.number? t = some i) :
    i ∈ m ↔ ∃ t, R.nodes.number? t = some i ∧ t ∈ R.decode m := by
  constructor
  · intro hi
    obtain ⟨t, ht⟩ := hm i hi
    exact ⟨t, ht, (mem_decode_of_number? ht).2 hi⟩
  · rintro ⟨t, ht, htm⟩
    exact (mem_decode_of_number? ht).1 htm

/-- A wave holds what has been reached and what a move leads to, and both are states. -/
theorem numbered_of_waveAfter? (h : R.waveAfter? S k = some w) :
    (∀ i ∈ w.reached, ∃ t, R.nodes.number? t = some i) ∧
      ∀ i ∈ w.frontier, ∃ t, R.nodes.number? t = some i := by
  induction k generalizing w with
  | zero =>
    cases h
    have hS : ∀ i ∈ R.encode S, ∃ t, R.nodes.number? t = some i := fun i hi => by
      obtain ⟨t, -, ht⟩ := mem_encode.1 hi
      exact ⟨t, ht⟩
    exact ⟨hS, hS⟩
  | succ k ih =>
    obtain ⟨v, hv, hvw⟩ := Option.bind_eq_some_iff.1 h
    obtain ⟨hf, hr, -⟩ := eq_of_nextWave? hvw
    have hfrontier : ∀ i ∈ w.frontier, ∃ t, R.nodes.number? t = some i := fun i hi => by
      rw [hf] at hi
      obtain ⟨-, t, -, -, ht⟩ := mem_step.1 (Mask.mem_diff.1 hi).1
      exact ⟨t, ht⟩
    refine ⟨fun i hi => ?_, hfrontier⟩
    rw [hr] at hi
    rcases Mask.mem_union.1 hi with hi | hi
    · exact (ih hv).1 i hi
    · exact hfrontier i hi

/-! ### Rounds -/

/-- After `k` rounds the states at most `k` silent moves away have been reached. -/
theorem mem_reached_iff (h : R.waveAfter? S k = some w) :
    i ∈ w.reached ↔
      ∃ t, R.nodes.number? t = some i ∧ ∃ j ≤ k, AtDistance R.rules (R.known S) j t := by
  have hk : Layer R (R.known S) k w := layer_of_waveAfter? (waveAfter?_known.trans h)
  rw [mem_iff_of_numbered (numbered_of_waveAfter? h).1]
  refine exists_congr fun t => and_congr_right fun ht => ?_
  rw [hk.reached, and_iff_right (Numbering.mem_of_number? ht), exists_silentFrom_iff]

/-- After `k` rounds the frontier consists of the states at distance `k`. -/
theorem mem_frontier_iff (h : R.waveAfter? S k = some w) :
    i ∈ w.frontier ↔ ∃ t, R.nodes.number? t = some i ∧ AtDistance R.rules (R.known S) k t := by
  have hk : Layer R (R.known S) k w := layer_of_waveAfter? (waveAfter?_known.trans h)
  rw [mem_iff_of_numbered (numbered_of_waveAfter? h).2]
  refine exists_congr fun t => and_congr_right fun ht => ?_
  rw [hk.frontier, and_iff_right (Numbering.mem_of_number? ht)]

/-- Silent moves lead from states that rules mention to such states. -/
theorem mem_nodes_of_silentFrom (h : SilentFrom R.rules (R.known S) k t) : t ∈ R.nodes := by
  cases k with
  | zero => exact (mem_known.1 (silentFrom_zero.1 h)).2
  | succ k =>
    obtain ⟨s, -, hst⟩ := silentFrom_succ.1 h
    exact target_mem_nodes hst

/-- If the round after the `k`-th wave adds nothing, then no state is further away than `k` silent
moves. -/
theorem le_of_atDistance (h : R.waveAfter? S k = some w) (hlast : R.nextWave? w = none)
    (hj : AtDistance R.rules (R.known S) j t) : j ≤ k := by
  have hk : Layer R (R.known S) k w := layer_of_waveAfter? (waveAfter?_known.trans h)
  have ht : t ∈ R.decode w.reached :=
    hk.reached_of_last hlast (mem_nodes_of_silentFrom hj.1) hj.1
  obtain ⟨-, i, hi, hit⟩ := (hk.reached t).1 ht
  by_contra hkj
  exact hj.2 i (Nat.lt_of_le_of_lt hi (Nat.not_le.1 hkj)) hit

/-- A state that is in two frontiers has two distances. -/
theorem eq_of_mem_frontier (hv : R.waveAfter? S j = some v) (hw : R.waveAfter? S k = some w)
    (hiv : i ∈ v.frontier) (hiw : i ∈ w.frontier) : j = k := by
  obtain ⟨t, ht, hj⟩ := (mem_frontier_iff hv).1 hiv
  obtain ⟨t', ht', hk⟩ := (mem_frontier_iff hw).1 hiw
  rw [Numbering.number?_inj ht' ht] at hk
  exact hj.unique hk

theorem mem_followed_iff :
    i ∈ R.followed S k ↔ ∃ w, R.waveAfter? S k = some w ∧ i ∈ w.frontier.members R.nodes.size := by
  unfold followed
  cases R.waveAfter? S k <;> simp

/-- In any number of rounds, no row of arrows is gone through twice. -/
theorem nodup_followed (n : ℕ) : ((List.range n).flatMap (R.followed S)).Nodup := by
  refine List.nodup_flatMap.2
    ⟨fun k _ => ?_, List.pairwise_lt_range.imp fun {j k} hjk i hj hk => ?_⟩
  · unfold followed
    split
    · exact List.nodup_range.filter _
    · exact List.nodup_nil
  · obtain ⟨v, hv, hiv⟩ := mem_followed_iff.1 hj
    obtain ⟨w, hw, hiw⟩ := mem_followed_iff.1 hk
    exact Nat.ne_of_lt hjk
      (eq_of_mem_frontier hv hw (Mask.mem_members.1 hiv).2 (Mask.mem_members.1 hiw).2)

/-- Every round reaches a state more than the one before. -/
theorem size_reached_le (h : R.waveAfter? S k = some w) :
    k + (R.known S).size ≤ (R.decode w.reached).size := by
  induction k generalizing w with
  | zero =>
    cases h
    simp only [firstWave, decode_encode, Nat.zero_add, Nat.le_refl]
  | succ k ih =>
    obtain ⟨v, hv, hvw⟩ := Option.bind_eq_some_iff.1 h
    have hlt : (R.decode v.reached).size < (R.decode w.reached).size := size_reached_lt hvw
    have hle : k + (R.known S).size ≤ (R.decode v.reached).size := ih hv
    omega

/-- **The closure spreads layer by layer.**  Whatever the rules and the set, after `k` rounds the
spreading has reached the states whose distance from the members that rules mention is at most `k`,
and its frontier are those at distance `k`.  So the frontiers are disjoint and the silent moves of a
state are followed once at most.  The last round, which adds nothing, comes when nothing is left to
be reached, and at most as many others come before it as there are states to be added. -/
theorem spreadsInLayers (R : RuleIndex) (S : States) : R.SpreadsInLayers S where
  reached _ _ h _ := mem_reached_iff h
  frontier _ _ h _ := mem_frontier_iff h
  disjoint _ _ _ _ hv hw hjk _ hiv hiw := hjk (eq_of_mem_frontier hv hw hiv hiw)
  once := nodup_followed
  ends := by
    obtain ⟨k, w, hw, hlast, hclosure⟩ := R.exists_last S
    refine ⟨k, w, hw, hlast, fun _ _ => le_of_atDistance hw hlast, ?_, hclosure⟩
    have hreached : k + (R.known S).size ≤ (R.decode w.reached).size := size_reached_le hw
    have hnodes : (R.decode w.reached).size ≤ R.nodes.size := size_decode_le
    have hstates : R.states.size = R.nodes.size := size_states
    omega

example :
    (List.range 5).map ((RuleIndex.ofList
      [⟨0, .silent, 1⟩, ⟨1, .silent, 2⟩, ⟨2, .silent, 0⟩]).followed (.singleton 1)) =
    [[1], [2], [0], [], []] := by decide

end RuleIndex

end Determinize
