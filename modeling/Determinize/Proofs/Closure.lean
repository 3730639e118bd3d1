import Determinize.Proofs.Image
import Determinize.Proofs.Path
import Determinize.RuleIndex.Closure
import Mathlib.Data.List.Perm.Subperm

/-!
# Closure under silent moves

The closure spreads in waves over bit masks.  After `k` waves everything within `k` silent moves
of the set is reached, and the frontier is what lies at distance exactly `k` (`Layer`); a wave
that adds nothing means that no silent move leads out of what has been reached.  Each wave adds a
state, so the spreading is at its end after as many waves as there are states.

The closure is then described without waves (`RuleIndex.mem_closure`): a state is in the closure
of a set iff a path that reads nothing leads to it from a member.  Extensivity, monotonicity and
idempotence are facts about such paths.
-/

namespace Determinize

namespace States

variable {S T : States} {a : State} {l : List State}

theorem size_le_of_subset (h : ∀ a ∈ S, a ∈ l) : S.size ≤ l.length :=
  (List.subperm_of_subset S.nodup h).length_le

theorem size_lt_of_subset (h : ∀ a ∈ S, a ∈ T) (ha : a ∈ T) (haS : a ∉ S) : S.size < T.size := by
  have hn : (a :: S.toList).Nodup := List.nodup_cons.2 ⟨haS, S.nodup⟩
  have hs : a :: S.toList ⊆ T.toList := List.cons_subset.2 ⟨ha, h⟩
  exact (List.subperm_of_subset hn hs).length_le

end States

/-- `k` silent moves lead to `t` from some member of `S`. -/
def SilentFrom (rules : List (Rule State)) (S : States) (k : ℕ) (t : State) : Prop :=
  ∃ s ∈ S, SilentSteps rules k s t

/-- `k` is the least number of silent moves that lead to `t` from a member of `S`. -/
def AtDistance (rules : List (Rule State)) (S : States) (k : ℕ) (t : State) : Prop :=
  SilentFrom rules S k t ∧ ∀ j < k, ¬ SilentFrom rules S j t

theorem silentFrom_zero {rules : List (Rule State)} {S : States} {t : State} :
    SilentFrom rules S 0 t ↔ t ∈ S :=
  ⟨fun ⟨_, hs, h⟩ => h ▸ hs, fun h => ⟨t, h, rfl⟩⟩

theorem silentFrom_succ {rules : List (Rule State)} {S : States} {k : ℕ} {t : State} :
    SilentFrom rules S (k + 1) t ↔ ∃ s, SilentFrom rules S k s ∧ ⟨s, .silent, t⟩ ∈ rules := by
  constructor
  · rintro ⟨s, hs, ⟨u, y, t⟩, hr, rfl, hu, rfl⟩
    exact ⟨u, ⟨s, hs, hu⟩, hr⟩
  · rintro ⟨u, ⟨s, hs, hu⟩, hr⟩
    exact ⟨s, hs, _, hr, rfl, hu, rfl⟩

namespace RuleIndex

variable {R : RuleIndex} {S T : States} {w w' : Wave} {m n : Mask} {s t : State} {k : ℕ}

/-! ### What a mask of numbers stands for -/

@[simp] theorem mem_decode_union :
    t ∈ R.decode (m.union n) ↔ t ∈ R.decode m ∨ t ∈ R.decode n := by
  simp only [mem_decode, Mask.mem_union, or_and_right, exists_or]

@[simp] theorem mem_decode_diff :
    t ∈ R.decode (m.diff n) ↔ t ∈ R.decode m ∧ t ∉ R.decode n := by
  constructor
  · intro h
    obtain ⟨i, hi, ht⟩ := mem_decode.1 h
    rw [mem_decode_of_number? ht, mem_decode_of_number? ht]
    exact Mask.mem_diff.1 hi
  · rintro ⟨hm, hn⟩
    obtain ⟨i, hi, ht⟩ := mem_decode.1 hm
    rw [mem_decode_of_number? ht] at hn ⊢
    exact Mask.mem_diff.2 ⟨hi, hn⟩

theorem mem_nodes_of_mem_decode (h : t ∈ R.decode m) : t ∈ R.nodes := by
  obtain ⟨i, -, hi⟩ := mem_decode.1 h
  exact Numbering.mem_of_number? hi

/-- A move leads to numbers of states only, so it leads nowhere if it leads to no state. -/
theorem isEmpty_step_diff {y : Symbol} :
    ((R.step m y).diff n).isEmpty = true ↔ ∀ t, t ∉ R.decode ((R.step m y).diff n) := by
  rw [Mask.isEmpty_iff]
  refine ⟨fun h t ht => ?_, fun h i hi => ?_⟩
  · obtain ⟨i, hi, -⟩ := mem_decode.1 ht
    exact h i hi
  · obtain ⟨s, t, -, -, ht⟩ := mem_step.1 (Mask.mem_diff.1 hi).1
    exact h t (mem_decode.2 ⟨i, hi, ht⟩)

/-! ### Waves -/

/-- No wave follows iff the silent moves of the frontier stay in what has been reached. -/
theorem nextWave?_eq_none_iff :
    R.nextWave? w = none ↔
      ∀ s ∈ R.decode w.frontier, ∀ t, ⟨s, .silent, t⟩ ∈ R.rules → t ∈ R.decode w.reached := by
  simp only [nextWave?, ite_eq_left_iff, reduceCtorEq, imp_false, not_not, isEmpty_step_diff,
    mem_decode_diff, mem_decode_step, not_and]
  constructor
  · intro h s hs t hr
    exact h t ⟨s, hs, hr⟩
  · rintro h t ⟨s, hs, hr⟩
    exact h s hs t hr

/-- The masks of the next wave, of which the frontier is not empty. -/
theorem eq_of_nextWave? (h : R.nextWave? w = some w') :
    w'.frontier = (R.step w.frontier .silent).diff w.reached ∧
    w'.reached = w.reached.union w'.frontier ∧ ¬ w'.frontier.isEmpty = true := by
  unfold nextWave? at h
  dsimp only at h
  split at h
  · cases h
  · next hne =>
    cases h
    exact ⟨rfl, rfl, hne⟩

/-- The next wave: its frontier is where the silent moves of the last frontier lead to something
new, and that is what it adds. -/
theorem nextWave?_eq_some (h : R.nextWave? w = some w') :
    (∀ t, t ∈ R.decode w'.frontier ↔
      (∃ s ∈ R.decode w.frontier, ⟨s, .silent, t⟩ ∈ R.rules) ∧ t ∉ R.decode w.reached) ∧
    (∀ t, t ∈ R.decode w'.reached ↔ t ∈ R.decode w.reached ∨ t ∈ R.decode w'.frontier) ∧
    ∃ t, t ∈ R.decode w'.frontier := by
  obtain ⟨hf, hr, hne⟩ := eq_of_nextWave? h
  refine ⟨fun t => by simp [hf], fun t => by simp [hr], ?_⟩
  rw [hf] at hne ⊢
  by_contra hno
  exact hne (isEmpty_step_diff.2 (not_exists.1 hno))

/-- A wave is the `k`-th layer around `S`: what lies within `k` silent moves of `S` is reached,
and the frontier lies at distance `k`. -/
structure Layer (R : RuleIndex) (S : States) (k : ℕ) (w : Wave) : Prop where
  /-- Everything within `k` moves is reached. -/
  reached : ∀ t, t ∈ R.decode w.reached ↔ t ∈ R.nodes ∧ ∃ j ≤ k, SilentFrom R.rules S j t
  /-- The frontier is `k` moves away. -/
  frontier : ∀ t, t ∈ R.decode w.frontier ↔ t ∈ R.nodes ∧ AtDistance R.rules S k t

namespace Layer

theorem first : Layer R S 0 (R.firstWave S) where
  reached t := by simp [firstWave, silentFrom_zero, and_comm]
  frontier t := by simp [firstWave, AtDistance, silentFrom_zero, and_comm]

/-- What is within `k` moves and not at distance `k` is within fewer. -/
theorem within_pred {rules : List (Rule State)} {j : ℕ} (hj : j ≤ k) (h : SilentFrom rules S j s)
    (hd : ¬ AtDistance rules S k s) : ∃ i < k, SilentFrom rules S i s := by
  by_contra hno
  push Not at hno
  rcases Nat.lt_or_ge j k with hjk | hjk
  · exact hno j hjk h
  · exact hd ⟨Nat.le_antisymm hj hjk ▸ h, hno⟩

theorem next (h : Layer R S k w) (hw : R.nextWave? w = some w') : Layer R S (k + 1) w' := by
  obtain ⟨hf, hr, -⟩ := nextWave?_eq_some hw
  have frontier : ∀ t, t ∈ R.decode w'.frontier ↔
      t ∈ R.nodes ∧ AtDistance R.rules S (k + 1) t := by
    intro t
    rw [hf]
    constructor
    · -- what has not been reached lies beyond `k` moves, and one move from the frontier leads to it
      rintro ⟨⟨s, hs, hst⟩, ht⟩
      have htn : t ∈ R.nodes := target_mem_nodes hst
      refine ⟨htn, silentFrom_succ.2 ⟨s, ((h.frontier s).1 hs).2.1, hst⟩, fun j hj hjt => ?_⟩
      exact ht ((h.reached t).2 ⟨htn, j, Nat.le_of_lt_succ hj, hjt⟩)
    · -- the last state on a shortest way to distance `k + 1` is at distance `k`
      rintro ⟨htn, hkt, hmin⟩
      obtain ⟨s, hks, hst⟩ := silentFrom_succ.1 hkt
      refine ⟨⟨s, (h.frontier s).2 ⟨source_mem_nodes hst, hks, fun j hj hjs => ?_⟩, hst⟩,
        fun ht => ?_⟩
      · exact hmin (j + 1) (Nat.succ_lt_succ hj) (silentFrom_succ.2 ⟨s, hjs, hst⟩)
      · obtain ⟨-, j, hj, hjt⟩ := (h.reached t).1 ht
        exact hmin j (Nat.lt_succ_of_le hj) hjt
  refine ⟨fun t => ?_, frontier⟩
  rw [hr, h.reached, frontier, ← and_or_left]
  refine and_congr_right fun _ => ⟨?_, ?_⟩
  · rintro (⟨j, hj, hjt⟩ | ⟨hkt, -⟩)
    · exact ⟨j, Nat.le_succ_of_le hj, hjt⟩
    · exact ⟨k + 1, Nat.le_refl _, hkt⟩
  · rintro ⟨j, hj, hjt⟩
    by_cases hd : AtDistance R.rules S (k + 1) t
    · exact .inr hd
    · obtain ⟨i, hi, hit⟩ := within_pred hj hjt hd
      exact .inl ⟨i, Nat.le_of_lt_succ hi, hit⟩

/-- When no wave follows, everything that silent moves lead to has been reached. -/
theorem reached_of_last (h : Layer R S k w) (hw : R.nextWave? w = none) {j : ℕ}
    (hn : t ∈ R.nodes) (ht : SilentFrom R.rules S j t) : t ∈ R.decode w.reached := by
  induction j generalizing t with
  | zero => exact (h.reached t).2 ⟨hn, 0, Nat.zero_le k, ht⟩
  | succ j ih =>
    obtain ⟨s, hs, hst⟩ := silentFrom_succ.1 ht
    obtain ⟨hsn, i, hi, his⟩ := (h.reached s).1 (ih (source_mem_nodes hst) hs)
    -- the moves of the frontier stay in what has been reached; other states were expanded before
    by_cases hd : AtDistance R.rules S k s
    · exact nextWave?_eq_none_iff.1 hw s ((h.frontier s).2 ⟨hsn, hd⟩) t hst
    · obtain ⟨i', hi', his'⟩ := within_pred hi his hd
      exact (h.reached t).2 ⟨hn, i' + 1, hi', silentFrom_succ.2 ⟨s, his', hst⟩⟩

end Layer

variable (R S) in
/-- The wave after `k` rounds that add something, if there are as many. -/
def waveAfter? : ℕ → Option Wave
  | 0 => some (R.firstWave S)
  | k + 1 => (waveAfter? k).bind R.nextWave?

/-- The wave after `k` rounds is the `k`-th layer. -/
theorem layer_of_waveAfter? (h : R.waveAfter? S k = some w) : Layer R S k w := by
  induction k generalizing w with
  | zero =>
    cases h
    exact .first
  | succ k ih =>
    obtain ⟨v, hv, hw⟩ := Option.bind_eq_some_iff.1 h
    exact (ih hv).next hw

/-- The spreading makes rounds. -/
theorem exists_waveAfter?_spread (h : R.waveAfter? S k = some w) (n : ℕ) :
    ∃ k', R.waveAfter? S k' = some (R.spread n w) := by
  induction n generalizing k w with
  | zero => exact ⟨k, h⟩
  | succ n ih =>
    unfold spread
    cases hw : R.nextWave? w with
    | none => exact ⟨k, h⟩
    | some w' => exact ih (k := k + 1) (Option.bind_eq_some_iff.2 ⟨w, h, hw⟩)

/-- Each wave reaches a state more. -/
theorem size_reached_lt (h : R.nextWave? w = some w') :
    (R.decode w.reached).size < (R.decode w'.reached).size := by
  obtain ⟨hf, hr, t, ht⟩ := nextWave?_eq_some h
  exact States.size_lt_of_subset (fun s hs => (hr s).2 (.inl hs)) ((hr t).2 (.inr ht))
    ((hf t).1 ht).2

theorem size_states : R.states.size = R.nodes.size := by
  have hperm : R.states.toList.Perm R.nodes.toList :=
    (List.perm_ext_iff_of_nodup R.states.nodup R.nodes.nodup).2 fun _ => mem_states
  exact hperm.length_eq

/-- No more states can be reached than there are. -/
theorem size_decode_le : (R.decode m).size ≤ R.nodes.size :=
  States.size_le_of_subset fun _ => mem_nodes_of_mem_decode

/-- As many waves as there are states left to be reached bring the spreading to its end. -/
theorem nextWave?_spread {n : ℕ} (h : R.nodes.size ≤ n + (R.decode w.reached).size) :
    R.nextWave? (R.spread n w) = none := by
  -- each wave takes one of the `n` that remain and adds at least one state
  induction n generalizing w with
  | zero =>
    cases hw : R.nextWave? w with
    | none => exact hw
    | some w' =>
      have := size_reached_lt hw
      have := R.size_decode_le (m := w'.reached)
      omega
  | succ n ih =>
    unfold spread
    cases hw : R.nextWave? w with
    | none => exact hw
    | some w' =>
      have := size_reached_lt hw
      exact ih (by omega)

/-! ### The closure -/

/-- The spreading stops at a wave that no wave follows, and the closure is what that wave has
reached. -/
theorem exists_last (R : RuleIndex) (S : States) :
    ∃ k w, R.waveAfter? S k = some w ∧ R.nextWave? w = none ∧
      R.closure S = S.union (R.decode w.reached) := by
  obtain ⟨k, hk⟩ := exists_waveAfter?_spread (R := R) (S := S) (k := 0) rfl R.nodes.size
  exact ⟨k, _, hk, nextWave?_spread (Nat.le_add_right _ _), rfl⟩

theorem mem_closure_iff_silentFrom : t ∈ R.closure S ↔ ∃ j, SilentFrom R.rules S j t := by
  obtain ⟨k, w, hw, hlast, hclosure⟩ := R.exists_last S
  have hk : Layer R S k w := layer_of_waveAfter? hw
  rw [hclosure, States.mem_union, hk.reached]
  constructor
  · rintro (ht | ⟨-, j, -, hj⟩)
    · exact ⟨0, silentFrom_zero.2 ht⟩
    · exact ⟨j, hj⟩
  · rintro ⟨j, hj⟩
    cases j with
    | zero => exact .inl (silentFrom_zero.1 hj)
    | succ j =>
      -- after a move one is at a state that has a number, where the waves decide
      obtain ⟨s, -, hst⟩ := silentFrom_succ.1 hj
      have htn : t ∈ R.nodes := target_mem_nodes hst
      exact .inr ((hk.reached t).1 (hk.reached_of_last hlast htn hj))

/-- **The closure of a set** is where paths that read nothing lead from its members. -/
theorem mem_closure : t ∈ R.closure S ↔ ∃ s ∈ S, Path R.rules s [] t := by
  simp only [mem_closure_iff_silentFrom, SilentFrom, path_nil_iff]
  constructor
  · rintro ⟨j, s, hs, h⟩
    exact ⟨s, hs, j, h⟩
  · rintro ⟨s, hs, j, h⟩
    exact ⟨j, s, hs, h⟩

theorem subset_closure (h : t ∈ S) : t ∈ R.closure S := mem_closure.2 ⟨t, h, .stop t⟩

theorem closure_mono (h : ∀ s ∈ S, s ∈ T) (ht : t ∈ R.closure S) : t ∈ R.closure T := by
  obtain ⟨s, hs, hp⟩ := mem_closure.1 ht
  exact mem_closure.2 ⟨s, h s hs, hp⟩

@[simp] theorem closure_closure : R.closure (R.closure S) = R.closure S := by
  refine States.ext fun t => ⟨fun ht => ?_, subset_closure⟩
  obtain ⟨u, hu, hut⟩ := mem_closure.1 ht
  obtain ⟨s, hs, hsu⟩ := mem_closure.1 hu
  exact mem_closure.2 ⟨s, hs, hsu.append hut⟩

@[simp] theorem closure_empty : R.closure .empty = .empty :=
  States.ext fun t => by simp [mem_closure]

end RuleIndex

end Determinize
