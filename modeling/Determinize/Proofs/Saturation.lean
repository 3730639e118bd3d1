import Determinize.Proofs.Closure
import Mathlib.Logic.Relation

/-!
# The closure is a least fixed point

The closure spreads in waves of numbers, and a wave expands only what the last one added.  None of
this shows in the result: it is the least set that contains the given one and that no silent move
leaves (`RuleIndex.isLeastClosed_closure`).  The obvious way to compute it is to widen the whole set
by one layer of silent moves until nothing changes (`RuleIndex.saturate`); this ends because every
widening but the last adds a state that the rules mention, and it ends in the same set
(`RuleIndex.saturate_eq_closure`).
-/

namespace Determinize

open Relation

variable {rules : List (Rule State)} {S T : States} {s t : State}

/-- A silent move leads from `s` to `t`. -/
def SilentMove (rules : List (Rule State)) (s t : State) : Prop :=
  ∃ r ∈ rules, r.symbol = .silent ∧ r.source = s ∧ r.target = t

/-- No silent move leads out of the set. -/
def SilentlyClosed (rules : List (Rule State)) (S : States) : Prop :=
  ∀ s ∈ S, ∀ t, SilentMove rules s t → t ∈ S

/-- `C` is the least set that contains `S` and is closed under silent moves. -/
structure IsLeastClosed (rules : List (Rule State)) (S C : States) : Prop where
  /-- It contains `S`. -/
  contains : ∀ s ∈ S, s ∈ C
  /-- No silent move leads out of it. -/
  closed : SilentlyClosed rules C
  /-- It lies in every such set. -/
  least : ∀ T, (∀ s ∈ S, s ∈ T) → SilentlyClosed rules T → ∀ t ∈ C, t ∈ T

theorem silentMove_iff : SilentMove rules s t ↔ ⟨s, .silent, t⟩ ∈ rules := by
  constructor
  · rintro ⟨⟨s, y, t⟩, hr, rfl, rfl, rfl⟩
    exact hr
  · intro h
    exact ⟨_, h, rfl, rfl, rfl⟩

/-- A path that reads nothing is a chain of silent moves. -/
theorem path_nil_iff_reflTransGen :
    Path rules s [] t ↔ ReflTransGen (SilentMove rules) s t := by
  constructor
  · intro h
    generalize hw : ([] : Word) = w at h
    induction h with
    | stop s => exact .refl
    | silent mem silent _ ih => exact .head ⟨_, mem, silent, rfl, rfl⟩ (ih hw)
    | letter => cases hw
  · intro h
    induction h using ReflTransGen.head_induction_on with
    | refl => exact .stop t
    | head hst _ ih => exact (Path.single_silent (silentMove_iff.1 hst)).append ih

namespace RuleIndex

variable {R : RuleIndex}

/-! ### The least closed set -/

theorem mem_closure_iff_reflTransGen :
    t ∈ R.closure S ↔ ∃ s ∈ S, ReflTransGen (SilentMove R.rules) s t := by
  simp only [mem_closure, path_nil_iff_reflTransGen]

theorem silentlyClosed_closure : SilentlyClosed R.rules (R.closure S) := by
  intro s hs t hst
  obtain ⟨u, hu, hus⟩ := mem_closure_iff_reflTransGen.1 hs
  exact mem_closure_iff_reflTransGen.2 ⟨u, hu, hus.tail hst⟩

/-- Chains of silent moves stay in a closed set. -/
theorem closure_subset_of_closed (hST : ∀ s ∈ S, s ∈ T) (hT : SilentlyClosed R.rules T)
    (ht : t ∈ R.closure S) : t ∈ T := by
  obtain ⟨s, hs, hst⟩ := mem_closure_iff_reflTransGen.1 ht
  induction hst with
  | refl => exact hST s hs
  | tail hsu huv ih => exact hT _ (ih (mem_closure_iff_reflTransGen.2 ⟨s, hs, hsu⟩)) _ huv

theorem isLeastClosed_closure : IsLeastClosed R.rules S (R.closure S) where
  contains _ := subset_closure
  closed := silentlyClosed_closure
  least _ hST hT _ := closure_subset_of_closed hST hT

theorem closure_eq_of_closed (h : SilentlyClosed R.rules S) : R.closure S = S :=
  States.ext fun _ => ⟨closure_subset_of_closed (fun _ hs => hs) h, subset_closure⟩

/-! ### Widening until nothing changes -/

variable (R) in
/-- A set with everything that is one silent move away from it. -/
def widen (S : States) : States := S.union (R.image S .silent)

theorem mem_widen : t ∈ R.widen S ↔ t ∈ S ∨ ∃ s ∈ S, SilentMove R.rules s t := by
  simp only [widen, States.mem_union, mem_image, silentMove_iff]

/-- Widening changes nothing exactly if no silent move leads out of the set. -/
theorem widen_eq_self_iff : R.widen S = S ↔ SilentlyClosed R.rules S := by
  constructor
  · intro h s hs t hst
    rw [← h]
    exact mem_widen.2 (.inr ⟨s, hs, hst⟩)
  · intro h
    refine States.ext fun t => ⟨fun ht => ?_, fun ht => mem_widen.2 (.inl ht)⟩
    rcases mem_widen.1 ht with ht | ⟨s, hs, hst⟩
    · exact ht
    · exact h s hs t hst

/-- What widening adds is closed in any case, so it does not change the closure. -/
theorem closure_widen : R.closure (R.widen S) = R.closure S := by
  refine States.ext fun t => ⟨closure_subset_of_closed (fun s hs => ?_) silentlyClosed_closure,
    closure_mono fun s hs => mem_widen.2 (.inl hs)⟩
  rcases mem_widen.1 hs with hs | ⟨u, hu, hus⟩
  · exact subset_closure hs
  · exact silentlyClosed_closure u (subset_closure hu) s hus

/-- A widening that changes a set leaves fewer of the states that rules mention outside. -/
theorem size_diff_widen_lt (h : R.widen S ≠ S) :
    (R.states.diff (R.widen S)).size < (R.states.diff S).size := by
  obtain ⟨t, ht, htS⟩ : ∃ t ∈ R.widen S, t ∉ S := by
    by_contra hno
    push Not at hno
    exact h (States.ext fun t => ⟨hno t, fun ht => mem_widen.2 (.inl ht)⟩)
  have htR : t ∈ R.states := by
    rcases mem_widen.1 ht with ht | ⟨s, -, hst⟩
    · exact absurd ht htS
    · exact mem_states.2 (target_mem_nodes (silentMove_iff.1 hst))
  refine States.size_lt_of_subset (fun s hs => ?_) (States.mem_diff.2 ⟨htR, htS⟩)
    fun htd => (States.mem_diff.1 htd).2 ht
  obtain ⟨hsR, hsW⟩ := States.mem_diff.1 hs
  exact States.mem_diff.2 ⟨hsR, fun hsS => hsW (mem_widen.2 (.inl hsS))⟩

variable (R) in
/-- Widen the whole set until nothing changes. -/
def saturate (S : States) : States :=
  if R.widen S = S then S else saturate (R.widen S)
termination_by (R.states.diff S).size
decreasing_by exact size_diff_widen_lt ‹_›

theorem saturate_eq_closure : R.saturate S = R.closure S := by
  fun_induction saturate R S with
  | case1 S h => exact (closure_eq_of_closed (widen_eq_self_iff.1 h)).symm
  | case2 S _ ih => rw [ih, closure_widen]

/-- **The closure is the least fixed point of silent moves.**  It consists of the states that
chains of silent moves lead to from the set, and it is the least set around the given one that is
closed under silent moves.  So it is monotone and idempotent, and expanding only what is new gives
what widening the whole set gives in the end. -/
theorem closure_leastFixedPoint (R : RuleIndex) (S : States) :
    (∀ t, t ∈ R.closure S ↔ ∃ s ∈ S, ReflTransGen (SilentMove R.rules) s t) ∧
    IsLeastClosed R.rules S (R.closure S) ∧
    (∀ T, (∀ s ∈ S, s ∈ T) → ∀ t ∈ R.closure S, t ∈ R.closure T) ∧
    R.closure (R.closure S) = R.closure S ∧
    R.saturate S = R.closure S :=
  ⟨fun _ => mem_closure_iff_reflTransGen, isLeastClosed_closure, fun _ hST _ => closure_mono hST,
    closure_closure, saturate_eq_closure⟩

end RuleIndex

end Determinize
