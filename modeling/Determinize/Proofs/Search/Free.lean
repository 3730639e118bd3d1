import Determinize.Search.Basic
import Mathlib.Data.Nat.Notation

/-!
# Searching without a gate

The operations of `Search.Free` are those of a search with the gate left out: they always have a
result.  A gate either lets a search through to this result or stops it, and which of the two
happens depends on the number of states only (`Search.Guarded`): if the gate passes all numbers up
to the size of the result, the gated operation has the same result; if it refuses a number on the
way, the gated operation fails, with the gate's reason for the first number refused.

Operations that can fail are compared by their outcomes (`SameOutcome`).
-/

namespace Determinize

/-! ### Outcomes -/

/-- Two outcomes agree: they are results that are related by `P`, or they are the same failure. -/
inductive SameOutcome {ε α β : Type} (P : α → β → Prop) : Except ε α → Except ε β → Prop
  /-- Both have a result. -/
  | ok {a : α} {b : β} (h : P a b) : SameOutcome P (.ok a) (.ok b)
  /-- Both fail. -/
  | error (e : ε) : SameOutcome P (.error e) (.error e)

namespace SameOutcome

variable {ε ι α β α' β' : Type} {P P' : α → β → Prop} {Q : α' → β' → Prop} {x : Except ε α}
  {y : Except ε β} {a : α} {b : β}

theorem imp (h : SameOutcome P x y) (hP : ∀ a b, y = .ok b → P a b → P' a b) :
    SameOutcome P' x y := by
  cases h with
  | ok h => exact .ok (hP _ _ rfl h)
  | error e => exact .error e

theorem bind {f : α → Except ε α'} {g : β → Except ε β'} (h : SameOutcome P x y)
    (hfg : ∀ a b, P a b → SameOutcome Q (f a) (g b)) : SameOutcome Q (x >>= f) (y >>= g) := by
  cases h with
  | ok h => exact hfg _ _ h
  | error e => exact .error e

theorem map {f : α → α'} {g : β → β'} (h : SameOutcome P x y)
    (hfg : ∀ a b, P a b → Q (f a) (g b)) : SameOutcome Q (x.map f) (y.map g) := by
  cases h with
  | ok h => exact .ok (hfg _ _ h)
  | error e => exact .error e

theorem foldlM {f : α → ι → Except ε α} {g : β → ι → Except ε β} (l : List ι) (h : P a b)
    (hfg : ∀ a b i, P a b → SameOutcome P (f a i) (g b i)) :
    SameOutcome P (l.foldlM f a) (l.foldlM g b) := by
  induction l generalizing a b with
  | nil => exact .ok h
  | cons i l ih => exact (hfg a b i h).bind fun _ _ h => ih h

end SameOutcome

namespace Search

variable {σ ε : Type}

/-! ### Operations under a gate -/

/-- The gate passes the numbers above `m`, up to `n`. -/
def Gate.Passes (gate : Gate ε) (m n : ℕ) : Prop := ∀ k, m < k → k ≤ n → gate k = .ok ()

theorem Gate.Passes.mono {gate : Gate ε} {m m' n n' : ℕ} (h : gate.Passes m n) (hm : m ≤ m')
    (hn : n' ≤ n) : gate.Passes m' n' :=
  fun k hk hkn => h k (Nat.lt_of_le_of_lt hm hk) (Nat.le_trans hkn hn)

/-- A gate passes all numbers up to some bound, or there is a first one that it refuses. -/
theorem Gate.passes_or_refuses (gate : Gate ε) {m n : ℕ} (h : m ≤ n) :
    gate.Passes m n ∨ ∃ k e, m ≤ k ∧ k < n ∧ gate.Passes m k ∧ gate (k + 1) = .error e := by
  induction h with
  | refl => exact .inl fun k hk hkm => absurd hk (Nat.not_lt.2 hkm)
  | @step n hmn ih =>
    rcases ih with hp | ⟨k, e, hmk, hkn, hp, he⟩
    · cases he : gate (n + 1) with
      | ok =>
        refine .inl fun k hk hkn => ?_
        rcases Nat.le_or_eq_of_le_succ hkn with hkn | rfl
        · exact hp k hk hkn
        · exact he
      | error e => exact .inr ⟨n, e, hmn, Nat.lt_succ_self n, hp, he⟩
    · exact .inr ⟨k, e, hmk, Nat.lt_succ_of_lt hkn, hp, he⟩

/-- From the search `s`, an operation under a gate has the outcome `x`, and without the gate it
has the result `t`. -/
structure Guarded (gate : Gate ε) (s : Search σ) (x : Except (Refusal ε σ) (Search σ))
    (t : Search σ) : Prop where
  /-- No state is lost. -/
  grows : s.found.size ≤ t.found.size
  /-- A gate that passes all new states changes nothing. -/
  passes : gate.Passes s.found.size t.found.size → x = .ok t
  /-- A gate that refuses one of them ends the search with its reason. -/
  refuses : ∀ m e, s.found.size ≤ m → m < t.found.size → gate.Passes s.found.size m →
    gate (m + 1) = .error e → ∃ log, x = .error ⟨e, log⟩

namespace Guarded

variable {gate : Gate ε} {s t u : Search σ} {x : Except (Refusal ε σ) (Search σ)}
  {f : Search σ → Except (Refusal ε σ) (Search σ)}

theorem pure (s : Search σ) : Guarded gate s (.ok s) s where
  grows := Nat.le_refl _
  passes _ := rfl
  refuses _ _ hs ht := absurd ht (Nat.not_lt.2 hs)

/-- An operation that a gate lets through has the result that it has without the gate. -/
theorem eq_of_ok (h : Guarded gate s (.ok u) t) : u = t := by
  rcases gate.passes_or_refuses h.grows with hp | ⟨m, e, hs, ht, hp, he⟩
  · exact Except.ok.inj (h.passes hp)
  · obtain ⟨log, hx⟩ := h.refuses m e hs ht hp he
    cases hx

/-- One operation after the other. -/
theorem bind (h : Guarded gate s x t) (h' : Guarded gate t (f t) u) :
    Guarded gate s (x >>= f) u where
  grows := Nat.le_trans h.grows h'.grows
  passes hp := by
    rw [h.passes (hp.mono (Nat.le_refl _) h'.grows)]
    exact h'.passes (hp.mono h.grows (Nat.le_refl _))
  refuses m e hs hu hp he := by
    -- the number refused comes up in one operation or in the other
    rcases Nat.lt_or_ge m t.found.size with ht | ht
    · obtain ⟨log, hx⟩ := h.refuses m e hs ht hp he
      exact ⟨log, by rw [hx]; rfl⟩
    · rw [h.passes (hp.mono (Nat.le_refl _) ht)]
      exact h'.refuses m e ht hu (hp.mono h.grows (Nat.le_refl _)) he

/-- Only the number of states counts at the beginning. -/
theorem of_found_eq (h : Guarded gate s x u) (hs : s.found = t.found) : Guarded gate t x u where
  grows := hs ▸ h.grows
  passes hp := h.passes (hs.symm ▸ hp)
  refuses m e ht hu hp := h.refuses m e (hs.symm ▸ ht) hu (hs.symm ▸ hp)

/-- What is done to the result afterwards does not concern the gate if it finds no states. -/
theorem map (h : Guarded gate s x t) {g : Search σ → Search σ} (hg : (g t).found = t.found) :
    Guarded gate s (x.map g) (g t) where
  grows := hg ▸ h.grows
  passes hp := by
    rw [h.passes (hg ▸ hp)]
    rfl
  refuses m e hs ht hp he := by
    obtain ⟨log, hx⟩ := h.refuses m e hs (hg ▸ ht) hp he
    exact ⟨log, by rw [hx]; rfl⟩

theorem foldlM {α : Type} {f : Search σ → α → Except (Refusal ε σ) (Search σ)}
    {g : Search σ → α → Search σ} (h : ∀ s a, Guarded gate s (f s a) (g s a)) (l : List α) :
    Guarded gate s (l.foldlM f s) (l.foldl g s) := by
  induction l generalizing s with
  | nil => exact pure s
  | cons a l ih => exact (h s a).bind ih

end Guarded

/-! ### The operations without a gate -/

variable [DecidableEq σ]

namespace Free

/-- Take in a seed. -/
def seed (s : Search σ) (a : σ) : Search σ := { s with found := s.found.insert a }

/-- Take in the target of a move, and report it, if it is new. -/
def reach (s : Search σ) (a : σ) : Search σ :=
  if a ∈ s.found then s else (seed s a).report (.found s.found.size a)

/-- Follow a move. -/
def follow (s : Search σ) (r : Rule σ) : Search σ :=
  let t := reach s r.target
  { t with moves := t.moves.push r }

/-- Expand the next state. -/
def expand (s : Search σ) (moves : List (Rule σ)) : Search σ :=
  moves.foldl follow { s with expanded := s.expanded + 1 }

/-- Expand at most `k` states. -/
def run (moves : σ → List (Rule σ)) : ℕ → Search σ → Search σ
  | 0, s => s
  | k + 1, s => match s.found.get? s.expanded with
    | none => s
    | some a => run moves k (expand s (moves a))

end Free

namespace Guarded

variable {gate : Gate ε} {s : Search σ} {a : σ} {r : Rule σ}

theorem enter (ha : a ∉ s.found) : Guarded gate s (s.enter gate a) (Free.seed s a) := by
  have hsize : (s.found.insert a).size = s.found.size + 1 := Numbering.size_insert_of_not_mem ha
  refine ⟨?_, fun hp => ?_, fun m e hs ht hp he => ?_⟩
  · exact hsize ▸ Nat.le_succ _
  · have hgate : gate (s.found.insert a).size = .ok () :=
      hp _ (hsize ▸ Nat.lt_succ_self _) (Nat.le_refl _)
    simp only [Search.enter, hgate, Free.seed]
  · have hm : m + 1 = (s.found.insert a).size := by
      change m < (s.found.insert a).size at ht
      omega
    rw [hm] at he
    exact ⟨s.log, by simp only [Search.enter, he]⟩

theorem seed : Guarded gate s (s.seed gate a) (Free.seed s a) := by
  unfold Search.seed
  split
  · next ha =>
    have h : Free.seed s a = s := by rw [Free.seed, Numbering.insert_of_mem ha]
    exact h.symm ▸ pure s
  · next ha => exact enter ha

theorem reach : Guarded gate s (s.reach gate a) (Free.reach s a) := by
  unfold Search.reach Free.reach
  split
  · exact pure s
  · next ha => exact (enter ha).map (g := fun t => t.report (.found s.found.size a)) rfl

theorem follow : Guarded gate s (s.follow gate r) (Free.follow s r) :=
  reach.map (g := fun t => { t with moves := t.moves.push r }) rfl

theorem expand (moves : List (Rule σ)) :
    Guarded gate s (s.expand gate moves) (Free.expand s moves) :=
  (foldlM (s := { s with expanded := s.expanded + 1 }) (fun _ _ => follow) moves :
    Guarded gate _ (s.expand gate moves) (Free.expand s moves)).of_found_eq rfl

theorem run (moves : σ → List (Rule σ)) (k : ℕ) :
    Guarded gate s (s.run gate moves k) (Free.run moves k s) := by
  induction k generalizing s with
  | zero => exact pure s
  | succ k ih =>
    unfold Search.run Free.run
    cases s.found.get? s.expanded with
    | none => exact pure s
    | some a => exact (expand (moves a)).bind ih

end Guarded

end Search

end Determinize
