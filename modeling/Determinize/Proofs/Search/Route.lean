import Determinize.Proofs.Search.Prune
import Mathlib.Data.List.Induction
import Mathlib.Data.List.Lex
import Mathlib.Data.List.Nodup
import Mathlib.Data.Prod.Lex

/-!
# The order of a search

A search whose states have one move on each letter of an alphabet follows routes: a route begins at
a seed and reads a word.  Routes are compared by the lengths of their words, routes of one length by
their seeds, and those from one seed by their words, letter after letter (`Route.key`).  A state is
found on the least route to it, and states are found in the order of these routes
(`Search.Trail.listedByRoute`).

What keeps the order is the queue.  The routes of the states found are in order, and none of them
comes after a route that goes on, by one letter, from a state that has not been expanded yet
(`Search.Trail.later`).  The states behind the next state may therefore be listed last.
-/

namespace Determinize

/-- A route of a search: the number of the seed that it begins at, and the word that it reads. -/
structure Route where
  /-- The number of the seed. -/
  seed : ℕ
  /-- The word that leads on from the seed. -/
  word : Word

namespace Numbering

variable {α : Type} [DecidableEq α] {v : Numbering α} {a : α}

/-- The place of a value in the order of a numbering; what has no number comes last. -/
def rank (v : Numbering α) (a : α) : ℕ := v.toList.idxOf a

theorem get?_rank (ha : a ∈ v) : v.get? (v.rank a) = some a := List.getElem?_idxOf ha

theorem pairwise_rank : v.toList.Pairwise fun a b => v.rank a < v.rank b := by
  rw [List.pairwise_iff_getElem]
  intro i j hi hj hij
  rw [rank, rank, v.nodup.idxOf_getElem, v.nodup.idxOf_getElem]
  exact hij

end Numbering

namespace Route

variable {A : Numbering Symbol} {p q : Route} {y z : Symbol}

/-- The route that reads one more symbol. -/
def push (r : Route) (y : Symbol) : Route := ⟨r.seed, r.word ++ [y]⟩

/-- What routes are compared by: first the length of the word, then the seed, then the word, with
symbols in the order of the alphabet. -/
def key (A : Numbering Symbol) (r : Route) : ℕ ×ₗ ℕ ×ₗ List ℕ :=
  toLex (r.word.length, toLex (r.seed, r.word.map A.rank))

/-- Of two lists of one length, the first difference decides, whatever follows. -/
theorem append_lt_append {u v x y : List ℕ} (hlen : u.length = v.length) (h : u < v) :
    u ++ x < v ++ y := by
  induction u generalizing v with
  | nil =>
    rw [List.length_eq_zero_iff.1 hlen.symm] at h
    exact absurd h (lt_irrefl _)
  | cons m u ih =>
    cases v with
    | nil => exact absurd h (List.not_lt_nil _)
    | cons n v =>
      rw [List.cons_append, List.cons_append, List.cons_lt_cons_iff]
      rw [List.cons_lt_cons_iff] at h
      exact h.imp_right fun hr => ⟨hr.1, ih (Nat.succ.inj hlen) hr.2⟩

theorem key_lt_key_iff :
    p.key A < q.key A ↔ p.word.length < q.word.length ∨ p.word.length = q.word.length ∧
      (p.seed < q.seed ∨ p.seed = q.seed ∧ p.word.map A.rank < q.word.map A.rank) := by
  rw [key, key, Prod.Lex.toLex_lt_toLex, Prod.Lex.toLex_lt_toLex]

theorem key_lt_of_length_lt (h : p.word.length < q.word.length) : p.key A < q.key A :=
  key_lt_key_iff.2 (.inl h)

theorem key_lt_key_push : p.key A < (p.push y).key A := by
  refine key_lt_of_length_lt ?_
  show p.word.length < (p.word ++ [y]).length
  rw [List.length_append]
  exact Nat.lt_succ_self _

/-- Whatever is read last, routes come in the order in which they came before. -/
theorem key_push_lt_key_push (h : p.key A < q.key A) : (p.push y).key A < (q.push z).key A := by
  rw [key_lt_key_iff] at h ⊢
  simp only [push, List.length_append, List.map_append]
  rcases h with hlen | ⟨hlen, hseed | ⟨hseed, hword⟩⟩
  · exact .inl (Nat.add_lt_add_right hlen _)
  · exact .inr ⟨congrArg (· + 1) hlen, .inl hseed⟩
  · refine .inr ⟨congrArg (· + 1) hlen, .inr ⟨hseed, ?_⟩⟩
    exact append_lt_append (by rw [List.length_map, List.length_map, hlen]) hword

theorem key_push_lt_of_rank_lt (h : A.rank y < A.rank z) :
    (p.push y).key A < (p.push z).key A := by
  rw [key_lt_key_iff]
  simp only [push, List.length_append, List.map_append, List.map_singleton]
  exact .inr ⟨rfl, .inr ⟨trivial, List.append_left_lt (List.cons_lt_cons_iff.2 (.inl h))⟩⟩

theorem key_push_le_key_push (h : p.key A ≤ q.key A) : (p.push y).key A ≤ (q.push y).key A := by
  rcases h.lt_or_eq with hlt | heq
  · exact (key_push_lt_key_push hlt).le
  · simp only [key, EmbeddingLike.apply_eq_iff_eq, Prod.mk.injEq] at heq
    simp only [key, push, List.length_append, List.map_append, heq, le_refl]

/-- Routes over the alphabet are determined by what they are compared by. -/
theorem key_inj (hp : ∀ y ∈ p.word, y ∈ A) (hq : ∀ y ∈ q.word, y ∈ A) (h : p.key A = q.key A) :
    p = q := by
  simp only [key, EmbeddingLike.apply_eq_iff_eq, Prod.mk.injEq] at h
  obtain ⟨-, hseed, hword⟩ := h
  have hget : ∀ w : Word, (∀ y ∈ w, y ∈ A) → (w.map A.rank).map A.get? = w.map some := by
    intro w hw
    rw [List.map_map]
    exact List.map_congr_left fun y hy => Numbering.get?_rank (hw y hy)
  have hsome : p.word.map some = q.word.map some := by
    rw [← hget _ hp, ← hget _ hq, hword]
  cases p
  cases q
  congr
  exact List.map_injective_iff.2 (fun _ _ => Option.some.inj) hsome

end Route

namespace Search

variable {σ : Type} [DecidableEq σ] (A : Numbering Symbol) (δ : σ → Symbol → σ) (seeds : List σ)

/-- The moves of a state, one on each letter of the alphabet. -/
def letterMoves (a : σ) : List (Rule σ) := A.toList.map fun y => ⟨a, y, δ a y⟩

/-- The route leads to a state, from the seed of its number and along letters of the alphabet. -/
def Reaches (r : Route) (a : σ) : Prop :=
  ∃ b, (Numbering.ofList seeds).get? r.seed = some b ∧ (∀ y ∈ r.word, y ∈ A) ∧
    r.word.foldl δ b = a

/-- The least of the routes that lead to a state. -/
def IsFirst (r : Route) (a : σ) : Prop :=
  Reaches A δ seeds r a ∧ ∀ q, Reaches A δ seeds q a → q ≠ r → r.key A < q.key A

/-- The states are listed in the order of the first routes to them. -/
structure ListedByRoute (l : List σ) : Prop where
  /-- A first route leads to every state. -/
  first : ∀ a ∈ l, ∃ r, IsFirst A δ seeds r a
  /-- The first routes are in strictly ascending order. -/
  ascending : l.Pairwise fun a b =>
    ∀ p q, IsFirst A δ seeds p a → IsFirst A δ seeds q b → p.key A < q.key A

/-- The states found by a search, each with the route on which it was found. -/
structure Trail (s : Search σ) (t : List (Route × σ)) : Prop where
  /-- These are the states found, in their order. -/
  found : t.map Prod.snd = s.found.toList
  /-- The routes lead to the states. -/
  reaches : ∀ p ∈ t, Reaches A δ seeds p.1 p.2
  /-- The routes are in order. -/
  sorted : t.Pairwise fun p q => p.1.key A < q.1.key A
  /-- The seeds were found on the routes on which nothing is read. -/
  seeded : ∀ i a, (Numbering.ofList seeds).get? i = some a → (⟨i, []⟩, a) ∈ t
  /-- What is behind an expanded state was found on the route that goes on from there, or on one
  before it. -/
  closed : ∀ p ∈ t.take s.expanded, ∀ y ∈ A,
    ∃ q ∈ t, q.2 = δ p.2 y ∧ q.1.key A ≤ (p.1.push y).key A
  /-- The routes that go on from the other states come after all routes there are. -/
  later : ∀ p ∈ t, ∀ q ∈ t.drop s.expanded, ∀ y, p.1.key A < (q.1.push y).key A

variable {A δ seeds} {s : Search σ} {t : List (Route × σ)} {a : σ} {r : Route} {l : List σ}
  {v : Numbering σ} {y : Symbol}

theorem Reaches.push (h : Reaches A δ seeds r a) (hy : y ∈ A) :
    Reaches A δ seeds (r.push y) (δ a y) := by
  obtain ⟨b, hb, hw, rfl⟩ := h
  exact ⟨b, hb, List.forall_mem_append.2 ⟨hw, List.forall_mem_singleton.2 hy⟩, List.foldl_append⟩

theorem IsFirst.unique {p q : Route} (hp : IsFirst A δ seeds p a) (hq : IsFirst A δ seeds q a) :
    p = q := by
  by_contra hne
  exact lt_asymm (hp.2 q hq.1 (Ne.symm hne)) (hq.2 p hp.1 hne)

theorem ListedByRoute.filter (h : ListedByRoute A δ seeds l) (f : σ → Bool) :
    ListedByRoute A δ seeds (l.filter f) :=
  ⟨fun a ha => h.first a (List.mem_filter.1 ha).1, h.ascending.filter f⟩

/-! ### The letters of one state -/

/-- Letters followed in ascending order from the state of a route append routes that go on from
this one, in ascending order, if all routes listed come before them. -/
theorem exists_trail_letters (δ : σ → Symbol → σ) (a : σ) {letters : List Symbol}
    (hletters : letters.Pairwise fun y z => A.rank y < A.rank z)
    (hfound : t.map Prod.snd = v.toList) (hsorted : t.Pairwise fun p q => p.1.key A < q.1.key A)
    (hbefore : ∀ p ∈ t, ∀ y ∈ letters, p.1.key A < (r.push y).key A) :
    ∃ new, (t ++ new).map Prod.snd = ((letters.map (δ a)).foldl Numbering.insert v).toList ∧
      (t ++ new).Pairwise (fun p q => p.1.key A < q.1.key A) ∧
      (∀ q ∈ new, ∃ y ∈ letters, q = (r.push y, δ a y)) ∧
      ∀ y ∈ letters, ∃ q ∈ t ++ new, q.2 = δ a y ∧ q.1.key A ≤ (r.push y).key A := by
  induction letters generalizing t v with
  | nil => exact ⟨[], by simpa using hfound, by simpa using hsorted, by simp, by simp⟩
  | cons y letters ih =>
    obtain ⟨hy, hletters⟩ := List.pairwise_cons.1 hletters
    have hfirst : ∀ p ∈ t, p.1.key A < (r.push y).key A :=
      fun p hp => hbefore p hp y List.mem_cons_self
    have hothers : ∀ p ∈ t, ∀ z ∈ letters, p.1.key A < (r.push z).key A :=
      fun p hp z hz => hbefore p hp z (List.mem_cons_of_mem y hz)
    have hcons : ∀ q, (∃ z ∈ letters, q = (r.push z, δ a z)) →
        ∃ z ∈ y :: letters, q = (r.push z, δ a z) :=
      fun q ⟨z, hz, hq⟩ => ⟨z, List.mem_cons_of_mem y hz, hq⟩
    by_cases hv : δ a y ∈ v
    · -- the state behind `y` is listed, with a route before this one
      obtain ⟨new, hnew, hsort, hbehind, hclosed⟩ := ih hletters hfound hsorted hothers
      refine ⟨new, ?_, hsort, fun q hq => hcons q (hbehind q hq), ?_⟩
      · rw [hnew, List.map_cons, List.foldl_cons, Numbering.insert_of_mem hv]
      · obtain ⟨q, hq, hqy⟩ := List.mem_map.1 (hfound ▸ Numbering.mem_toList.2 hv)
        exact List.forall_mem_cons.2
          ⟨⟨q, List.mem_append_left new hq, hqy, (hfirst q hq).le⟩, hclosed⟩
    · -- the state behind `y` is new, and its route comes after those listed
      have hfound' : (t ++ [(r.push y, δ a y)]).map Prod.snd = (v.insert (δ a y)).toList := by
        rw [List.map_append, hfound, Numbering.toList_insert_of_not_mem hv, List.map_singleton]
      have hsorted' : (t ++ [(r.push y, δ a y)]).Pairwise fun p q => p.1.key A < q.1.key A := by
        refine List.pairwise_append.2 ⟨hsorted, List.pairwise_singleton _ _, fun p hp q hq => ?_⟩
        rw [List.mem_singleton.1 hq]
        exact hfirst p hp
      have hothers' : ∀ p ∈ t ++ [(r.push y, δ a y)], ∀ z ∈ letters,
          p.1.key A < (r.push z).key A :=
        List.forall_mem_append.2 ⟨hothers, List.forall_mem_singleton.2 fun z hz =>
          Route.key_push_lt_of_rank_lt (hy z hz)⟩
      obtain ⟨new, hnew, hsort, hbehind, hclosed⟩ := ih hletters hfound' hsorted' hothers'
      rw [List.append_assoc] at hnew hsort hclosed
      refine ⟨(r.push y, δ a y) :: new, hnew, hsort, ?_, ?_⟩
      · exact List.forall_mem_cons.2
          ⟨⟨y, List.mem_cons_self, rfl⟩, fun q hq => hcons q (hbehind q hq)⟩
      · exact List.forall_mem_cons.2
          ⟨⟨_, List.mem_append_right t List.mem_cons_self, rfl, le_refl _⟩, hclosed⟩

/-! ### The invariant -/

namespace Trail

/-- At first the seeds are listed, in the order of their numbers. -/
theorem start (hf : s.found = Numbering.ofList seeds) (he : s.expanded = 0) :
    ∃ t, Trail A δ seeds s t := by
  let t : List (Route × σ) := s.found.toList.zipIdx.map fun p => (⟨p.2, []⟩, p.1)
  have hmem : ∀ p ∈ t, p.1.word = [] ∧ (Numbering.ofList seeds).get? p.1.seed = some p.2 := by
    intro p hp
    obtain ⟨⟨a, i⟩, hai, rfl⟩ := List.mem_map.1 hp
    exact ⟨rfl, hf ▸ List.mem_zipIdx_iff_getElem?.1 hai⟩
  refine ⟨t, ?_, fun p hp => ?_, ?_, fun i a hi => ?_, ?_, fun p hp q _ y => ?_⟩
  · rw [List.map_map]
    exact List.zipIdx_map_fst 0 _
  · obtain ⟨hword, hseed⟩ := hmem p hp
    exact ⟨p.2, hseed, by simp [hword], by simp [hword]⟩
  · rw [List.pairwise_map, List.pairwise_iff_getElem]
    intro i j hi hj hij
    rw [List.getElem_zipIdx, List.getElem_zipIdx]
    exact Route.key_lt_key_iff.2 (.inr ⟨rfl, .inl (Nat.add_lt_add_left hij 0)⟩)
  · exact List.mem_map.2 ⟨(a, i), List.mem_zipIdx_iff_getElem?.2 (hf ▸ hi), rfl⟩
  · simp [he]
  · refine Route.key_lt_of_length_lt ?_
    rw [(hmem p hp).1, Route.push, List.length_append]
    exact Nat.lt_add_left _ Nat.one_pos

/-- The state that comes next is expanded: the routes that go on from it are listed last. -/
theorem expand (h : Trail A δ seeds s t) (ha : s.found.get? s.expanded = some a) :
    ∃ t', Trail A δ seeds (Free.expand s (letterMoves A δ a)) t' := by
  have hsnd : (t[s.expanded]?).map Prod.snd = some a := by
    rw [← List.getElem?_map, h.found]
    exact ha
  obtain ⟨⟨r, a⟩, hget, rfl⟩ := Option.map_eq_some_iff.1 hsnd
  obtain ⟨hlt, hgetElem⟩ := List.getElem?_eq_some_iff.1 hget
  have hr : (r, a) ∈ t := List.mem_of_getElem? hget
  have hdrop : t.drop s.expanded = (r, a) :: t.drop (s.expanded + 1) := by
    rw [List.drop_eq_getElem_cons hlt, hgetElem]
  have hlater : ∀ p ∈ t, ∀ y, p.1.key A < (r.push y).key A :=
    fun p hp y => h.later p hp (r, a) (hdrop ▸ List.mem_cons_self) y
  obtain ⟨new, hnew, hsorted, hbehind, hclosed⟩ := exists_trail_letters δ a
    Numbering.pairwise_rank h.found h.sorted fun p hp y _ => hlater p hp y
  refine ⟨t ++ new, ?_, ?_, hsorted, fun i a hi => List.mem_append_left _ (h.seeded i a hi), ?_, ?_⟩
  · rw [hnew, Free.found_expand, letterMoves, List.map_map]
    rfl
  · refine List.forall_mem_append.2 ⟨h.reaches, fun q hq => ?_⟩
    obtain ⟨y, hy, rfl⟩ := hbehind q hq
    exact (h.reaches _ hr).push hy
  · -- the letters of this state have just been followed
    rw [Free.expanded_expand, List.take_append_of_le_length hlt, List.take_add_one, hget]
    refine List.forall_mem_append.2 ⟨fun p hp y hy => ?_, List.forall_mem_singleton.2 hclosed⟩
    obtain ⟨q, hq, hqy⟩ := h.closed p hp y hy
    exact ⟨q, List.mem_append_left new hq, hqy⟩
  · -- a new route goes on from `r`, which is before all routes that go on from the other states
    rw [Free.expanded_expand, List.drop_append_of_le_length hlt]
    have hrest : ∀ q ∈ t.drop (s.expanded + 1) ++ new, r.key A < q.1.key A := by
      refine List.forall_mem_append.2 ⟨?_, fun q hq => ?_⟩
      · exact (List.pairwise_cons.1 (hdrop ▸ h.sorted.drop)).1
      · obtain ⟨z, -, rfl⟩ := hbehind q hq
        exact Route.key_lt_key_push
    intro p hp q hq y
    rcases List.mem_append.1 hp with hp | hp
    · rcases List.mem_append.1 hq with hq | hq
      · exact h.later p hp q (hdrop ▸ List.mem_cons_of_mem _ hq) y
      · obtain ⟨z, -, rfl⟩ := hbehind q hq
        exact (hlater p hp z).trans Route.key_lt_key_push
    · obtain ⟨z, -, rfl⟩ := hbehind p hp
      exact Route.key_push_lt_key_push (hrest q hq)

theorem run (h : Trail A δ seeds s t) (k : ℕ) :
    ∃ t', Trail A δ seeds (Free.run (letterMoves A δ) k s) t' := by
  refine Free.run_induction (P := fun s => ∃ t, Trail A δ seeds s t) ?_ ⟨t, h⟩ k
  rintro s a ⟨t, ht⟩ ha
  exact ht.expand ha

/-- Records do not matter. -/
theorem report (h : Trail A δ seeds s t) (r : Record σ) : Trail A δ seeds (s.report r) t :=
  ⟨h.found, h.reaches, h.sorted, h.seeded, h.closed, h.later⟩

/-! ### Searches that have come to their end -/

/-- Whatever route leads to a state, the state has been found on it or on one before it. -/
theorem exists_key_le (h : Trail A δ seeds s t) (hs : s.found.size ≤ s.expanded)
    (hr : Reaches A δ seeds r a) : ∃ p ∈ t, p.2 = a ∧ p.1.key A ≤ r.key A := by
  have htake : t.take s.expanded = t := by
    refine List.take_of_length_le ?_
    rw [← List.length_map Prod.snd, h.found]
    exact hs
  obtain ⟨i, w⟩ := r
  obtain ⟨b, hb, hw, rfl⟩ := hr
  induction w using List.reverseRecOn with
  | nil => exact ⟨_, h.seeded i b hb, rfl, le_refl _⟩
  | append_singleton w y ih =>
    obtain ⟨hw, hy⟩ := List.forall_mem_append.1 hw
    obtain ⟨p, hp, hpw, hple⟩ := ih hb hw
    obtain ⟨q, hq, hqy, hqle⟩ := h.closed p (htake.symm ▸ hp) y (List.forall_mem_singleton.1 hy)
    refine ⟨q, hq, ?_, hqle.trans (Route.key_push_le_key_push hple)⟩
    rw [hqy, hpw, List.foldl_append]
    rfl

/-- The route on which a state was found is the first one there. -/
theorem isFirst (h : Trail A δ seeds s t) (hs : s.found.size ≤ s.expanded) {p : Route × σ}
    (hp : p ∈ t) : IsFirst A δ seeds p.1 p.2 := by
  refine ⟨h.reaches p hp, fun q hq hne => ?_⟩
  obtain ⟨p', hp', hpp, hle⟩ := h.exists_key_le hs hq
  have hnodup : (t.map Prod.snd).Nodup := h.found ▸ s.found.nodup
  rw [List.inj_on_of_nodup_map hnodup hp' hp hpp] at hle
  refine lt_of_le_of_ne hle fun hkey => hne ?_
  obtain ⟨-, -, hw, -⟩ := h.reaches p hp
  obtain ⟨-, -, hv, -⟩ := hq
  exact (Route.key_inj hw hv hkey).symm

/-- **A search lists the states it finds by their routes.** -/
theorem listedByRoute (h : Trail A δ seeds s t) (hs : s.found.size ≤ s.expanded) :
    ListedByRoute A δ seeds s.found.toList := by
  rw [← h.found]
  refine ⟨fun a ha => ?_, List.pairwise_map.2 (h.sorted.imp_of_mem ?_)⟩
  · obtain ⟨p, hp, rfl⟩ := List.mem_map.1 ha
    exact ⟨p.1, h.isFirst hs hp⟩
  · intro p q hp hq hpq r₁ r₂ h₁ h₂
    rw [h₁.unique (h.isFirst hs hp), h₂.unique (h.isFirst hs hq)]
    exact hpq

theorem mem_found_iff (h : Trail A δ seeds s t) (hs : s.found.size ≤ s.expanded) :
    a ∈ s.found ↔ ∃ r, Reaches A δ seeds r a := by
  rw [← Numbering.mem_toList, ← h.found, List.mem_map]
  constructor
  · rintro ⟨p, hp, rfl⟩
    exact ⟨p.1, h.reaches p hp⟩
  · rintro ⟨r, hr⟩
    obtain ⟨p, hp, hpa, -⟩ := h.exists_key_le hs hr
    exact ⟨p, hp, hpa⟩

end Trail

end Search

end Determinize
