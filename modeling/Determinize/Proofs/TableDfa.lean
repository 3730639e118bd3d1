import Determinize.Proofs.SubsetDfa.Walk
import Determinize.TableDfa

/-!
# The table of the deterministic machine

Moves are written into the table one after the other (`TableDfa.fill`), each into the cell of its
source and symbol.  Different sources or symbols have different cells (`TableDfa.cell_inj`), and
no two moves of the deterministic machine share both, so a cell is filled exactly if there is a
move for it (`TableDfa.cells_ofSubsets`).

Hence the table moves between the numbers of sets as the machine moves between the sets
(`TableDfa.next?_ofSubsets`), and as long as the numbers fit into 32 bits, so do its walks.
-/

namespace Determinize

namespace TableDfa

variable {states : Numbering States} {alphabet : Numbering Symbol} {cells : Array (Option State)}
  {r : Rule States} {l : List (Rule States)} {n i c i' c' width : ℕ} {v v' : State}

/-! ### Filling the table -/

/-- A cell lies in its row. -/
theorem cell_div (hc : c < width) : (i * width + c) / width = i := by
  rw [Nat.mul_comm, Nat.mul_add_div (Nat.zero_lt_of_lt hc), Nat.div_eq_of_lt hc, Nat.add_zero]

/-- A cell lies in its column. -/
theorem cell_mod (hc : c < width) : (i * width + c) % width = c := by
  rw [Nat.mul_comm, Nat.mul_add_mod, Nat.mod_eq_of_lt hc]

/-- The cells of two pairs of a row and a column differ. -/
theorem cell_inj (hc : c < width) (hc' : c' < width) (h : i * width + c = i' * width + c') :
    i = i' ∧ c = c' := by
  constructor
  · calc i = (i * width + c) / width := (cell_div hc).symm
      _ = (i' * width + c') / width := by rw [h]
      _ = i' := cell_div hc'
  · calc c = (i * width + c) % width := (cell_mod hc).symm
      _ = (i' * width + c') % width := by rw [h]
      _ = c' := cell_mod hc'

/-- The cells of the first `n` rows are the first `n * width` cells. -/
theorem cell_lt_iff (hc : c < width) : i * width + c < n * width ↔ i < n := by
  rw [← Nat.div_lt_iff_lt_mul (Nat.zero_lt_of_lt hc), cell_div hc]

/-- The cell of a move, and what is written there. -/
def slot? (states : Numbering States) (alphabet : Numbering Symbol) (r : Rule States) :
    Option (ℕ × State) := do
  let i ← states.number? r.source
  let c ← alphabet.number? r.symbol
  let j ← states.number? r.target
  some (i * alphabet.size + c, UInt32.ofNat j)

theorem slot?_eq_some_iff :
    slot? states alphabet r = some (n, v) ↔
      ∃ i c j, states.number? r.source = some i ∧ alphabet.number? r.symbol = some c ∧
        states.number? r.target = some j ∧ n = i * alphabet.size + c ∧ v = UInt32.ofNat j := by
  simp only [slot?, Option.bind_eq_bind, Option.bind_eq_some_iff, Option.some.injEq,
    Prod.mk.injEq]
  constructor
  · rintro ⟨i, hi, c, hc, j, hj, rfl, rfl⟩
    exact ⟨i, c, j, hi, hc, hj, rfl, rfl⟩
  · rintro ⟨i, c, j, hi, hc, hj, rfl, rfl⟩
    exact ⟨i, hi, c, hc, j, hj, rfl, rfl⟩

theorem fill_eq :
    fill states alphabet cells r = match slot? states alphabet r with
      | some (n, v) => cells.setIfInBounds n (some v)
      | none => cells := by
  unfold fill slot?
  cases states.number? r.source <;> cases alphabet.number? r.symbol <;>
    cases states.number? r.target <;> rfl

theorem size_fill : (fill states alphabet cells r).size = cells.size := by
  rw [fill_eq]
  split
  · exact Array.size_setIfInBounds
  · rfl

theorem size_foldl_fill : (l.foldl (fill states alphabet) cells).size = cells.size := by
  induction l generalizing cells with
  | nil => rfl
  | cons r l ih => exact ih.trans size_fill

/-- If a move writes nothing but `v` into a cell, then `v` is there afterwards iff it was there
before or the move wrote it. -/
theorem getElem?_fill (hv : ∀ v', slot? states alphabet r = some (n, v') → v' = v) :
    (fill states alphabet cells r)[n]? = some (some v) ↔
      cells[n]? = some (some v) ∨ n < cells.size ∧ slot? states alphabet r = some (n, v) := by
  rw [fill_eq]
  cases hr : slot? states alphabet r with
  | none => simp
  | some p =>
    obtain ⟨m, v'⟩ := p
    by_cases hm : m = n
    · subst hm
      obtain rfl := hv v' hr
      simp only [Array.getElem?_setIfInBounds, ↓reduceIte, Option.ite_none_right_eq_some,
        and_true]
      refine ⟨.inr, fun h => h.elim (fun h => ?_) id⟩
      exact (Array.getElem?_eq_some_iff.1 h).1
    · simp [hm]

theorem getElem?_foldl_fill
    (hv : ∀ r ∈ l, ∀ v', slot? states alphabet r = some (n, v') → v' = v) :
    (l.foldl (fill states alphabet) cells)[n]? = some (some v) ↔
      cells[n]? = some (some v) ∨
        n < cells.size ∧ ∃ r ∈ l, slot? states alphabet r = some (n, v) := by
  induction l generalizing cells with
  | nil => simp
  | cons r l ih =>
    obtain ⟨hr, hl⟩ := List.forall_mem_cons.1 hv
    simp only [List.foldl_cons, ih hl, size_fill, getElem?_fill hr, List.mem_cons, or_assoc,
      exists_eq_or_imp, and_or_left]

/-- In a table that was empty, the moves that write `v` are the only reason for `v` to be there. -/
theorem getElem?_foldl_fill_empty {size : ℕ}
    (hv : ∀ r ∈ l, ∀ v', slot? states alphabet r = some (n, v') → v' = v) :
    (l.foldl (fill states alphabet) (Array.replicate size none))[n]? = some (some v) ↔
      n < size ∧ ∃ r ∈ l, slot? states alphabet r = some (n, v) := by
  have hempty : (Array.replicate size none)[n]? ≠ some (some v) := by
    rw [Array.getElem?_replicate]
    split <;> simp
  rw [getElem?_foldl_fill hv, Array.size_replicate]
  simp only [hempty, false_or]

/-- If no two moves write different things into a cell of an empty table, then the cell has been
filled by each move for it. -/
theorem getElem?_foldl_fill_replicate {size : ℕ}
    (hl : ∀ r ∈ l, ∀ r' ∈ l, ∀ v v', slot? states alphabet r = some (n, v) →
      slot? states alphabet r' = some (n, v') → v = v') :
    (l.foldl (fill states alphabet) (Array.replicate size none))[n]? = some (some v) ↔
      n < size ∧ ∃ r ∈ l, slot? states alphabet r = some (n, v) := by
  constructor
  · intro hv
    have hn : n < size := by
      have hsize := (Array.getElem?_eq_some_iff.1 hv).1
      rwa [size_foldl_fill, Array.size_replicate] at hsize
    -- either some move writes into the cell, and nothing else is written there, or none does
    by_cases hw : ∃ r ∈ l, ∃ u, slot? states alphabet r = some (n, u)
    · obtain ⟨r, hr, u, hu⟩ := hw
      have hcell : (l.foldl (fill states alphabet) (Array.replicate size none))[n]? =
          some (some u) :=
        (getElem?_foldl_fill_empty fun r' hr' v' hv' => hl r' hr' r hr v' u hv' hu).2
          ⟨hn, r, hr, hu⟩
      have hvu : v = u := Option.some.inj (Option.some.inj (hv.symm.trans hcell))
      exact ⟨hn, r, hr, hvu ▸ hu⟩
    · refine (getElem?_foldl_fill_empty fun r hr v' hv' => ?_).1 hv
      exact absurd ⟨r, hr, v', hv'⟩ hw
  · rintro ⟨hn, r, hr, hv⟩
    exact (getElem?_foldl_fill_empty fun r' hr' v' hv' => hl r' hr' r hr v' v hv' hv).2
      ⟨hn, r, hr, hv⟩

/-! ### Moves and walks -/

variable {M : Nfa} {keep : Bool} {S U : States} {s : State} {w : Word} {y : Symbol} {j : ℕ}
  {T : TableDfa}

theorem size_ofSubsets {D : SubsetDfa} : (ofSubsets D).size = D.states.size := rfl

theorem cells_ofSubsets :
    (ofSubsets (M.subsetDfa keep)).cells[n]? = some (some v) ↔
      n < (M.subsetDfa keep).states.size * M.alphabet.size ∧
        ∃ r ∈ (M.subsetDfa keep).moves,
          slot? (M.subsetDfa keep).states M.alphabet r = some (n, v) := by
  refine getElem?_foldl_fill_replicate fun r hr r' hr' v v' hv hv' => ?_
  obtain ⟨i, c, j, hi, hc, hj, hn, rfl⟩ := slot?_eq_some_iff.1 hv
  obtain ⟨i', c', j', hi', hc', hj', hn', rfl⟩ := slot?_eq_some_iff.1 hv'
  obtain ⟨rfl, rfl⟩ := cell_inj (Numbering.lt_size_of_number? hc)
    (Numbering.lt_size_of_number? hc') (hn.symm.trans hn')
  have hsource : r.source = r'.source := Numbering.number?_inj hi hi'
  have hsymbol : r.symbol = r'.symbol := Numbering.number?_inj hc hc'
  have htarget : r.target = r'.target :=
    calc r.target = M.successor r.source r.symbol := (Nfa.mem_moves_subsetDfa.1 hr).2.2.1.symm
      _ = M.successor r'.source r'.symbol := by rw [hsource, hsymbol]
      _ = r'.target := (Nfa.mem_moves_subsetDfa.1 hr').2.2.1
  rw [htarget, hj'] at hj
  rw [Option.some.inj hj]

theorem next?_eq_some_iff :
    T.next? s y = some v ↔
      ∃ c, T.alphabet.number? y = some c ∧
        T.cells[s.toNat * T.alphabet.size + c]? = some (some v) := by
  simp only [next?, Option.bind_eq_bind, Option.bind_eq_some_iff, Option.join_eq_some_iff]

/-- **The table moves as the machine does**, from the number of a set to the number of the set
that the machine moves to. -/
theorem next?_ofSubsets :
    (ofSubsets (M.subsetDfa keep)).next? s y = some v ↔
      ∃ S U j, (M.subsetDfa keep).states.number? S = some s.toNat ∧
        (M.subsetDfa keep).next? S y = some U ∧
        (M.subsetDfa keep).states.number? U = some j ∧ v = UInt32.ofNat j := by
  have halphabet : (ofSubsets (M.subsetDfa keep)).alphabet = M.alphabet := rfl
  simp only [next?_eq_some_iff, halphabet, cells_ofSubsets, Nfa.next?_eq_some_iff_mem_moves]
  constructor
  · rintro ⟨c, hc, -, ⟨S, y', U⟩, hr, hslot⟩
    obtain ⟨i, c', j, hi, hc', hj, hn, rfl⟩ := slot?_eq_some_iff.1 hslot
    obtain ⟨rfl, rfl⟩ := cell_inj (Numbering.lt_size_of_number? hc)
      (Numbering.lt_size_of_number? hc') hn
    obtain rfl : y = y' := Numbering.number?_inj hc hc'
    exact ⟨S, U, j, hi, hr, hj, rfl⟩
  · rintro ⟨S, U, j, hi, hr, hj, rfl⟩
    obtain ⟨c, hc⟩ := Numbering.exists_number? (Nfa.mem_moves_subsetDfa.1 hr).2.1
    refine ⟨c, hc, ?_, _, hr, slot?_eq_some_iff.2 ⟨_, c, j, hi, hc, hj, rfl, rfl⟩⟩
    exact (cell_lt_iff (Numbering.lt_size_of_number? hc)).2 (Numbering.lt_size_of_number? hi)

/-- A walk of a table reads symbols of its alphabet only. -/
theorem over_of_walk (h : T.walk s w = some v) : Word.Over T.alphabet w := by
  induction w generalizing s with
  | nil => exact List.forall_mem_nil _
  | cons y w ih =>
    change (T.next? s y).bind (T.walk · w) = some v at h
    obtain ⟨u, hu, hw⟩ := Option.bind_eq_some_iff.1 h
    obtain ⟨c, hc, -⟩ := next?_eq_some_iff.1 hu
    exact List.forall_mem_cons.2 ⟨Numbering.mem_of_number? hc, ih hw⟩

/-- A number of a machine with at most `2 ^ 32` states survives as a state of the table. -/
theorem toNat_ofNat_number {D : SubsetDfa} (hsize : D.states.size ≤ 2 ^ 32)
    (hi : D.states.number? S = some i) : (UInt32.ofNat i).toNat = i :=
  UInt32.toNat_ofNat_of_lt' (Nat.lt_of_lt_of_le (Numbering.lt_size_of_number? hi) hsize)

theorem walk_ofSubsets (hsize : (M.subsetDfa keep).states.size ≤ 2 ^ 32)
    (hi : (M.subsetDfa keep).states.number? S = some i) :
    (ofSubsets (M.subsetDfa keep)).walk (UInt32.ofNat i) w = some v ↔
      ∃ U j, (M.subsetDfa keep).walk S w = some U ∧
        (M.subsetDfa keep).states.number? U = some j ∧ v = UInt32.ofNat j := by
  -- the walks go in step: at any time the table is at the number of the set the machine is at
  induction w generalizing S i with
  | nil =>
    change some (UInt32.ofNat i) = some v ↔ ∃ U j, some S = some U ∧ _
    constructor
    · intro h
      exact ⟨S, i, rfl, hi, (Option.some.inj h).symm⟩
    · rintro ⟨U, j, hU, hj, rfl⟩
      cases hU
      rw [Option.some.inj (hi.symm.trans hj)]
  | cons y w ih =>
    change ((ofSubsets (M.subsetDfa keep)).next? (UInt32.ofNat i) y).bind
        ((ofSubsets (M.subsetDfa keep)).walk · w) = some v ↔
      ∃ U j, ((M.subsetDfa keep).next? S y).bind ((M.subsetDfa keep).walk · w) = some U ∧ _
    simp only [Option.bind_eq_some_iff, next?_ofSubsets, toNat_ofNat_number hsize hi]
    constructor
    · rintro ⟨_, ⟨S', S₁, i₁, hi', hS₁, hi₁, rfl⟩, hw⟩
      obtain rfl : S = S' := Numbering.number?_inj hi hi'
      obtain ⟨U, j, hU, hj, rfl⟩ := (ih hi₁).1 hw
      exact ⟨U, j, ⟨S₁, hS₁, hU⟩, hj, rfl⟩
    · rintro ⟨U, j, ⟨S₁, hS₁, hU⟩, hj, rfl⟩
      obtain ⟨hS, hy, rfl, hk⟩ := Nfa.next?_subsetDfa.1 hS₁
      obtain ⟨i₁, hi₁⟩ := Numbering.exists_number? (Nfa.successor_mem_states hS hy hk)
      exact ⟨UInt32.ofNat i₁, ⟨S, _, i₁, hi, hS₁, hi₁, rfl⟩, (ih hi₁).2 ⟨U, j, hU, hj, rfl⟩⟩

/-! ### Acceptance -/

theorem isAccepting_ofSubsets (hsize : (M.subsetDfa keep).states.size ≤ 2 ^ 32)
    (hi : (M.subsetDfa keep).states.number? S = some i) :
    (ofSubsets (M.subsetDfa keep)).isAccepting (UInt32.ofNat i) = true ↔
      S ∈ (M.subsetDfa keep).accepting := by
  have hmask : (ofSubsets (M.subsetDfa keep)).accepting =
      (M.subsetDfa keep).states.mask (M.subsetDfa keep).accepting.toList := rfl
  rw [isAccepting, decide_eq_true_eq, hmask, Numbering.mem_mask, toNat_ofNat_number hsize hi]
  constructor
  · rintro ⟨U, hU, hj⟩
    exact Numbering.number?_inj hi hj ▸ hU
  · exact fun hS => ⟨S, hS, hi⟩

/-- A table made from a machine need not be asked whether it has states: without states it has no
accepting states either. -/
theorem accepts_ofSubsets_eq (D : SubsetDfa) :
    (ofSubsets D).accepts w = ((ofSubsets D).walk start w).any (ofSubsets D).isAccepting := by
  unfold accepts
  split
  · next hempty =>
    have hstates : D.states.toList = [] := by simpa [ofSubsets] using hempty
    have hnone : ∀ v, (ofSubsets D).isAccepting v = false := by
      intro v
      refine decide_eq_false fun hv => ?_
      obtain ⟨S, -, hS⟩ := Numbering.mem_mask.1 hv
      have hmem : S ∈ D.states.toList := Numbering.mem_of_number? hS
      rw [hstates] at hmem
      exact List.not_mem_nil hmem
    cases (ofSubsets D).walk start w with
    | none => rfl
    | some v => exact (hnone v).symm
  · rfl

/-- **The table accepts what the machine accepts**, if it has a number for every set. -/
theorem accepts_ofSubsets (hsize : (M.subsetDfa keep).states.size ≤ 2 ^ 32) :
    (ofSubsets (M.subsetDfa keep)).accepts w = (M.subsetDfa keep).accepts w := by
  have hstart : (M.subsetDfa keep).states.number? M.startSet = some 0 :=
    Numbering.number?_eq_some_iff.2 Nfa.wellListed_subsetDfa.first
  rw [Bool.eq_iff_iff, accepts_ofSubsets_eq, SubsetDfa.accepts, Option.any_eq_true,
    Option.any_eq_true]
  have hzero : start = UInt32.ofNat 0 := rfl
  simp only [hzero, walk_ofSubsets hsize hstart, Nfa.start_subsetDfa, decide_eq_true_eq]
  constructor
  · rintro ⟨_, ⟨U, j, hU, hj, rfl⟩, hacc⟩
    exact ⟨U, hU, (isAccepting_ofSubsets hsize hj).1 hacc⟩
  · rintro ⟨U, hU, hacc⟩
    obtain ⟨j, hj⟩ := Numbering.exists_number? (Nfa.mem_accepting_subsetDfa.1 hacc).1
    exact ⟨UInt32.ofNat j, ⟨U, j, hU, hj, rfl⟩, (isAccepting_ofSubsets hsize hj).2 hacc⟩

theorem accepts_ofSubsets_of_silent (hw : Symbol.silent ∈ w) :
    (ofSubsets (M.subsetDfa keep)).accepts w = false := by
  rw [accepts_ofSubsets_eq, Bool.eq_false_iff, Ne, Option.any_eq_true]
  rintro ⟨v, hv, -⟩
  exact Nfa.silent_not_mem_alphabet (over_of_walk hv _ hw)

end TableDfa

end Determinize
