import Determinize.Proofs.Language

/-!
# Rows and columns of the table

A table keeps its rows in one array, so a cell has one number, from which row and column have to
be found again.  A state looks a move up at `row * width + column`; the list of all moves goes
through the cells and gets the row by a division and the column as its remainder.  Each undoes the
other as long as columns stay below the width (`TableDfa.cell_div`, `TableDfa.cell_mod`), and the
column of a symbol does.  Hence looking up finds what is listed (`TableDfa.mem_entries_iff_next?`),
a state that is none reads beyond the end of the array, and going through the cells in order lists
row by row, and each row column by column (`TableDfa.pairwise_before_entries`).

All this needs only that the table has its rows in full and a name for each
(`TableDfa.Rectangular`), however wide it is; without columns it has no cells at all.
-/

namespace Determinize

namespace TableDfa

/-- The table has a full row for every state, and a name for every row. -/
structure Rectangular (T : TableDfa) : Prop where
  /-- There is a cell for every state and symbol. -/
  size_cells : T.cells.size = T.size * T.alphabet.size
  /-- There is a number for every state. -/
  size_le : T.size ≤ 2 ^ 32

/-- A move stands before another in the table: in a row above, or in the same row in a column to
the left. -/
def Before (T : TableDfa) (r r' : Rule State) : Prop :=
  r.source < r'.source ∨ r.source = r'.source ∧
    ∃ c c', T.alphabet.number? r.symbol = some c ∧ T.alphabet.number? r'.symbol = some c' ∧ c < c'

/-- What a table looks up and what it lists are the same moves, row by row. -/
structure RowMajor (T : TableDfa) : Prop where
  /-- Looking up finds what is listed. -/
  next?_iff_mem : ∀ s y t, T.next? s y = some t ↔ ⟨s, y, t⟩ ∈ T.entries
  /-- No move is listed twice. -/
  nodup : T.entries.Nodup
  /-- Moves are listed by their sources, and those of one source by the columns of their symbols. -/
  ordered : T.entries.Pairwise T.Before
  /-- The ends of every move are states. -/
  ends : ∀ r ∈ T.entries, r.source.toNat < T.size ∧ r.target.toNat < T.size
  /-- A number that is no state has no moves. -/
  next?_of_size_le : ∀ s y, T.size ≤ s.toNat → T.next? s y = none
  /-- There are no moves on a symbol outside the alphabet. -/
  next?_of_not_mem : ∀ s y, y ∉ T.alphabet → T.next? s y = none
  /-- Whatever the number, the cell that is looked up is in its own row and in the symbol's own
  column, and outside the table if the number is no state. -/
  own_row : ∀ (s : State) y c, T.alphabet.number? y = some c →
    (s.toNat * T.alphabet.size + c) / T.alphabet.size = s.toNat ∧
    (s.toNat * T.alphabet.size + c) % T.alphabet.size = c ∧
    (s.toNat * T.alphabet.size + c < T.cells.size ↔ s.toNat < T.size)

variable {T : TableDfa} {n c : ℕ} {cell : Option State} {r r' : Rule State} {s t : State}
  {y : Symbol}

/-! ### The move in a cell -/

theorem entry?_eq_some_iff :
    T.entry? n cell = some r ↔
      cell = some r.target ∧ T.alphabet.number? r.symbol = some (n % T.alphabet.size) ∧
        r.source = UInt32.ofNat (n / T.alphabet.size) := by
  obtain ⟨s, y, t⟩ := r
  simp only [TableDfa.entry?, Option.bind_eq_bind, Option.bind_eq_some_iff, Option.some.injEq,
    Rule.mk.injEq, Numbering.number?_eq_some_iff]
  constructor
  · rintro ⟨_, rfl, _, hy, rfl, rfl, rfl⟩
    exact ⟨rfl, hy, rfl⟩
  · rintro ⟨rfl, hy, rfl⟩
    exact ⟨t, rfl, y, hy, rfl, rfl, rfl⟩

theorem mem_entries :
    r ∈ T.entries ↔ ∃ n, T.cells[n]? = some (some r.target) ∧
      T.alphabet.number? r.symbol = some (n % T.alphabet.size) ∧
      r.source = UInt32.ofNat (n / T.alphabet.size) := by
  simp only [entries, List.mem_filterMap, Prod.exists, List.mem_zipIdx_iff_getElem?,
    entry?_eq_some_iff, Array.getElem?_toList]
  constructor
  · rintro ⟨_, n, hn, rfl, hcell⟩
    exact ⟨n, hn, hcell⟩
  · rintro ⟨n, hn, hcell⟩
    exact ⟨_, n, hn, rfl, hcell⟩

/-! ### Tables with full rows -/

namespace Rectangular

/-- The row of a cell has a name. -/
theorem toNat_row (h : T.Rectangular) (hn : n < T.cells.size) :
    n / T.alphabet.size < T.size ∧
      (UInt32.ofNat (n / T.alphabet.size)).toNat = n / T.alphabet.size := by
  have hrow : n / T.alphabet.size < T.size :=
    Nat.div_lt_of_lt_mul (by rw [Nat.mul_comm]; exact h.size_cells ▸ hn)
  exact ⟨hrow, UInt32.toNat_ofNat_of_lt' (Nat.lt_of_lt_of_le hrow h.size_le)⟩

theorem cell_lt_size_iff (h : T.Rectangular) (hc : T.alphabet.number? y = some c) :
    s.toNat * T.alphabet.size + c < T.cells.size ↔ s.toNat < T.size := by
  rw [h.size_cells]
  exact cell_lt_iff (Numbering.lt_size_of_number? hc)

theorem lt_size_of_next? (h : T.Rectangular) (ht : T.next? s y = some t) :
    s.toNat < T.size := by
  obtain ⟨c, hc, hcell⟩ := next?_eq_some_iff.1 ht
  exact (h.cell_lt_size_iff hc).1 (Array.getElem?_eq_some_iff.1 hcell).1

/-- **Looking up finds what is listed.** -/
theorem mem_entries_iff_next? (h : T.Rectangular) :
    ⟨s, y, t⟩ ∈ T.entries ↔ T.next? s y = some t := by
  rw [mem_entries, next?_eq_some_iff]
  constructor
  · rintro ⟨n, hn, hy, rfl⟩
    have hrow := (h.toNat_row (Array.getElem?_eq_some_iff.1 hn).1).2
    refine ⟨_, hy, ?_⟩
    rwa [hrow, Nat.mul_comm, Nat.div_add_mod]
  · rintro ⟨c, hc, hcell⟩
    have hlt : c < T.alphabet.size := Numbering.lt_size_of_number? hc
    refine ⟨_, hcell, ?_, ?_⟩
    · rw [cell_mod hlt, hc]
    · rw [cell_div hlt, UInt32.ofNat_toNat]

/-- The moves of two cells stand in the order of the cells. -/
theorem before_of_lt (h : T.Rectangular) {n' : ℕ} {cell' : Option State} (hnn' : n < n')
    (hn' : n' < T.cells.size) (hr : T.entry? n cell = some r)
    (hr' : T.entry? n' cell' = some r') : T.Before r r' := by
  obtain ⟨-, hc, hs⟩ := entry?_eq_some_iff.1 hr
  obtain ⟨-, hc', hs'⟩ := entry?_eq_some_iff.1 hr'
  have hrow := (h.toNat_row (Nat.lt_trans hnn' hn')).2
  have hrow' := (h.toNat_row hn').2
  rw [Before, hs, hs', UInt32.lt_iff_toNat_lt, hrow, hrow']
  rcases Nat.lt_or_eq_of_le (Nat.div_le_div_right hnn'.le) with hlt | heq
  · exact .inl hlt
  · -- in one row, the remainders tell the cells apart
    refine .inr ⟨by rw [heq], _, _, hc, hc', ?_⟩
    have hsum := Nat.div_add_mod n T.alphabet.size
    have hsum' := Nat.div_add_mod n' T.alphabet.size
    rw [heq] at hsum
    omega

/-- **The moves are listed row by row**, and each row column by column. -/
theorem pairwise_before_entries (h : T.Rectangular) : T.entries.Pairwise T.Before := by
  have hcells : T.cells.toList.zipIdx.Pairwise fun p q => p.2 < q.2 := by
    rw [List.pairwise_iff_getElem]
    intro i j hi hj hij
    simpa using hij
  have hbound : T.cells.toList.zipIdx.Pairwise fun p q => p.2 < q.2 ∧ q.2 < T.cells.size := by
    refine hcells.imp_of_mem fun _ hq hpq => ⟨hpq, ?_⟩
    simpa using (List.mem_zipIdx hq).2.1
  refine hbound.filterMap _ ?_
  rintro ⟨cell, n⟩ ⟨cell', n'⟩ ⟨hnn', hn'⟩ r hr r' hr'
  exact h.before_of_lt hnn' hn' hr hr'

end Rectangular

theorem not_before_self : ¬ T.Before r r := by
  rintro (hlt | ⟨-, c, c', hc, hc', hlt⟩)
  · exact UInt32.lt_irrefl _ hlt
  · rw [Option.some.inj (hc.symm.trans hc')] at hlt
    exact Nat.lt_irrefl _ hlt

/-! ### The table of the deterministic machine -/

variable {M : Nfa} {keep : Bool}

theorem rectangular_ofSubsets {D : SubsetDfa} (hsize : D.states.size ≤ 2 ^ 32) :
    (ofSubsets D).Rectangular where
  size_cells := by
    rw [size_ofSubsets, ofSubsets, size_foldl_fill, Array.size_replicate]
  size_le := hsize

/-- A move leads to the number of a set. -/
theorem target_lt_size (hsize : (M.subsetDfa keep).states.size ≤ 2 ^ 32)
    (ht : (ofSubsets (M.subsetDfa keep)).next? s y = some t) :
    t.toNat < (ofSubsets (M.subsetDfa keep)).size := by
  obtain ⟨S, U, j, -, -, hj, rfl⟩ := next?_ofSubsets.1 ht
  rw [toNat_ofNat_number hsize hj]
  exact Numbering.lt_size_of_number? hj

/-- **The table is consistent in itself.**  Looking a move up in the table of a deterministic
machine with at most `2 ^ 32` states finds exactly what is listed; the list has every move once, in
the order of the sources and, for one source, of the symbols; it has states only.  A number that is
no state and a symbol outside the alphabet have no moves: no cell of another row or column is
looked up for them. -/
theorem rowMajor_ofSubsets (M : Nfa) (D : SubsetDfa)
    (hD : D = M.determinize ∨ ∃ c, M.determinizeWithin c = .ok D)
    (hsize : D.states.size ≤ 2 ^ 32) : RowMajor (ofSubsets D) := by
  obtain ⟨keep, rfl⟩ := Nfa.exists_eq_subsetDfa hD
  have hrect := rectangular_ofSubsets hsize
  have hordered := hrect.pairwise_before_entries
  refine ⟨fun s y t => hrect.mem_entries_iff_next?.symm, ?_, hordered, ?_, ?_, ?_, ?_⟩
  · refine hordered.imp fun hbefore heq => ?_
    subst heq
    exact not_before_self hbefore
  · rintro ⟨s, y, t⟩ hr
    have hnext := hrect.mem_entries_iff_next?.1 hr
    exact ⟨hrect.lt_size_of_next? hnext, target_lt_size hsize hnext⟩
  · intro s y hs
    refine Option.eq_none_iff_forall_ne_some.2 fun t ht => ?_
    exact absurd (hrect.lt_size_of_next? ht) (Nat.not_lt.2 hs)
  · intro s y hy
    refine Option.eq_none_iff_forall_ne_some.2 fun t ht => ?_
    obtain ⟨c, hc, -⟩ := next?_eq_some_iff.1 ht
    exact hy (Numbering.mem_of_number? hc)
  · intro s y c hc
    have hlt : c < (ofSubsets (M.subsetDfa keep)).alphabet.size := Numbering.lt_size_of_number? hc
    exact ⟨cell_div hlt, cell_mod hlt, hrect.cell_lt_size_iff hc⟩

/-- Both sets of `aPlus` move to the second one on `a`. -/
theorem rowMajor_aPlus :
    Nfa.aPlus.determinize.states.size ≤ 2 ^ 32 ∧
      RowMajor (ofSubsets Nfa.aPlus.determinize) ∧
      (ofSubsets Nfa.aPlus.determinize).entries = [⟨0, .ofChar 'a', 1⟩, ⟨1, .ofChar 'a', 1⟩] := by
  have hsize : Nfa.aPlus.determinize.states.size ≤ 2 ^ 32 := by decide +kernel
  exact ⟨hsize, rowMajor_ofSubsets Nfa.aPlus _ (.inl rfl) hsize, by decide +kernel⟩

end TableDfa

end Determinize
