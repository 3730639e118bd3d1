import Determinize.Checked
import Determinize.Proofs.TableDfa.Cells

/-!
# Nothing fails

On the way from rules to a table everything fits (`Nfa.checked_neverFails`): the steps that fail
where a number is too great do what the steps on unbounded numbers do.  There are three reasons.

The numbers that sets are asked to hold come from the numbering that the sets were made for, so they
are below its size (`Checked.encode_eq_ok`, `Checked.arrows_eq_ok`).

Symbols are words of 32 bits, and the silent one is no letter, so an alphabet has fewer than
`2 ^ 32` symbols (`Nfa.size_alphabet_lt`).  Hence `2 ^ 32` rows have fewer than `2 ^ 64` cells, and
the cell of a state and a letter has a number below that, even if the state is beyond the table
(`Checked.cell_eq_ok`).

A table without columns has no cells, so nothing is ever divided by a width of zero
(`Checked.entry?_eq_ok`).
-/

namespace Determinize

namespace Checked

/-- Making the table of a deterministic machine, and asking it, never fails, and gives what it gives
on unbounded numbers. -/
structure Fits (D : SubsetDfa) : Prop where
  /-- The table can be made. -/
  table : table D = .ok (.ofSubsets D)
  /-- Every move can be looked up, whatever the state and the symbol. -/
  next? : ∀ s y, next? (.ofSubsets D) s y = .ok ((TableDfa.ofSubsets D).next? s y)
  /-- All moves can be listed. -/
  entries : entries (.ofSubsets D) = .ok (TableDfa.ofSubsets D).entries
  /-- Only states accept. -/
  accepting_lt : ∀ i ∈ (TableDfa.ofSubsets D).accepting, i < (TableDfa.ofSubsets D).size
  /-- They can be listed. -/
  acceptingStates : acceptingStates (.ofSubsets D) = .ok (TableDfa.ofSubsets D).acceptingStates

variable {fault : Fault} {bound n i c : ℕ} {α β : Type} {l : List α} {s : State} {y : Symbol}

/-! ### Single steps -/

theorem below_eq_ok (h : n < bound) : below bound fault n = .ok n := if_pos h

theorem mul_eq_ok (h : n * i < 2 ^ 64) : mul n i = .ok (n * i) := below_eq_ok h

theorem add_eq_ok (h : n + i < 2 ^ 64) : add n i = .ok (n + i) := below_eq_ok h

/-- A number names a state if no bit is lost. -/
theorem state_eq_ok_iff : state n = .ok s ↔ s.toNat = n := by
  unfold state below
  split
  · next h =>
    change Except.ok (UInt32.ofNat n) = .ok s ↔ _
    rw [Except.ok.injEq, ← UInt32.toNat_inj, UInt32.toNat_ofNat_of_lt' h, eq_comm]
  · next h =>
    refine iff_of_false nofun fun hs => h ?_
    exact hs ▸ s.toNat_lt

theorem state_eq_ok (h : n < 2 ^ 32) : state n = .ok (UInt32.ofNat n) :=
  state_eq_ok_iff.2 (UInt32.toNat_ofNat_of_lt' h)

@[simp] theorem ok_bind {a : α} {f : α → Except Fault β} : (Except.ok a >>= f) = f a := rfl

/-- If no step of a loop fails, the loop does not. -/
theorem foldlM_eq_ok {P : β → Prop} {f : β → α → Except Fault β} {g : β → α → β} {b : β}
    (h : ∀ b, P b → ∀ a ∈ l, f b a = .ok (g b a) ∧ P (g b a)) (hb : P b) :
    l.foldlM f b = .ok (l.foldl g b) := by
  induction l generalizing b with
  | nil => rfl
  | cons a l ih =>
    obtain ⟨hstep, hP⟩ := h b hb a List.mem_cons_self
    rw [List.foldlM_cons, hstep, List.foldl_cons]
    exact ih (fun b hb a ha => h b hb a (List.mem_cons_of_mem _ ha)) hP

theorem mapM_eq_ok {f : α → Except Fault β} {g : α → β} (h : ∀ a ∈ l, f a = .ok (g a)) :
    l.mapM f = .ok (l.map g) := by
  induction l with
  | nil => rfl
  | cons a l ih =>
    obtain ⟨ha, hl⟩ := List.forall_mem_cons.1 h
    rw [List.mapM_cons, ha, ih hl]
    rfl

theorem mask_eq_ok {l : List ℕ} (h : ∀ i ∈ l, i < bound) : mask bound l = .ok (.ofList l) := by
  refine foldlM_eq_ok (P := fun _ => True) (fun m _ i hi => ⟨?_, trivial⟩) trivial
  rw [insert, below_eq_ok (h i hi)]
  rfl

/-! ### The index of rules -/

theorem lt_size_of_mem_filterMap {v : Numbering α} [DecidableEq α]
    (h : i ∈ l.filterMap v.number?) : i < v.size := by
  obtain ⟨a, -, ha⟩ := List.mem_filterMap.1 h
  exact Numbering.lt_size_of_number? ha

theorem addArrow_eq_ok [DecidableEq α] {nodes : Numbering α} {r : Rule α} {A : Arrows} :
    addArrow nodes r A = .ok (Arrows.add nodes r A) := by
  unfold addArrow Arrows.add
  cases nodes.number? r.source with
  | none => rfl
  | some i =>
    cases hj : nodes.number? r.target with
    | none => rfl
    | some j =>
      simp only [below_eq_ok (Numbering.lt_size_of_number? hj), ok_bind]
      rfl

theorem arrows_eq_ok [DecidableEq α] {nodes : Numbering α} {rules : List (Rule α)} :
    arrows nodes rules = .ok (Arrows.ofRules nodes rules) := by
  rw [arrows, Arrows.ofRules, List.foldr_eq_foldl_reverse]
  exact foldlM_eq_ok (P := fun _ => True) (fun _ _ _ _ => ⟨addArrow_eq_ok, trivial⟩) trivial

theorem encode_eq_ok {R : RuleIndex} {S : States} : encode R S = .ok (R.encode S) :=
  mask_eq_ok fun _ => lt_size_of_mem_filterMap

/-! ### Cells -/

/-- There are words enough for the cells of `2 ^ 32` rows. -/
theorem cells_lt {rows width : ℕ} (hrows : rows ≤ 2 ^ 32) (hwidth : width < 2 ^ 32) :
    rows * width < 2 ^ 64 :=
  calc rows * width
  _ ≤ 2 ^ 32 * width := Nat.mul_le_mul_right _ hrows
  _ < 2 ^ 32 * 2 ^ 32 := Nat.mul_lt_mul_of_pos_left hwidth (Nat.two_pow_pos 32)
  _ = 2 ^ 64 := by rw [← Nat.pow_add]

/-- Whatever the state, its row is below the row `2 ^ 32`, and no table is so wide that this row
would begin beyond the words. -/
theorem cell_eq_ok {width : ℕ} (hi : i < 2 ^ 32) (hc : c < width) (hwidth : width < 2 ^ 32) :
    cell width i c = .ok (i * width + c) := by
  have hadd : i * width + c < 2 ^ 64 :=
    Nat.lt_trans ((TableDfa.cell_lt_iff hc).2 hi) (cells_lt le_rfl hwidth)
  have hmul : i * width < 2 ^ 64 := Nat.lt_of_le_of_lt (Nat.le_add_right _ c) hadd
  rw [cell, mul_eq_ok hmul, ok_bind, add_eq_ok hadd]

/-! ### Making the table -/

/-- A move is written into a cell of the table. -/
theorem fill_eq_ok {states : Numbering States} {alphabet : Numbering Symbol}
    {cells : Array (Option State)} {r : Rule States} (hstates : states.size ≤ 2 ^ 32)
    (halphabet : alphabet.size < 2 ^ 32) (hcells : cells.size = states.size * alphabet.size) :
    fill states alphabet cells r = .ok (TableDfa.fill states alphabet cells r) := by
  unfold fill TableDfa.fill
  cases hi : states.number? r.source with
  | none => rfl
  | some i =>
    cases hc : alphabet.number? r.symbol with
    | none => rfl
    | some c =>
      cases hj : states.number? r.target with
      | none => rfl
      | some j =>
        have hrow : i < states.size := Numbering.lt_size_of_number? hi
        have hcol : c < alphabet.size := Numbering.lt_size_of_number? hc
        have hstate : j < states.size := Numbering.lt_size_of_number? hj
        have hindex : i * alphabet.size + c < cells.size :=
          hcells ▸ (TableDfa.cell_lt_iff hcol).2 hrow
        simp only [cell_eq_ok (Nat.lt_of_lt_of_le hrow hstates) hcol halphabet,
          below_eq_ok hindex, state_eq_ok (Nat.lt_of_lt_of_le hstate hstates), ok_bind]
        rfl

theorem table_eq_ok {D : SubsetDfa} (hstates : D.states.size ≤ 2 ^ 32)
    (halphabet : D.alphabet.size < 2 ^ 32) : table D = .ok (.ofSubsets D) := by
  have hmask : mask D.states.size (D.accepting.toList.filterMap D.states.number?) =
      .ok (D.states.mask D.accepting.toList) := mask_eq_ok fun _ => lt_size_of_mem_filterMap
  have hcount : D.states.size * D.alphabet.size < 2 ^ 64 := cells_lt hstates halphabet
  -- writing does not change the number of cells, so it succeeds again
  have hcells : D.moves.foldlM (fill D.states D.alphabet)
      (Array.replicate (D.states.size * D.alphabet.size) none) =
      .ok (TableDfa.ofSubsets D).cells := by
    refine foldlM_eq_ok (P := fun cells => cells.size = D.states.size * D.alphabet.size)
      (fun cells hsize r _ => ⟨fill_eq_ok hstates halphabet hsize, ?_⟩) Array.size_replicate
    rw [TableDfa.size_fill, hsize]
  simp only [table, hmask, mul_eq_ok hcount, hcells, ok_bind]
  rfl

/-! ### Asking the table -/

variable {T : TableDfa}

/-- Every cell that is looked up has a number, that of a state beyond the table as well. -/
theorem next?_eq_ok (halphabet : T.alphabet.size < 2 ^ 32) : next? T s y = .ok (T.next? s y) := by
  unfold next? TableDfa.next?
  cases hc : T.alphabet.number? y with
  | none => rfl
  | some c =>
    simp only [cell_eq_ok s.toNat_lt (Numbering.lt_size_of_number? hc) halphabet, ok_bind]
    rfl

/-- A table that has a cell has a column. -/
theorem entry?_eq_ok {found : Option State} (h : T.Rectangular) (hn : n < T.cells.size) :
    entry? T n found = .ok (T.entry? n found) := by
  have hwidth : T.alphabet.size ≠ 0 := by
    intro hzero
    rw [h.size_cells, hzero, Nat.mul_zero] at hn
    exact Nat.not_lt_zero _ hn
  unfold entry? TableDfa.entry?
  cases found with
  | none => rfl
  | some t =>
    simp only [divMod, if_neg hwidth, ok_bind]
    cases T.alphabet.get? (n % T.alphabet.size) with
    | none => rfl
    | some y =>
      simp only [state_eq_ok_iff.2 (h.toNat_row hn).2, ok_bind]
      rfl

theorem entries_eq_ok (h : T.Rectangular) : entries T = .ok T.entries := by
  have hcells : T.cells.toList.zipIdx.mapM (fun p => entry? T p.2 p.1) =
      .ok (T.cells.toList.zipIdx.map fun p => T.entry? p.2 p.1) := by
    refine mapM_eq_ok fun p hp => entry?_eq_ok h ?_
    simpa using (List.mem_zipIdx hp).2.1
  rw [entries, hcells, TableDfa.entries, ok_bind, List.filterMap_map]
  rfl

theorem acceptingStates_eq_ok (hsize : T.size ≤ 2 ^ 32) :
    acceptingStates T = .ok T.acceptingStates := by
  refine mapM_eq_ok fun i hi => state_eq_ok ?_
  exact Nat.lt_of_lt_of_le (Mask.mem_members.1 hi).1 hsize

theorem fits {D : SubsetDfa} (hstates : D.states.size ≤ 2 ^ 32)
    (halphabet : D.alphabet.size < 2 ^ 32) : Fits D where
  table := table_eq_ok hstates halphabet
  next? _ _ := next?_eq_ok halphabet
  entries := entries_eq_ok (TableDfa.rectangular_ofSubsets hstates)
  accepting_lt i hi := by
    obtain ⟨S, -, hS⟩ := Numbering.mem_mask.1 hi
    exact Numbering.lt_size_of_number? hS
  acceptingStates := acceptingStates_eq_ok hstates

end Checked

namespace Nfa

variable {M : Nfa}

/-- There are fewer letters than words of 32 bits, since the silent symbol is none. -/
theorem size_alphabet_lt : M.alphabet.size < 2 ^ 32 := by
  have hinj : Function.Injective fun y : Symbol => y.id.toNat := by
    rintro ⟨i⟩ ⟨j⟩ hij
    exact congrArg Symbol.mk (UInt32.toNat_inj.1 hij)
  have hsub : (M.alphabet.toList.map fun y => y.id.toNat) ⊆ List.range (2 ^ 32 - 1) := by
    intro n hn
    obtain ⟨y, hy, rfl⟩ := List.mem_map.1 hn
    have hne : y.id.toNat ≠ Symbol.silent.id.toNat := fun h =>
      silent_not_mem_alphabet (hinj h ▸ hy)
    have hlt : y.id.toNat < 2 ^ 32 := y.id.toNat_lt
    have hsilent : Symbol.silent.id.toNat = 2 ^ 32 - 1 := rfl
    rw [List.mem_range]
    omega
  have hle := (List.subperm_of_subset (M.alphabet.nodup.map hinj) hsub).length_le
  rw [List.length_map, List.length_range] at hle
  rw [Numbering.size]
  omega

/-- **Nothing fails on the way from rules to a table.**  The arrows of rules and the numbers of any
set of states fit into the sets that are made for them, and there is a number before the count of
states when a new one is reported.  If a deterministic machine has at most `2 ^ 32` states, its
table can be made and asked: all cells have 64-bit numbers and are cells of the table, no state
loses a bit, and no width is zero where something is divided by it. -/
theorem checked_neverFails (M : Nfa) :
    Checked.arrows M.rules.nodes M.rules.rules = .ok M.rules.arrows ∧
    (∀ S, Checked.encode M.rules S = .ok (M.rules.encode S)) ∧
    (∀ (found : Numbering States) S, S ∉ found →
      Checked.pred (found.insert S).size = .ok found.size) ∧
    ∀ D, (D = M.determinize ∨ ∃ c, M.determinizeWithin c = .ok D) → D.states.size ≤ 2 ^ 32 →
      Checked.Fits D := by
  refine ⟨?_, fun S => Checked.encode_eq_ok, fun found S hS => ?_, fun D hD hsize => ?_⟩
  · rw [Checked.arrows_eq_ok, M.rules.arrows_eq]
  · rw [Numbering.size_insert_of_not_mem hS]
    rfl
  · obtain ⟨keep, rfl⟩ := exists_eq_subsetDfa hD
    exact Checked.fits hsize size_alphabet_lt

/-- The table of `aPlus` with its two states can be made. -/
theorem checked_neverFails_aPlus :
    aPlus.determinize.states.size ≤ 2 ^ 32 ∧ Checked.Fits aPlus.determinize ∧
      Checked.next? (TableDfa.ofSubsets aPlus.determinize) 0xFFFFFFFF (.ofChar 'a') = .ok none := by
  have hsize : aPlus.determinize.states.size ≤ 2 ^ 32 := by decide +kernel
  have hfits := (checked_neverFails aPlus).2.2.2 _ (.inl rfl) hsize
  refine ⟨hsize, hfits, (hfits.next? _ _).trans ?_⟩
  exact congrArg Except.ok (by decide +kernel)

end Nfa

end Determinize
