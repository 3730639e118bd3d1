import Determinize.Symbol
import Mathlib.Tactic.SplitIfs

/-!
# Symbols that are written alike

A symbol is written as a character or as a number, so a symbol that has no character of its own may
be written like one that has.  There are eleven such pairs (`Symbol.lookalikes`).  One of the two is
always a letter or a digit, and putting it in the place of the other (`Symbol.plain`) changes no
text (`Symbol.text_plain`).  What is left then is a character, or a number of two digits at least,
and from both the symbol can be told (`Symbol.text_inj`).
-/

namespace Determinize

/-! ### Digits -/

theorem toDigits_inj {m n : Nat} : Nat.toDigits 10 m = Nat.toDigits 10 n ↔ m = n := by
  refine ⟨fun h => ?_, congrArg _⟩
  simpa using congrArg (Nat.ofDigitChars 10 · 0) h

/-- A character that is no digit is not in a number. -/
theorem not_mem_toDigits {c : Char} {n : Nat} (hc : c.isDigit = false) : c ∉ Nat.toDigits 10 n :=
  fun h => Bool.false_ne_true
    (hc.symm.trans (Nat.isDigit_of_mem_toDigits (by decide) (by decide) h))

namespace Symbol

variable {y z : Symbol} {c : Char}

/-- The pairs of different symbols that are written alike: the silent symbol and the letter `ε`,
and for each digit the control character with its number and the digit. -/
def lookalikes : List (Symbol × Symbol) :=
  (silent, ⟨949⟩) :: (List.range 10).map fun d => (⟨.ofNat d⟩, ⟨.ofNat (48 + d)⟩)

/-- Two symbols are one of the pairs, in whichever order. -/
def Lookalike (y z : Symbol) : Prop := (y, z) ∈ lookalikes ∨ (z, y) ∈ lookalikes

/-- The letter or digit of a pair in the place of the other symbol. -/
def plain (y : Symbol) : Symbol :=
  if y.isSilent then ⟨949⟩ else if y.id < 10 then ⟨48 + y.id⟩ else y

/-! ### Symbols as numbers -/

theorem eq_iff_toNat : y = z ↔ y.id.toNat = z.id.toNat := by
  rw [UInt32.toNat_inj]
  refine ⟨congrArg id, fun h => ?_⟩
  cases y
  cases z
  exact congrArg mk h

theorem isSilent_iff : y.isSilent = true ↔ y.id.toNat = 4294967295 := by
  rw [isSilent, decide_eq_true_iff, eq_iff_toNat]
  rfl

theorem mem_lookalikes :
    (y, z) ∈ lookalikes ↔
      y.id.toNat = 4294967295 ∧ z.id.toNat = 949 ∨
      y.id.toNat < 10 ∧ z.id.toNat = 48 + y.id.toNat := by
  simp only [lookalikes, List.mem_cons, List.mem_map, List.mem_range, Prod.mk.injEq, eq_iff_toNat,
    UInt32.toNat_ofNat']
  refine or_congr Iff.rfl ⟨?_, fun ⟨hy, hz⟩ => ⟨y.id.toNat, hy, ?_, ?_⟩⟩
  · rintro ⟨d, hd, hy, hz⟩
    omega
  · omega
  · omega

theorem toNat_plain :
    y.plain.id.toNat =
      if y.id.toNat = 4294967295 then 949
      else if y.id.toNat < 10 then 48 + y.id.toNat
      else y.id.toNat := by
  have hlt : y.id < 10 ↔ y.id.toNat < 10 := UInt32.lt_iff_toNat_lt
  simp only [plain, isSilent_iff, hlt]
  split_ifs with hs hd
  · rfl
  · have h48 : (48 : UInt32).toNat = 48 := rfl
    rw [UInt32.toNat_add, h48]
    omega
  · rfl

/-- Two symbols have the same letter or digit in their places if they are equal or a pair. -/
theorem plain_inj : y.plain = z.plain ↔ y = z ∨ Lookalike y z := by
  have hy : y.id.toNat < 4294967296 := y.id.toNat_lt
  have hz : z.id.toNat < 4294967296 := z.id.toNat_lt
  simp only [eq_iff_toNat, Lookalike, mem_lookalikes, toNat_plain]
  split_ifs <;> omega

theorem plain_eq_or_mem_lookalikes : y.plain = y ∨ (y, y.plain) ∈ lookalikes := by
  simp only [eq_iff_toNat, mem_lookalikes, toNat_plain]
  split_ifs <;> omega

theorem isSilent_plain : y.plain.isSilent = false := by
  rw [Bool.eq_false_iff, Ne, isSilent_iff, toNat_plain]
  split_ifs <;> omega

theorem ten_le_plain : 10 ≤ y.plain.id.toNat := by
  rw [toNat_plain]
  split_ifs <;> omega

/-! ### Texts -/

theorem text_plain : y.plain.text = y.text := by
  have hpairs : ∀ p ∈ lookalikes, p.1.text = p.2.text := by decide
  rcases plain_eq_or_mem_lookalikes (y := y) with h | h
  · rw [h]
  · exact (hpairs _ h).symm

theorem toList_digits : y.digits.toList = Nat.toDigits 10 y.id.toNat := Nat.toList_repr

theorem digits_inj : y.digits = z.digits ↔ y = z := by
  rw [eq_iff_toNat, ← String.toList_inj, toList_digits, toList_digits, toDigits_inj]

/-- A number of two digits or more is not a character. -/
theorem digits_ne_toString (hy : 10 ≤ y.id.toNat) : y.digits ≠ c.toString := by
  intro h
  have hlength : (Nat.toDigits 10 y.id.toNat).length ≤ 1 := by
    rw [← toList_digits, h, Char.toString, String.toList_singleton]
    exact Nat.le_refl 1
  have hlt : y.id.toNat < 10 ^ 1 := (Nat.length_toDigits_le_iff (by decide) (by decide)).1 hlength
  omega

/-- A symbol other than the silent one is written as its character or as its number. -/
theorem text_cases (hy : y.isSilent = false) :
    (∃ c, y = ofChar c ∧ y.text = c.toString) ∨ y.text = y.digits := by
  unfold text char?
  rw [if_neg (by simp [hy])]
  split
  · next c hc =>
    split
    · exact .inr rfl
    · refine .inl ⟨c, ?_, rfl⟩
      split at hc
      · cases hc
        rfl
      · cases hc
  · exact .inr rfl

theorem eq_of_text_eq (hy : y.isSilent = false) (hy10 : 10 ≤ y.id.toNat) (hz : z.isSilent = false)
    (hz10 : 10 ≤ z.id.toNat) (h : y.text = z.text) : y = z := by
  rcases text_cases hy with ⟨c, rfl, hc⟩ | hyd <;> rcases text_cases hz with ⟨d, rfl, hd⟩ | hzd
  · rw [hc, hd, ← String.toList_inj, Char.toString, Char.toString, String.toList_singleton,
      String.toList_singleton] at h
    rw [List.head_eq_of_cons_eq h]
  · rw [hc, hzd] at h
    exact absurd h.symm (digits_ne_toString hz10)
  · rw [hyd, hd] at h
    exact absurd h (digits_ne_toString hy10)
  · rw [hyd, hzd] at h
    exact digits_inj.1 h

/-- **Symbols are written alike** if they are equal or one of the pairs, and not otherwise. -/
theorem text_inj : y.text = z.text ↔ y = z ∨ Lookalike y z := by
  rw [← text_plain (y := y), ← text_plain (y := z), ← plain_inj]
  refine ⟨fun h => ?_, congrArg text⟩
  exact eq_of_text_eq isSilent_plain ten_le_plain isSilent_plain ten_le_plain h

example : lookalikes.length = 11 := rfl

end Symbol

end Determinize
