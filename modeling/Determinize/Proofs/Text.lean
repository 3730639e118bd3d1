import Determinize.Proofs.Symbol
import Determinize.Rule
import Determinize.States.Lemmas
import Determinize.States.Text
import Mathlib.Data.List.Basic

/-!
# Reading texts back

The text of a rule is `#<FARule s --y--> t>`, and the text of the symbol may itself be a blank, a
dash, a bracket or a digit.  Still the three parts can be told from the whole.  The texts of states
and of sets are delimited (`Delimited`): it can be told where such a text ends if a blank comes
after it, and where it begins if a blank comes before it.  For a state this is so because there is
no blank in a number, for a set because there is no brace between its braces.  So the source can be
read off from the front and the target from the back, and what is left over is the text of the
symbol (`Rule.text_eq_iff`).

Which symbols have the same text is the matter of `Symbol.text_inj`.
-/

namespace Determinize

/-! ### Lists with marks in them -/

section Marks

variable {α : Type} {c : α} {l m u v sep : List α} {ls ms : List (List α)}

/-- What stands before and after the first occurrence of a mark is determined. -/
theorem append_mark_inj_left (hl : c ∉ l) (hm : c ∉ m) (h : l ++ c :: u = m ++ c :: v) :
    l = m ∧ u = v := by
  induction l generalizing m with
  | nil =>
    cases m with
    | nil => exact ⟨rfl, List.tail_eq_of_cons_eq h⟩
    | cons y m => exact absurd (List.head_eq_of_cons_eq h ▸ List.mem_cons_self) hm
  | cons x l ih =>
    cases m with
    | nil => exact absurd (List.head_eq_of_cons_eq h ▸ List.mem_cons_self) hl
    | cons y m =>
      obtain ⟨hxy, htail⟩ := List.cons_eq_cons.1 h
      obtain ⟨hlm, huv⟩ :=
        ih (List.not_mem_of_not_mem_cons hl) (List.not_mem_of_not_mem_cons hm) htail
      exact ⟨List.cons_eq_cons.2 ⟨hxy, hlm⟩, huv⟩

/-- What stands before and after the last occurrence of a mark is determined. -/
theorem append_mark_inj_right (hu : c ∉ u) (hv : c ∉ v) (h : l ++ c :: u = m ++ c :: v) :
    l = m ∧ u = v := by
  have hrev : u.reverse ++ c :: l.reverse = v.reverse ++ c :: m.reverse := by
    simpa using congrArg List.reverse h
  obtain ⟨huv, hlm⟩ := append_mark_inj_left (by simpa) (by simpa) hrev
  exact ⟨List.reverse_inj.1 hlm, List.reverse_inj.1 huv⟩

/-- Items with a mark behind each can be read back if the mark is in none. -/
theorem flatMap_append_mark_inj (hls : ∀ x ∈ ls, c ∉ x) (hms : ∀ x ∈ ms, c ∉ x)
    (h : (ls.flatMap fun x => x ++ c :: sep) = ms.flatMap fun x => x ++ c :: sep) : ls = ms := by
  induction ls generalizing ms with
  | nil =>
    cases ms with
    | nil => rfl
    | cons y ms => simp at h
  | cons x ls ih =>
    cases ms with
    | nil => simp at h
    | cons y ms =>
      obtain ⟨hx, hls⟩ := List.forall_mem_cons.1 hls
      obtain ⟨hy, hms⟩ := List.forall_mem_cons.1 hms
      simp only [List.flatMap_cons, List.append_assoc, List.cons_append] at h
      obtain ⟨hxy, hrest⟩ := append_mark_inj_left hx hy h
      rw [hxy, ih hls hms (List.append_cancel_left hrest)]

/-- With one more separator at the end, every item has one behind it. -/
theorem intercalate_append (h : ls ≠ []) :
    sep.intercalate ls ++ sep = ls.flatMap fun x => x ++ sep := by
  induction ls with
  | nil => exact absurd rfl h
  | cons x ls ih =>
    cases ls with
    | nil => simp
    | cons y ls =>
      rw [List.intercalate_cons_cons, List.append_assoc, ih (List.cons_ne_nil _ _)]
      rfl

/-- Items between separators can be read back if none is empty and the mark with which a separator
begins is in none. -/
theorem intercalate_inj (hls : ∀ x ∈ ls, x ≠ [] ∧ c ∉ x) (hms : ∀ x ∈ ms, x ≠ [] ∧ c ∉ x)
    (h : (c :: sep).intercalate ls = (c :: sep).intercalate ms) : ls = ms := by
  have hcons : ∀ {x : List α} {ls : List (List α)}, x ≠ [] →
      (c :: sep).intercalate (x :: ls) ≠ [] := by
    intro x ls hx
    cases ls <;> simp [hx]
  cases ls with
  | nil =>
    cases ms with
    | nil => rfl
    | cons y ms => exact absurd h.symm (hcons (hms y List.mem_cons_self).1)
  | cons x ls =>
    cases ms with
    | nil => exact absurd h (hcons (hls x List.mem_cons_self).1)
    | cons y ms =>
      have hmarks : ((x :: ls).flatMap fun x => x ++ c :: sep) =
          (y :: ms).flatMap fun x => x ++ c :: sep := by
        rw [← intercalate_append (List.cons_ne_nil _ _), h,
          intercalate_append (List.cons_ne_nil _ _)]
      exact flatMap_append_mark_inj (fun x hx => (hls x hx).2) (fun y hy => (hms y hy).2) hmarks

theorem mem_intercalate (h : c ∈ sep.intercalate ls) : c ∈ sep ∨ ∃ x ∈ ls, c ∈ x := by
  induction ls with
  | nil => simp at h
  | cons x ls ih =>
    cases ls with
    | nil => simp_all
    | cons y ls =>
      rw [List.intercalate_cons_cons, List.mem_append, List.mem_append] at h
      rcases h with (hx | hsep) | hls
      · exact .inr ⟨x, List.mem_cons_self, hx⟩
      · exact .inl hsep
      · rcases ih hls with hsep | ⟨z, hz, hcz⟩
        · exact .inl hsep
        · exact .inr ⟨z, List.mem_cons_of_mem _ hz, hcz⟩

end Marks

/-! ### States and sets -/

/-- The texts of a type are delimited by blanks. -/
class Delimited (σ : Type) [ToString σ] : Prop where
  /-- A text and what comes after the blank behind it can be told from both together. -/
  front : ∀ {a b : σ} {u v : List Char},
    (toString a).toList ++ ' ' :: u = (toString b).toList ++ ' ' :: v → a = b ∧ u = v
  /-- A text and what comes before the blank in front of it can be told from both together. -/
  back : ∀ {a b : σ} {u v : List Char},
    u ++ ' ' :: (toString a).toList = v ++ ' ' :: (toString b).toList → u = v ∧ a = b

namespace State

theorem toList_toString (s : State) : (toString s).toList = Nat.toDigits 10 s.toNat :=
  Nat.toList_repr

theorem toList_toString_inj {s t : State} (h : (toString s).toList = (toString t).toList) :
    s = t := by
  rw [toList_toString, toList_toString, toDigits_inj] at h
  exact UInt32.toNat_inj.1 h

theorem not_mem_toList_toString {c : Char} {s : State} (hc : c.isDigit = false) :
    c ∉ (toString s).toList := by
  rw [toList_toString]
  exact not_mem_toDigits hc

/-- There is no blank in a number. -/
instance : Delimited State where
  front h := by
    obtain ⟨hst, huv⟩ :=
      append_mark_inj_left (not_mem_toList_toString rfl) (not_mem_toList_toString rfl) h
    exact ⟨toList_toString_inj hst, huv⟩
  back h := by
    obtain ⟨huv, hst⟩ :=
      append_mark_inj_right (not_mem_toList_toString rfl) (not_mem_toList_toString rfl) h
    exact ⟨huv, toList_toString_inj hst⟩

end State

namespace States

variable {S T : States} {c : Char}

/-- What is written between the braces of a set. -/
def inner (S : States) : List Char :=
  [',', ' '].intercalate (S.toList.map fun a => (toString a).toList)

theorem toList_text (S : States) : S.text.toList = '{' :: (S.inner ++ ['}']) := by
  simp [text, inner, String.toList_intercalate, List.map_map, Function.comp_def]

/-- Between the braces there are digits, commas and blanks. -/
theorem not_mem_inner (hc : c.isDigit = false) (hsep : c ∉ [',', ' ']) : c ∉ S.inner := by
  intro h
  rcases mem_intercalate h with h | ⟨x, hx, hcx⟩
  · exact hsep h
  · obtain ⟨a, -, rfl⟩ := List.mem_map.1 hx
    exact State.not_mem_toList_toString hc hcx

theorem inner_inj (h : S.inner = T.inner) : S = T := by
  have hitems : ∀ (S : States), ∀ x ∈ S.toList.map fun a => (toString a).toList,
      x ≠ [] ∧ ',' ∉ x := by
    intro S x hx
    obtain ⟨a, -, rfl⟩ := List.mem_map.1 hx
    refine ⟨?_, State.not_mem_toList_toString rfl⟩
    rw [State.toList_toString]
    exact Nat.toDigits_ne_nil
  have hmap := intercalate_inj (hitems S) (hitems T) h
  exact toList_injective (List.map_injective_iff.2 (fun _ _ => State.toList_toString_inj) hmap)

/-- A set can be read back from its text. -/
theorem text_inj : S.text = T.text ↔ S = T := by
  refine ⟨fun h => ?_, congrArg text⟩
  have hinner : '{' :: (S.inner ++ ['}']) = '{' :: (T.inner ++ ['}']) := by
    rw [← toList_text, ← toList_text, h]
  exact inner_inj (List.append_cancel_right (List.tail_eq_of_cons_eq hinner))

/-- There is no brace between the braces of a set. -/
instance : Delimited States where
  front {S T u v} h := by
    have hbrace : ∀ S : States, '}' ∉ '{' :: S.inner := fun S =>
      List.not_mem_cons_of_ne_of_not_mem (by decide) (not_mem_inner rfl (by decide))
    have hmark : ('{' :: S.inner) ++ '}' :: ' ' :: u = ('{' :: T.inner) ++ '}' :: ' ' :: v := by
      simpa [toString, toList_text] using h
    obtain ⟨hST, huv⟩ := append_mark_inj_left (hbrace S) (hbrace T) hmark
    exact ⟨inner_inj (List.tail_eq_of_cons_eq hST), List.tail_eq_of_cons_eq huv⟩
  back {S T u v} h := by
    have hbrace : ∀ S : States, '{' ∉ S.inner ++ ['}'] := fun S =>
      List.not_mem_append (not_mem_inner rfl (by decide)) (by decide)
    have hmark : (u ++ [' ']) ++ '{' :: (S.inner ++ ['}']) =
        (v ++ [' ']) ++ '{' :: (T.inner ++ ['}']) := by
      simpa [toString, toList_text] using h
    obtain ⟨huv, hST⟩ := append_mark_inj_right (hbrace S) (hbrace T) hmark
    exact ⟨List.append_cancel_right huv, inner_inj (List.append_cancel_right hST)⟩

end States

/-! ### Rules -/

namespace Rule

variable {σ : Type} [ToString σ] {r r' : Rule σ}

theorem toList_text (r : Rule σ) :
    r.text.toList =
      "#<FARule ".toList ++ ((toString r.source).toList ++ ' ' :: '-' :: '-' ::
        ((r.symbol.text.toList ++ ['-', '-', '>']) ++ ' ' :: (toString r.target).toList ++
          ['>'])) := by
  have hfront : " --".toList = [' ', '-', '-'] := rfl
  have hback : "--> ".toList = ['-', '-', '>', ' '] := rfl
  have hend : ">".toList = ['>'] := rfl
  unfold text
  simp only [String.toList_append, hfront, hback, hend, List.append_assoc, List.cons_append,
    List.nil_append]

/-- Rules are written alike if their sources and their targets are equal and their symbols are
written alike. -/
theorem text_eq_iff [Delimited σ] :
    r.text = r'.text ↔
      r.source = r'.source ∧ r.target = r'.target ∧ r.symbol.text = r'.symbol.text := by
  constructor
  · intro h
    have hchars : r.text.toList = r'.text.toList := congrArg String.toList h
    rw [toList_text, toList_text] at hchars
    obtain ⟨hs, hrest⟩ := Delimited.front (List.append_cancel_left hchars)
    have hrest := List.tail_eq_of_cons_eq (List.tail_eq_of_cons_eq hrest)
    obtain ⟨hy, ht⟩ := Delimited.back (List.append_cancel_right hrest)
    exact ⟨hs, ht, String.toList_inj.1 (List.append_cancel_right hy)⟩
  · rintro ⟨hs, ht, hy⟩
    unfold text
    rw [hs, ht, hy]

end Rule

/-- **Texts can be read back, but for the symbols that are written alike.**  Two rules have the same
text iff they have the same source, the same target and symbols that are equal or one of eleven
pairs; this holds for rules between states as well as for rules between sets.  The text of a set
determines the set, and that of a symbol the symbol, the pairs aside. -/
theorem texts_readBack :
    (∀ r r' : Rule State, r.text = r'.text ↔
      r.source = r'.source ∧ r.target = r'.target ∧
        (r.symbol = r'.symbol ∨ r.symbol.Lookalike r'.symbol)) ∧
    (∀ r r' : Rule States, r.text = r'.text ↔
      r.source = r'.source ∧ r.target = r'.target ∧
        (r.symbol = r'.symbol ∨ r.symbol.Lookalike r'.symbol)) ∧
    (∀ S T : States, S.text = T.text ↔ S = T) ∧
    ∀ y z : Symbol, y.text = z.text ↔ y = z ∨ y.Lookalike z := by
  refine ⟨fun r r' => ?_, fun r r' => ?_, fun S T => States.text_inj, fun y z => Symbol.text_inj⟩
  · rw [Rule.text_eq_iff, Symbol.text_inj]
  · rw [Rule.text_eq_iff, Symbol.text_inj]

example :
    (⟨1, ⟨5⟩, 2⟩ : Rule State).text = (⟨1, .ofChar '5', 2⟩ : Rule State).text := by decide

end Determinize
