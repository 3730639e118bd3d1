/-!
# Symbols and words

A machine reads symbols. A symbol is a 32-bit number; every character is the symbol of its code
point, and the greatest number is set apart as the mark of a silent move, which no character has.

## Main definitions

* `Symbol` : a symbol; `Symbol.silent` marks the silent moves.
* `Symbol.text` : how a symbol is written in the text of a rule.
* `Word` : a finite sequence of symbols; `Word.ofString` reads a string character by character.
-/

namespace Determinize

/-- An input symbol, or the mark of a silent move. -/
structure Symbol where
  /-- The number of the symbol. -/
  id : UInt32
  deriving DecidableEq

namespace Symbol

/-- The mark of a silent move: the greatest number, beyond every code point. -/
def silent : Symbol := ⟨0xFFFFFFFF⟩

/-- Whether the symbol marks a silent move. -/
def isSilent (y : Symbol) : Bool := y = silent

/-- The symbol of a character is its code point. -/
def ofChar (c : Char) : Symbol := ⟨c.val⟩

/-- The character whose code point the symbol is; surrogates and numbers beyond the last code
point have none. -/
def char? (y : Symbol) : Option Char :=
  if h : y.id.isValidChar then some ⟨y.id, h⟩ else none

/-- The control characters of Unicode: the first thirty-two, and the thirty-three from the delete
character on. -/
def isControl (c : Char) : Bool := c.toNat < 32 || (127 ≤ c.toNat && c.toNat < 160)

/-- The symbol's number in decimal digits. -/
def digits (y : Symbol) : String := toString y.id.toNat

/-- The text of a symbol: `ε` for the silent symbol, the character itself if the symbol has one
that is no control character, and else the number. -/
def text (y : Symbol) : String :=
  if y.isSilent then "ε"
  else match y.char? with
    | some c => if isControl c then y.digits else c.toString
    | none => y.digits

end Symbol

/-- A word over the symbols. -/
abbrev Word := List Symbol

/-- The word of a string has one symbol for each of its characters. -/
def Word.ofString (s : String) : Word := s.toList.map Symbol.ofChar

end Determinize
