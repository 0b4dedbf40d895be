import CssHints.Text.Digit

/-!
# `CssHints.Token.Character`: what a stretch of source can start with

The tests on the first characters of a text by which the tokenizer chooses how to read on.
-/

set_option autoImplicit false

namespace CssHints.Token

open Text (isDigit startsDigit)

/-- A blank of a stylesheet. -/
def isBlank (c : Char) : Bool := c = ' ' || c = '\t' || c = '\n' || c = '\r' || c = '\x0c'

/-- A quote that opens a string. -/
def isQuote (c : Char) : Bool := c = '\x22' || c = '\x27'

/-- A sign of a number. -/
def isSign (c : Char) : Bool := c = '+' || c = '-'

/-- A character that can start a name: a Latin letter, an underscore, or anything outside the
first 128 code points. -/
def isNameStart (c : Char) : Bool := c.isAlpha || c = '_' || 0x7F < c.toNat

/-- A character that can stand inside a name. -/
def isNameChar (c : Char) : Bool := isNameStart c || isDigit c || c = '-'

/-- The text starts with an escape: a backslash and a character that is no line feed. -/
def startsEscape : Text → Bool
  | a :: c :: _ => a = '\\' && c ≠ '\n'
  | _ => false

/-- The text starts with a part of a name. -/
def startsName : Text → Bool
  | [] => false
  | c :: s => isNameChar c || startsEscape (c :: s)

/-- The text starts with an identifier. -/
def startsIdent : Text → Bool
  | [] => false
  | c :: s =>
    isNameStart c || startsEscape (c :: s) ||
      (c = '-' && match s with
        | [] => false
        | d :: t => isNameStart d || d = '-' || startsEscape (d :: t))

/-- The text starts with a point and a digit. -/
def startsFraction : Text → Bool
  | c :: s => c = '.' && startsDigit s
  | [] => false

/-- The text starts with a number: an optional sign, then a digit or a point and a digit. -/
def startsNumber : Text → Bool
  | [] => false
  | c :: s =>
    isDigit c || startsFraction (c :: s) || (isSign c && (startsDigit s || startsFraction s))

/-- The text starts with a quote, after any blanks. -/
def startsQuoted (s : Text) : Bool :=
  match s.dropWhile isBlank with
  | [] => false
  | c :: _ => isQuote c

/-- What starts an identifier starts a name. The converse fails: a digit, or a hyphen in front of
nothing, is part of a name and starts no identifier. -/
theorem startsName_of_startsIdent {s : Text} (h : startsIdent s = true) : startsName s = true := by
  cases s with
  | nil => simp [startsIdent] at h
  | cons c s =>
    simp only [startsIdent, startsName, isNameChar, Bool.or_eq_true, Bool.and_eq_true] at h ⊢
    obtain (h | h) | ⟨h, -⟩ := h
    · exact .inl (.inl (.inl h))
    · exact .inr h
    · exact .inl (.inr h)

end CssHints.Token
