import CssHints.Text.Basic
import CssHints.Text.Range

/-!
# `CssHints.Text.Blank`: the blanks that are trimmed from a text

A text is trimmed of all characters that Unicode counts as white space and of the four
separator controls `1C` to `1F`. This class is wider than the blanks of a stylesheet, which are
five (`CssHints.Token.Character`). Zero-width characters such as `200B` and `FEFF` are no blanks.
-/

set_option autoImplicit false

namespace CssHints.Text

/-- The code points of the blanks. -/
def blankRanges : List (Nat × Nat) :=
  [(0x09, 0x0D), (0x1C, 0x20), (0x85, 0x85), (0xA0, 0xA0), (0x1680, 0x1680), (0x2000, 0x200A),
   (0x2028, 0x2029), (0x202F, 0x202F), (0x205F, 0x205F), (0x3000, 0x3000)]

/-- The character is trimmed from the ends of a text. -/
def isTrimmed (c : Char) : Bool := inRanges c.toNat blankRanges

/-- The text without the blanks at its end. -/
def trimRight (s : Text) : Text := (s.reverse.dropWhile isTrimmed).reverse

/-- The text without the blanks at its two ends. -/
def trim (s : Text) : Text := trimRight (s.dropWhile isTrimmed)

end CssHints.Text
