import CssHints.Text.Basic
import CssHints.Text.Printable

/-!
# `CssHints.Text.Quoted`: a text between quotes, as error messages show it

The quotes are apostrophes, unless the text holds an apostrophe and no quotation mark. A
backslash, the chosen quote and the three common controls are escaped with a backslash; any
other character that is not printable is written by its code point, in the shortest of the
forms `\xhh`, `\uhhhh` and `\Uhhhhhhhh`.
-/

set_option autoImplicit false

namespace CssHints.Text

/-- The apostrophe. -/
def apostrophe : Char := '\x27'

/-- The quotation mark. -/
def quotationMark : Char := '\x22'

/-- The quote to put around the text. -/
def quoteFor (s : Text) : Char :=
  if apostrophe ∈ s ∧ quotationMark ∉ s then quotationMark else apostrophe

/-- A character by its code point, in the shortest form that holds it. -/
def codePointEscape (c : Char) : Text :=
  let n := c.toNat
  if n < 0x100 then "\\x" ++ hex 2 n
  else if n < 0x10000 then "\\u" ++ hex 4 n
  else "\\U" ++ hex 8 n

/-- A character as it stands between two quotes `q`. -/
def quotedChar (q c : Char) : Text :=
  if c = q ∨ c = '\\' then ['\\', c]
  else if c = '\n' then "\\n"
  else if c = '\r' then "\\r"
  else if c = '\t' then "\\t"
  else if isPrintable c then [c]
  else codePointEscape c

/-- The text between quotes. -/
def quoted (s : Text) : Text :=
  let q := quoteFor s
  q :: s.flatMap (quotedChar q) ++ [q]

end CssHints.Text
