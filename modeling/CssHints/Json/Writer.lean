import CssHints.Text.Basic

/-!
# `CssHints.Json.Writer`: an object of texts as a JSON text

Each member stands on a line of its own, indented by two spaces, in the order given. Only
characters from the space to the tilde are written as they are; all others are escaped, those
beyond `FFFF` as a surrogate pair.
-/

set_option autoImplicit false

namespace CssHints.Json

/-- A code unit as an escape. -/
def unitEscape (n : Nat) : Text := "\\u" ++ Text.hex 4 n

/-- A character as it stands in a JSON string. -/
def writeChar (c : Char) : Text :=
  if c = '\x22' then "\\\x22"
  else if c = '\\' then "\\\\"
  else if c = '\n' then "\\n"
  else if c = '\r' then "\\r"
  else if c = '\t' then "\\t"
  else if c = '\x08' then "\\b"
  else if c = '\x0c' then "\\f"
  else
    let n := c.toNat
    if 0x20 ≤ n ∧ n < 0x7F then [c]
    else if n < 0x10000 then unitEscape n
    else unitEscape (0xD800 + (n - 0x10000) / 0x400) ++ unitEscape (0xDC00 + (n - 0x10000) % 0x400)

/-- A text as a JSON string. -/
def writeString (s : Text) : Text := '\x22' :: s.flatMap writeChar ++ ['\x22']

/-- A member on a line of its own. -/
def writeMember (m : Text × Text) : Text := "  " ++ writeString m.1 ++ ": " ++ writeString m.2

/-- An object with at least one member as a JSON text, without a line feed at its end. -/
def writeObject (members : List (Text × Text)) : Text :=
  "\x7b\n" ++ Text.join ",\n" (members.map writeMember) ++ "\n\x7d"

end CssHints.Json
