/-!
# `CssHints.Text.Basic`: text as a list of characters

The library works on `Text`, a list of characters, so that every rule about text is a rule
about lists. String literals are read as texts where a text is expected.

- `occursIn`: one text is a stretch of another;
- `splitOn`: the stretches between the occurrences of a separating character;
- `join`: texts with a separator between them;
- `ofNat`, `ofInt`, `hex`: numbers as text;
- `padRight`: a text filled up to a width.
-/

set_option autoImplicit false

namespace CssHints

/-- A text, one character for each code point. -/
abbrev Text := List Char

/-- A string literal stands for the list of its characters. -/
instance : Coe String Text := ⟨String.toList⟩

namespace Text

/-- `w` is a stretch of the text. The empty text is a stretch of every text. -/
def occursIn (w : Text) : Text → Bool
  | [] => w.isEmpty
  | c :: s => w.isPrefixOf (c :: s) || occursIn w s

/-- The stretches between the occurrences of `sep`: one more than `sep` occurs. -/
def splitOn (sep : Char) : Text → List Text
  | [] => [[]]
  | c :: s =>
    if c = sep then [] :: splitOn sep s
    else match splitOn sep s with
      | [] => [[c]]
      | p :: ps => (c :: p) :: ps

/-- The texts one after the other, with `sep` between them. -/
def join (sep : Text) (ts : List Text) : Text := List.intercalate sep ts

/-- A number in decimal digits. -/
def ofNat (n : Nat) : Text := Nat.toDigits 10 n

/-- An integer in decimal digits, with a sign only when it is negative. -/
def ofInt (n : Int) : Text :=
  if n < 0 then '-' :: ofNat n.natAbs else ofNat n.natAbs

/-- A number in lower-case hexadecimal digits, at least `width` of them. -/
def hex (width n : Nat) : Text :=
  let digits := Nat.toDigits 16 n
  List.replicate (width - digits.length) '0' ++ digits

/-- The text followed by as many spaces as it lacks of `width` characters. -/
def padRight (width : Nat) (s : Text) : Text :=
  s ++ List.replicate (width - s.length) ' '

end Text

end CssHints
