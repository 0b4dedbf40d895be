import CssHints.Text.Basic

/-!
# `CssHints.Text.Location`: places in a text

A place is counted in characters. A line ends at a line feed and at nothing else, and lines and
columns are counted from one. A token that is built by hand may carry any line and column, so
the two are integers.
-/

set_option autoImplicit false

namespace CssHints

/-- A place in a text. -/
structure Location where
  /-- The number of characters before the place. -/
  offset : Nat := 0
  /-- The line, from one. -/
  line : Int := 1
  /-- The column in the line, from one. -/
  column : Int := 1
  deriving DecidableEq, Repr

namespace Location

/-- The first place of a text. -/
def start : Location := {}

/-- The place behind the character `c`. -/
def next (l : Location) (c : Char) : Location :=
  if c = '\n' then ⟨l.offset + 1, l.line + 1, 1⟩ else ⟨l.offset + 1, l.line, l.column + 1⟩

/-- The place behind the text `s`. -/
def after (l : Location) (s : Text) : Location := s.foldl next l

/-- No text moves no place. -/
@[simp] theorem after_nil (l : Location) : l.after [] = l := rfl

/-- The place behind a text is counted from the place behind its first character. -/
@[simp] theorem after_cons (l : Location) (c : Char) (s : Text) :
    l.after (c :: s) = (l.next c).after s := rfl

/-- The place behind two texts is counted from the place behind the first. So places can be counted
piece by piece. -/
@[simp] theorem after_append (l : Location) (s t : Text) :
    l.after (s ++ t) = (l.after s).after t := by
  simp [after]

/-- Every character counts, also a line feed. -/
@[simp] theorem offset_next (l : Location) (c : Char) : (l.next c).offset = l.offset + 1 := by
  unfold next
  split <;> rfl

/-- The offset of a place is the number of characters before it. Lines and columns have no such
formula: they depend on the line feeds. -/
@[simp] theorem offset_after (l : Location) (s : Text) :
    (l.after s).offset = l.offset + s.length := by
  induction s generalizing l with
  | nil => rfl
  | cons c s ih => simp [ih]; omega

end Location

end CssHints
