import CssHints.Text.Basic

/-!
# `CssHints.PlainPath`: paths in plain form

A path in plain form has no empty names, no `.` and no slash at its end. It keeps `..`, since what
stands before it need not be there. Two slashes at the start stay, any other number of them
becomes one.
-/

set_option autoImplicit false

namespace CssHints

/-- The slashes at the start of a path, and the names after them. -/
structure PlainPath where
  root : Text
  names : List Text
  deriving DecidableEq, Repr

namespace PlainPath

/-- The plain form of a path. -/
def ofText (path : Text) : PlainPath where
  root :=
    match (path.takeWhile (· = '/')).length with
    | 0 => []
    | 2 => "//"
    | _ => "/"
  names := (Text.splitOn '/' path).filter fun n => n ≠ [] && n ≠ ['.']

/-- The path as it is written: the path to the working directory is a point. -/
def toText (path : PlainPath) : Text :=
  if path.root = [] ∧ path.names = [] then ['.'] else path.root ++ Text.join "/" path.names

/-- The path without its last name. -/
def parent (path : PlainPath) : PlainPath := { path with names := path.names.dropLast }

/-- The parent has fewer names, unless there are none. -/
theorem length_parent_lt (path : PlainPath) (h : path.names ≠ []) :
    path.parent.names.length < path.names.length := by
  have := List.length_pos_iff.mpr h
  simp only [parent, List.length_dropLast]
  omega

end PlainPath

end CssHints
