import CssHints.Stylesheet.Basic

/-!
# `CssHints.Stylesheet.Printer`: a stylesheet as text

There are two layouts. The spaced one puts each rule on a line of its own and indents the content
of at-rules by two spaces for each level. The compact one leaves out all optional blanks. A tree
built by hand may hold a stray text, which has no written form: `render?` refuses it, and
`render` writes the nodes around it.
-/

set_option autoImplicit false

namespace CssHints

/-- How a stylesheet is written. -/
inductive Layout
  | spaced
  | compact
  deriving DecidableEq, Repr

/-- A declaration without its semicolon. -/
def Declaration.render (layout : Layout) (d : Declaration) : Text :=
  match layout with
  | .spaced => d.property ++ ": " ++ d.value ++ (if d.important then " !important".toList else [])
  | .compact => d.property ++ ":" ++ d.value ++ (if d.important then "!important".toList else [])

/-- A rule on one line. -/
def Rule.render (layout : Layout) (r : Rule) : Text :=
  let decls : List Text := r.decls.map fun d => d.render layout ++ [';']
  match layout with
  | .spaced =>
    let head := Text.join ", " r.selectors
    if decls = [] then head ++ " \x7b\x7d" else head ++ " \x7b " ++ Text.join " " decls ++ " \x7d"
  | .compact => Text.join "," r.selectors ++ "\x7b" ++ decls.flatten ++ "\x7d"

/-- The head of an at-rule, with a space before its prelude if it has one. -/
def AtHead.render (h : AtHead) : Text :=
  if h.prelude = [] then "@" ++ h.name else "@" ++ h.name ++ " " ++ h.prelude

/-- The blanks before a line at the given depth. -/
def Layout.indent (layout : Layout) (depth : Nat) : Text :=
  match layout with
  | .spaced => List.replicate (2 * depth) ' '
  | .compact => []

/-- What stands between the head of an at-rule and its content. -/
def Layout.blockStart (layout : Layout) : Text :=
  match layout with
  | .spaced => " \x7b"
  | .compact => "\x7b"

mutual

/-- The lines of a node at the given depth. -/
def Node.lines (layout : Layout) (depth : Nat) : Node → List Text
  | .rule r => [layout.indent depth ++ r.render layout]
  | .statement head => [layout.indent depth ++ head.render ++ [';']]
  | .block head children decls =>
    (layout.indent depth ++ head.render ++ layout.blockStart) ::
      decls.map (fun d => layout.indent (depth + 1) ++ d.render layout ++ [';']) ++
      Stylesheet.lines layout (depth + 1) children ++
      [layout.indent depth ++ ['\x7d']]
  | .stray _ => []

/-- The lines of a list of nodes at the given depth. -/
def Stylesheet.lines (layout : Layout) (depth : Nat) : List Node → List Text
  | [] => []
  | n :: ns => n.lines layout depth ++ Stylesheet.lines layout depth ns

end

mutual

/-- The first stray text in a node. -/
def Node.stray? : Node → Option Text
  | .rule _ => none
  | .block _ children _ => Stylesheet.stray? children
  | .statement _ => none
  | .stray text => some text

/-- The first stray text in a list of nodes. -/
def Stylesheet.stray? : List Node → Option Text
  | [] => none
  | n :: ns => n.stray?.or (Stylesheet.stray? ns)

end

/-- A text stands where a node is needed. -/
structure RenderError where
  stray : Text
  deriving DecidableEq, Repr

/-- The words for a tree that cannot be written. -/
def RenderError.message (_ : RenderError) : Text := "Cannot render node of type str"

namespace Stylesheet

/-- The text of a stylesheet. In the spaced layout each line ends with a line feed. -/
def render (sheet : Stylesheet) (layout : Layout) : Text :=
  match layout with
  | .spaced => (lines layout 0 sheet).flatMap (· ++ ['\n'])
  | .compact => (lines layout 0 sheet).flatten

/-- The text of a stylesheet, if each of its parts is a node. -/
def render? (sheet : Stylesheet) (layout : Layout) : Except RenderError Text :=
  match stray? sheet with
  | some text => .error ⟨text⟩
  | none => .ok (render sheet layout)

end Stylesheet

end CssHints
