import CssHints.Text.Letter

/-!
# `CssHints.Stylesheet.AtRule`: which at-rules there are and what they hold

An at-rule is known by its base name: its name in lower case without a vendor mark. The block of
an at-rule holds rules or declarations, by its base name; some at-rules end with a semicolon and
have no block, and one may do either.
-/

set_option autoImplicit false

namespace CssHints.AtRule

/-- A name in lower case without the vendor mark in front of it: a hyphen, letters or digits, and
a hyphen. Only one mark is taken off. -/
def baseName (name : Text) : Text :=
  let low := Text.lower name
  match low with
  | [] => []
  | c :: s =>
    match s.dropWhile Text.isLowerAlphanum with
    | [] => low
    | d :: rest =>
      if c = '-' ∧ d = '-' ∧ s.takeWhile Text.isLowerAlphanum ≠ [] then rest else low

/-- The at-rules whose block holds rules. -/
def ruleListNames : List Text :=
  ["media", "supports", "document", "container", "layer", "scope", "starting-style", "keyframes"]

/-- The at-rules whose block holds declarations. -/
def declarationNames : List Text :=
  ["font-face", "page", "property", "counter-style", "viewport", "font-palette-values"]

/-- The at-rules that end with a semicolon. -/
def statementNames : List Text := ["import", "charset", "namespace", "layer"]

/-- The block of the at-rule holds rules. -/
def holdsRules (base : Text) : Bool := ruleListNames.contains base

/-- The at-rule may have a block. -/
def takesBlock (base : Text) : Bool := holdsRules base || declarationNames.contains base

/-- The at-rule may end with a semicolon. -/
def isStatement (base : Text) : Bool := statementNames.contains base

/-- How deep at-rules that hold rules may be nested. -/
def maxDepth : Nat := 256

end CssHints.AtRule
