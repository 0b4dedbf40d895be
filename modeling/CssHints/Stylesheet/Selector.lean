import CssHints.Text.Blank
import CssHints.Token.Basic

/-!
# `CssHints.Stylesheet.Selector`: the text of a run of tokens, and selectors in it

Selectors are separated by commas outside brackets. Here brackets are only counted: any closing
bracket closes the innermost group, of whatever form it is, and a closing bracket outside groups
counts for nothing.
-/

set_option autoImplicit false

namespace CssHints.Token

/-- The text of a run of tokens, trimmed. -/
def text (ts : List Token) : Text := Text.trim (concat ts)

/-- The number of open groups behind a token. -/
def groupDepth (depth : Nat) (t : Token) : Nat :=
  if t.kind.isOpener then depth + 1
  else if t.kind.isCloser then depth - 1
  else depth

/-- The runs between the commas outside groups, with `depth` groups open at the start. -/
def splitAtCommas (depth : Nat) : List Token → List (List Token)
  | [] => [[]]
  | t :: ts =>
    if t.kind = .comma ∧ depth = 0 then [] :: splitAtCommas 0 ts
    else match splitAtCommas (groupDepth depth t) ts with
      | [] => [[t]]
      | run :: runs => (t :: run) :: runs

/-- The selectors of a run of tokens. Empty ones are left out. -/
def splitSelectors (ts : List Token) : List Text :=
  ((splitAtCommas 0 ts).map text).filter (· ≠ [])

end CssHints.Token
