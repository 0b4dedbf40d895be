/-!
# `CssHints.Text.Range`: classes of characters given by ranges of code points
-/

set_option autoImplicit false

namespace CssHints.Text

/-- `n` lies in one of the ranges, both ends included. -/
def inRanges (n : Nat) (ranges : List (Nat × Nat)) : Bool :=
  ranges.any fun r => r.1 ≤ n && n ≤ r.2

end CssHints.Text
