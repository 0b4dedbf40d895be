import CssHints.Config.Basic
import CssHints.Stylesheet.Basic

/-!
# `CssHints.Eligibility`: which rules take hints

A rule is eligible if one of its property names holds a target and none of its selectors holds an
excluded text. Both are plain tests for a stretch of text, in the given case, and empty entries
count for nothing.
-/

set_option autoImplicit false

namespace CssHints

/-- The text holds one of the entries that are not empty. -/
def holdsEntry (entries : List Text) (s : Text) : Bool :=
  entries.any fun e => e ≠ [] && e.occursIn s

namespace Rule

/-- One of the selectors holds an excluded text. -/
def isExcluded (r : Rule) (c : Config) : Bool := r.selectors.any (holdsEntry c.exclude)

/-- One of the property names holds a target. -/
def hasTarget (r : Rule) (c : Config) : Bool := r.properties.any (holdsEntry c.target)

/-- The rule takes hints. -/
def isEligible (r : Rule) (c : Config) : Bool := !r.isExcluded c && r.hasTarget c

end Rule

end CssHints
