import CssHints.Text.Basic

/-!
# `CssHints.Text.Newline`: one mark for the end of a line

A file may end its lines with a carriage return, a line feed, or both in this order. When it is
read as text, each of the three becomes one line feed.
-/

set_option autoImplicit false

namespace CssHints.Text

/-- The text with each end of a line as one line feed. -/
def normalizeNewlines : Text → Text
  | [] => []
  | '\r' :: '\n' :: s => '\n' :: normalizeNewlines s
  | c :: s => (if c = '\r' then '\n' else c) :: normalizeNewlines s

/-- A text without carriage returns is read as it is. -/
theorem normalizeNewlines_eq_self {s : Text} (h : '\r' ∉ s) : normalizeNewlines s = s := by
  induction s with
  | nil => rfl
  | cons c s ih =>
    have hc : c ≠ '\r' := fun e => h (by simp [e])
    have hs : '\r' ∉ s := fun e => h (by simp [e])
    simp [normalizeNewlines, hc, ih hs]

end CssHints.Text
