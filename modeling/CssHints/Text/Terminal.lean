import CssHints.Text.Basic

/-!
# `CssHints.Text.Terminal`: messages without terminal control sequences

A control sequence is an escape character, an opening bracket, any number of parameters (digits,
`;` and `?`) and a letter from `a` to `z` in either case. Messages are printed without them.
-/

set_option autoImplicit false

namespace CssHints.Text

/-- The character may stand between the bracket and the letter of a control sequence. -/
def isParameter (c : Char) : Bool := c = ';' || c = '?' || c.isDigit

/-- The text behind the control sequence whose escape character has just been read. -/
def afterSequence? : Text → Option Text
  | '[' :: s =>
    match s.dropWhile isParameter with
    | c :: r => if c.isAlpha then some r else none
    | [] => none
  | _ => none

/-- What is left behind a control sequence is shorter than the text. This is why `stripSequences`
ends. -/
theorem length_afterSequence? {s r : Text} (h : afterSequence? s = some r) :
    r.length < s.length := by
  unfold afterSequence? at h
  split at h
  · rename_i s
    split at h
    · rename_i c t ht
      have hle := (List.dropWhile_suffix (l := s) isParameter).length_le
      rw [ht] at hle
      split at h
      · cases h
        simp only [List.length_cons] at hle ⊢
        omega
      · cases h
    · cases h
  · cases h

/-- The text without its control sequences. -/
def stripSequences : Text → Text
  | [] => []
  | c :: s =>
    if c = '\x1b' then
      match _h : afterSequence? s with
      | some r => stripSequences r
      | none => c :: stripSequences s
    else c :: stripSequences s
termination_by s => s.length
decreasing_by
  · have := length_afterSequence? _h
    simp only [List.length_cons]
    omega
  · simp
  · simp

end CssHints.Text
