import CssHints.Text.Letter
import CssHints.Token.Character

/-!
# `CssHints.Token.Scan`: reading one stretch off the front of a text

Each reader returns the stretch that it takes and the rest. The lemmas `*_append` say that the
two together are the text it was given, so nothing is lost and nothing is made up.
-/

set_option autoImplicit false

namespace CssHints.Token

open Text (isDigit startsDigit)

/-- The longest run of name characters and escapes. -/
def takeName : Text → Text × Text
  | [] => ([], [])
  | c :: s =>
    if isNameChar c then (c :: (takeName s).1, (takeName s).2)
    else match s with
      | [] => ([], [c])
      | d :: t =>
        if c = '\\' ∧ d ≠ '\n' then (c :: d :: (takeName t).1, (takeName t).2)
        else ([], c :: d :: t)

/-- The longest run of digits. -/
def takeDigits (s : Text) : Text × Text := (s.takeWhile isDigit, s.dropWhile isDigit)

/-- A sign, if there is one. -/
def takeSign : Text → Text × Text
  | [] => ([], [])
  | c :: s => if isSign c then ([c], s) else ([], c :: s)

/-- A point with its digits, if there are any. -/
def takeFraction : Text → Text × Text
  | [] => ([], [])
  | c :: s =>
    if startsFraction (c :: s) then (c :: (takeDigits s).1, (takeDigits s).2) else ([], c :: s)

/-- An exponent: its mark, an optional sign and at least one digit. -/
def takeExponent : Text → Text × Text
  | [] => ([], [])
  | c :: s =>
    let sign := takeSign s
    if (c = 'e' || c = 'E') && startsDigit sign.2 then
      (c :: (sign.1 ++ (takeDigits sign.2).1), (takeDigits sign.2).2)
    else ([], c :: s)

/-- A numeral: sign, digits, fraction and exponent, each as far as it is there. -/
def takeNumeral (s : Text) : Text × Text :=
  let sign := takeSign s
  let whole := takeDigits sign.2
  let fraction := takeFraction whole.2
  let exponent := takeExponent fraction.2
  (sign.1 ++ (whole.1 ++ (fraction.1 ++ exponent.1)), exponent.2)

/-- The text up to the character `close`, which is taken too. A backslash takes the next
character with it. There is no such stretch if the text ends first, or, for a stretch of one
line, if a line feed comes first. -/
def takeThrough (close : Char) (oneLine : Bool) : Text → Option (Text × Text)
  | [] => none
  | c :: s =>
    if c = close then some ([c], s)
    else if c = '\\' then
      match s with
      | [] => none
      | d :: t => (takeThrough close oneLine t).map fun p => (c :: d :: p.1, p.2)
    else if oneLine && c = '\n' then none
    else (takeThrough close oneLine s).map fun p => (c :: p.1, p.2)

/-- The text up to the end mark of a comment, which is taken too. -/
def takeComment : Text → Option (Text × Text)
  | [] => none
  | c :: s =>
    if c = '*' ∧ s.head? = some '/' then some ([c, '/'], s.tail)
    else (takeComment s).map fun p => (c :: p.1, p.2)

/-! ### Nothing is lost -/

/-- A name and what follows it are the text. -/
theorem takeName_append (s : Text) : (takeName s).1 ++ (takeName s).2 = s := by
  fun_induction takeName s <;> simp_all

/-- The digits and what follows them are the text. -/
theorem takeDigits_append (s : Text) : (takeDigits s).1 ++ (takeDigits s).2 = s :=
  List.takeWhile_append_dropWhile

/-- The sign, if there is one, and what follows it are the text. -/
theorem takeSign_append (s : Text) : (takeSign s).1 ++ (takeSign s).2 = s := by
  fun_cases takeSign s <;> simp

/-- The fraction, if there is one, and what follows it are the text. -/
theorem takeFraction_append (s : Text) : (takeFraction s).1 ++ (takeFraction s).2 = s := by
  fun_cases takeFraction s <;> simp [takeDigits_append]

/-- The exponent, if there is one, and what follows it are the text. A mark without digits behind it
is left where it is, together with the sign that was looked past. -/
theorem takeExponent_append (s : Text) : (takeExponent s).1 ++ (takeExponent s).2 = s := by
  unfold takeExponent
  split
  · rfl
  · dsimp only
    split
    · simp [takeDigits_append, takeSign_append]
    · rfl

/-- A numeral and what follows it are the text, since that holds of each of its four parts. -/
theorem takeNumeral_append (s : Text) : (takeNumeral s).1 ++ (takeNumeral s).2 = s := by
  simp [takeNumeral, takeExponent_append, takeFraction_append, takeDigits_append, takeSign_append]

/-- A stretch up to a closing character, which it includes, and what follows it are the text. -/
theorem takeThrough_append {close : Char} {oneLine : Bool} {s b r : Text}
    (h : takeThrough close oneLine s = some (b, r)) : b ++ r = s := by
  fun_induction takeThrough close oneLine s generalizing b r with
  | case1 => simp at h
  | case2 =>
    cases h
    rfl
  | case3 => simp at h
  -- an escaped character is taken with its backslash
  | case4 d t hc ih =>
    obtain ⟨p, hp, he⟩ := Option.map_eq_some_iff.1 h
    cases he
    simp [ih hp]
  | case5 => simp at h
  | case6 c s hc hb hn ih =>
    obtain ⟨p, hp, he⟩ := Option.map_eq_some_iff.1 h
    cases he
    simp [ih hp]

/-- A comment up to its end mark, which it includes, and what follows it are the text. -/
theorem takeComment_append {s b r : Text} (h : takeComment s = some (b, r)) : b ++ r = s := by
  fun_induction takeComment s generalizing b r with
  | case1 => simp at h
  | case2 c s hc =>
    cases h
    -- the end mark is the last character taken and the first one of `s`
    cases s <;> simp_all
  | case3 c s hc ih =>
    obtain ⟨p, hp, he⟩ := Option.map_eq_some_iff.1 h
    cases he
    simp [ih hp]

/-! ### Something is taken -/

/-- Where a name starts, at least one character of it is taken. -/
theorem takeName_ne_nil {s : Text} (h : startsName s = true) : (takeName s).1 ≠ [] := by
  cases s with
  | nil => simp [startsName] at h
  | cons c s =>
    rw [takeName.eq_def]
    by_cases hc : isNameChar c = true
    · simp [hc]
    · cases s with
      | nil => simp_all [startsName, startsEscape]
      | cons d t => simp_all [startsName, startsEscape]

/-- Where a number starts, at least one character of it is taken. Each of the four parts of a
numeral may be empty, so the proof looks for the first one that is not. -/
theorem takeNumeral_ne_nil {s : Text} (h : startsNumber s = true) : (takeNumeral s).1 ≠ [] := by
  cases s with
  | nil => simp [startsNumber] at h
  | cons c s =>
    intro he
    simp only [takeNumeral, List.append_eq_nil_iff] at he
    obtain ⟨hsign, hwhole, hfraction, -⟩ := he
    -- without a sign and without digits a number starts with a fraction
    have hs : isSign c = false := by
      by_cases hs : isSign c = true
      · simp [takeSign, hs] at hsign
      · simpa using hs
    have hd : isDigit c = false := by
      by_cases hd : isDigit c = true
      · simp [takeSign, hs, takeDigits, hd] at hwhole
      · simpa using hd
    have hf : startsFraction (c :: s) = true := by simpa [startsNumber, hs, hd] using h
    simp [takeSign, hs, takeDigits, hd, takeFraction, hf] at hfraction

end CssHints.Token
