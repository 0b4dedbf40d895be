import CssHints.Token.Basic
import CssHints.Token.Scan

/-!
# `CssHints.Token.Piece`: a source cut into pieces

A source is a sequence of pieces: runs of blanks, comments, and lexemes. `next` reads the piece
that a text starts with, and `cut` reads pieces until the text ends or a piece has no end.

- `next_append`: a piece and the rest are the text, and a piece is never empty;
- `cut_append`: the pieces and what is left behind a fault are the text.
-/

set_option autoImplicit false

namespace CssHints.Token

/-- What keeps a piece from ending. -/
inductive Fault
  | unterminatedComment
  | unterminatedString
  | unterminatedUrl
  deriving DecidableEq, Repr

/-- A stretch of a source. -/
inductive Piece
  /-- A run of blanks. -/
  | blanks (text : Text)
  /-- A comment with its marks. -/
  | comment (text : Text)
  /-- The text of a token. -/
  | lexeme (kind : Kind) (text : Text)
  deriving DecidableEq, Repr

/-- The characters of a piece. -/
def Piece.text : Piece → Text
  | blanks s => s
  | comment s => s
  | lexeme _ s => s

/-- A number, with a percent sign or a unit if one follows directly. -/
def readNumber (s : Text) : Piece × Text :=
  let numeral := takeNumeral s
  match numeral.2 with
  | [] => (.lexeme .number numeral.1, [])
  | c :: r =>
    if c = '%' then (.lexeme .percentage (numeral.1 ++ [c]), r)
    else if startsIdent (c :: r) then
      let unit := takeName (c :: r)
      (.lexeme .dimension (numeral.1 ++ unit.1), unit.2)
    else (.lexeme .number numeral.1, c :: r)

/-- An identifier, or a whole `url(...)` whose argument has no quotes. -/
def readWord (s : Text) : Except Fault (Piece × Text) :=
  let name := takeName s
  match name.2 with
  | [] => .ok (.lexeme .ident name.1, [])
  | c :: r =>
    -- with a quote the argument is a string, and the bracket a token of its own
    if c = '(' ∧ Text.lower name.1 = "url".toList ∧ startsQuoted r = false then
      match takeThrough ')' false r with
      | some (body, rest) => .ok (.lexeme .url (name.1 ++ c :: body), rest)
      | none => .error .unterminatedUrl
    else .ok (.lexeme .ident name.1, c :: r)

/-- The piece that the text `c :: s` starts with, and the rest. -/
def next (c : Char) (s : Text) : Except Fault (Piece × Text) :=
  if isBlank c then .ok (.blanks (c :: s.takeWhile isBlank), s.dropWhile isBlank)
  else if c = '/' ∧ s.head? = some '*' then
    match takeComment s.tail with
    | some (body, rest) => .ok (.comment (c :: '*' :: body), rest)
    | none => .error .unterminatedComment
  else if isQuote c then
    match takeThrough c true s with
    | some (body, rest) => .ok (.lexeme .string (c :: body), rest)
    | none => .error .unterminatedString
  -- numbers before words: a digit beyond the first 128 characters passes both tests
  else if startsNumber (c :: s) then .ok (readNumber (c :: s))
  else if startsIdent (c :: s) then readWord (c :: s)
  else if c = '@' ∧ startsIdent s = true then
    .ok (.lexeme .atKeyword (c :: (takeName s).1), (takeName s).2)
  else if c = '#' ∧ startsName s = true then
    .ok (.lexeme .hash (c :: (takeName s).1), (takeName s).2)
  else .ok (.lexeme (.ofChar c) [c], s)

/-- A number and what follows it are the text, whichever of its three forms it has: with a percent
sign, with a unit, or with neither. -/
theorem readNumber_append (s : Text) : (readNumber s).1.text ++ (readNumber s).2 = s := by
  have h := takeNumeral_append s
  unfold readNumber
  dsimp only
  split
  · rename_i hr
    simpa [hr, Piece.text] using h
  · rename_i c r hr
    rw [hr] at h
    split
    · simpa [Piece.text] using h
    · split
      · simpa [Piece.text, takeName_append] using h
      · simpa [Piece.text] using h

/-- A number is not empty where one starts. It holds its numeral, and that is not empty. -/
theorem readNumber_text_ne_nil {s : Text} (hs : startsNumber s = true) :
    (readNumber s).1.text ≠ [] := by
  have h := takeNumeral_ne_nil hs
  unfold readNumber
  dsimp only
  split
  · simpa [Piece.text] using h
  · split
    · simp [Piece.text]
    · split
      · simp [Piece.text, h]
      · simpa [Piece.text] using h

/-- A word and what follows it are the text. For a `url(...)` this joins three stretches: the name,
the bracket, and the argument with the closing bracket. -/
theorem readWord_append {s rest : Text} {p : Piece} (h : readWord s = .ok (p, rest)) :
    p.text ++ rest = s := by
  have hn := takeName_append s
  unfold readWord at h
  dsimp only at h
  split at h
  · rename_i hr
    cases h
    simpa [hr, Piece.text] using hn
  · -- a bracket behind the word `url` goes with what it holds; any other character is left
    rename_i c r hr
    rw [hr] at hn
    split at h
    · split at h
      · rename_i body rest' hb
        cases h
        simpa [Piece.text, takeThrough_append hb] using hn
      · cases h
    · cases h
      simpa [Piece.text] using hn

/-- A word is not empty where an identifier starts. It holds its name, and that is not empty. -/
theorem readWord_text_ne_nil {s rest : Text} {p : Piece} (hs : startsIdent s = true)
    (h : readWord s = .ok (p, rest)) : p.text ≠ [] := by
  have hn := takeName_ne_nil (startsName_of_startsIdent hs)
  unfold readWord at h
  dsimp only at h
  split at h
  · cases h
    simpa [Piece.text] using hn
  · split at h
    · split at h
      · cases h
        simp [Piece.text]
      · cases h
    · cases h
      simpa [Piece.text] using hn

/-- A piece and the rest are the text that was read. So the pieces of a source, put in a row, are
the source, and the place of a piece can be counted from the pieces in front of it. -/
theorem next_append {c : Char} {s rest : Text} {p : Piece} (h : next c s = .ok (p, rest)) :
    p.text ++ rest = c :: s := by
  unfold next at h
  -- the branches in their order: blanks, a comment, a string, a number, a word, a keyword, a hash,
  -- and a character that stands for itself
  split at h
  · cases h
    simp [Piece.text]
  split at h
  · rename_i hc
    split at h
    · rename_i body rest' hb
      cases h
      have := takeComment_append hb
      cases s <;> simp_all [Piece.text]
    · cases h
  split at h
  · split at h
    · rename_i body rest' hb
      cases h
      simp [Piece.text, takeThrough_append hb]
    · cases h
  split at h
  · have := readNumber_append (c :: s)
    simp only [Except.ok.injEq] at h
    simpa [h] using this
  split at h
  · exact readWord_append h
  split at h
  · cases h
    simp [Piece.text, takeName_append]
  split at h
  · cases h
    simp [Piece.text, takeName_append]
  · cases h
    simp [Piece.text]

/-- A piece holds at least one character. A single sign is the least that is read, so every step of
the tokenizer makes progress. -/
theorem next_text_ne_nil {c : Char} {s rest : Text} {p : Piece} (h : next c s = .ok (p, rest)) :
    p.text ≠ [] := by
  unfold next at h
  split at h
  · cases h
    simp [Piece.text]
  split at h
  · split at h
    · cases h
      simp [Piece.text]
    · cases h
  split at h
  · split at h
    · cases h
      simp [Piece.text]
    · cases h
  split at h
  · rename_i hn
    simp only [Except.ok.injEq] at h
    simpa [h] using readNumber_text_ne_nil hn
  split at h
  · rename_i hi
    exact readWord_text_ne_nil hi h
  split at h
  · cases h
    simp [Piece.text]
  split at h
  · cases h
    simp [Piece.text]
  · cases h
    simp [Piece.text]

/-- The rest behind a piece is shorter than the text. This is why `cut` ends. -/
theorem length_next {c : Char} {s rest : Text} {p : Piece} (h : next c s = .ok (p, rest)) :
    rest.length < (c :: s).length := by
  have happ := congrArg List.length (next_append h)
  have hpos := List.length_pos_iff.2 (next_text_ne_nil h)
  simp only [List.length_append] at happ
  omega

/-- A source cut into pieces. -/
structure Cut where
  /-- The pieces, in order. -/
  pieces : List Piece
  /-- Why the piece behind them has no end, and the text from its start on. -/
  stuck : Option (Fault × Text)
  deriving DecidableEq, Repr

/-- The pieces of a text, as far as they can be read. -/
def cut : Text → Cut
  | [] => ⟨[], none⟩
  | c :: s =>
    match _h : next c s with
    | .error f => ⟨[], some (f, c :: s)⟩
    | .ok (p, rest) => ⟨p :: (cut rest).pieces, (cut rest).stuck⟩
termination_by s => s.length
decreasing_by all_goals exact length_next _h

/-- The pieces, and the text that is left where one has no end, are the whole text. The induction is
on the steps of `cut`; each step is an instance of `next_append`. -/
theorem cut_append (s : Text) :
    (cut s).pieces.flatMap Piece.text ++ ((cut s).stuck.map Prod.snd).getD [] = s := by
  fun_induction cut s with
  | case1 => rfl
  | case2 c s f h => simp
  | case3 c s p rest h ih =>
    simp only [List.flatMap_cons, List.append_assoc, ih]
    exact next_append h

end CssHints.Token
