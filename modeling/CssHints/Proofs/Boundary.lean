import CssHints.Proofs.Reach
import CssHints.Token.Tokenize

/-!
# `CssHints.Proofs.Boundary`: where a source can be cut without a change in its pieces

The tokenizer takes the longest piece it can, so a text and the text behind it may run into each
other. A separator is a character that no piece before it takes in: a blank, a brace, a colon, a
semicolon, a comma, an exclamation mark and most other signs. There is one exception, a backslash
that stands alone at the end of the text before it, since it makes an escape of any character
behind it but a line feed. Such a text is `Dangling`.

* `next_append_separator`: a piece that is read from a text is read from the text with a separator
  and anything else behind it.
* `cut_append_separator`: the pieces of a text, a separator and a further text are the pieces of
  the first and the pieces from the separator on.
-/

set_option autoImplicit false

namespace CssHints.Token

open Text (isDigit startsDigit)

/-- A character that no piece before it takes in, unless a lone backslash stands before it. -/
def isSeparator (d : Char) : Bool :=
  !isNameChar d && !isSign d && d ≠ '\\' && d ≠ '(' && d ≠ '*' && d ≠ '.' && d ≠ '%'

section Separator

variable {d : Char}

/-- A separator is no part of a name. -/
theorem isNameChar_separator (hd : isSeparator d = true) : isNameChar d = false := by
  simp only [isSeparator, Bool.and_eq_true, Bool.not_eq_true'] at hd
  exact hd.1.1.1.1.1.1

/-- A separator is no sign. -/
theorem isSign_separator (hd : isSeparator d = true) : isSign d = false := by
  simp only [isSeparator, Bool.and_eq_true, Bool.not_eq_true'] at hd
  exact hd.1.1.1.1.1.2

/-- The single characters that are no separators. Each of them may belong to a piece that another
character starts: a backslash to an escape, a bracket to a `url(...)`, a star to a comment, a point
and a percent sign to a number. -/
theorem ne_of_separator (hd : isSeparator d = true) :
    d ≠ '\\' ∧ d ≠ '(' ∧ d ≠ '*' ∧ d ≠ '.' ∧ d ≠ '%' := by
  simp only [isSeparator, Bool.and_eq_true, decide_eq_true_eq] at hd
  exact ⟨hd.1.1.1.1.2, hd.1.1.1.2, hd.1.1.2, hd.1.2, hd.2⟩

/-- A separator starts no name. -/
theorem isNameStart_separator (hd : isSeparator d = true) : isNameStart d = false := by
  have h := isNameChar_separator hd
  simp only [isNameChar, Bool.or_eq_false_iff] at h
  exact h.1.1

/-- A separator is no digit. -/
theorem isDigit_separator (hd : isSeparator d = true) : isDigit d = false := by
  have h := isNameChar_separator hd
  simp only [isNameChar, Bool.or_eq_false_iff] at h
  exact h.1.2

/-- A separator is no hyphen. -/
theorem ne_hyphen_of_separator (hd : isSeparator d = true) : d ≠ '-' := by
  have h := isNameChar_separator hd
  simp only [isNameChar, Bool.or_eq_false_iff, decide_eq_false_iff_not] at h
  exact h.2

/-! ### What a text starts with does not depend on a separator behind it -/

/-- A separator is no backslash, so no escape starts with it. -/
theorem startsEscape_separator (hd : isSeparator d = true) (b : Text) :
    startsEscape (d :: b) = false := by
  cases b with
  | nil => rfl
  | cons e b => simp [startsEscape, (ne_of_separator hd).1]

/-- No identifier starts with a separator, whatever follows. -/
theorem startsIdent_separator (hd : isSeparator d = true) (b : Text) :
    startsIdent (d :: b) = false := by
  simp [startsIdent, isNameStart_separator hd, startsEscape_separator hd b,
    ne_hyphen_of_separator hd]

/-- Whether a text starts with a digit does not depend on a separator behind it. -/
theorem startsDigit_append_separator (hd : isSeparator d = true) (s b : Text) :
    startsDigit (s ++ d :: b) = startsDigit s := by
  cases s with
  | nil => simp [startsDigit, isDigit_separator hd]
  | cons c s => rfl

/-- Whether a text starts with a fraction does not depend on a separator behind it. If the text is
the point alone, the separator behind it is no digit. -/
theorem startsFraction_append_separator (hd : isSeparator d = true) (s b : Text) :
    startsFraction (s ++ d :: b) = startsFraction s := by
  cases s with
  | nil => simp [startsFraction, (ne_of_separator hd).2.2.2.1]
  | cons c s => simp [startsFraction, startsDigit_append_separator hd]

/-- Whether a text starts with a number does not depend on a separator behind it: a separator is no
digit, no sign and no point. -/
theorem startsNumber_append_separator (hd : isSeparator d = true) (s b : Text) :
    startsNumber (s ++ d :: b) = startsNumber s := by
  cases s with
  | nil =>
      simp [startsNumber, isDigit_separator hd, isSign_separator hd, startsFraction,
        (ne_of_separator hd).2.2.2.1]
  | cons c s =>
      have hf := startsFraction_append_separator hd (c :: s) b
      simp only [List.cons_append] at hf
      simp [startsNumber, hf, startsDigit_append_separator hd, startsFraction_append_separator hd]

/-- Whether a text starts with an escape does not depend on a separator behind it. Only a lone
backslash makes an escape of the separator. -/
theorem startsEscape_append_separator (hd : isSeparator d = true) {s : Text} (b : Text)
    (hs : s ≠ ['\\']) : startsEscape (s ++ d :: b) = startsEscape s := by
  match s, hs with
  | [], _ => exact startsEscape_separator hd b
  | [c], hs =>
      have hc : c ≠ '\\' := by simpa using hs
      simp [startsEscape, hc]
  | c :: e :: s, _ => rfl

/-- Whether a text starts with a part of a name does not depend on a separator behind it, unless it
is a lone backslash. -/
theorem startsName_append_separator (hd : isSeparator d = true) {s : Text} (b : Text)
    (hs : s ≠ ['\\']) : startsName (s ++ d :: b) = startsName s := by
  cases s with
  | nil => simp [startsName, isNameChar_separator hd, startsEscape_separator hd b]
  | cons c s =>
      have he := startsEscape_append_separator hd b hs
      simp only [List.cons_append] at he
      simp [startsName, he]

/-- Whether a text starts with an identifier does not depend on a separator behind it. A lone
backslash is an exception, also behind a hyphen, since the test looks past the hyphen. -/
theorem startsIdent_append_separator (hd : isSeparator d = true) {s : Text} (b : Text)
    (hs : s ≠ ['\\']) (hs' : s ≠ ['-', '\\']) : startsIdent (s ++ d :: b) = startsIdent s := by
  match s, hs, hs' with
  | [], _, _ => exact startsIdent_separator hd b
  | [c], hs, _ =>
      have he := startsEscape_append_separator hd b hs
      simp only [List.cons_append, List.nil_append] at he
      simp [startsIdent, he, isNameStart_separator hd, ne_hyphen_of_separator hd,
        startsEscape_separator hd b]
  -- with two characters in front, only an escape behind a hyphen looks as far as the separator
  | c :: e :: s, _, hs' =>
      have hfirst : startsEscape (c :: e :: (s ++ d :: b)) = startsEscape (c :: e :: s) := rfl
      by_cases hc : c = '-'
      · have he := startsEscape_append_separator hd b (s := e :: s) (by simpa [hc] using hs')
        simp only [List.cons_append] at he
        simp only [List.cons_append, startsIdent, hfirst, he]
      · simp [startsIdent, hfirst, hc]

/-- Taking a sign leaves a separator behind the text where it is. -/
theorem takeSign_append_separator (hd : isSeparator d = true) (s b : Text) :
    takeSign (s ++ d :: b) = ((takeSign s).1, (takeSign s).2 ++ d :: b) := by
  cases s with
  | nil => simp [takeSign, isSign_separator hd]
  | cons c s => by_cases hc : isSign c = true <;> simp [takeSign, hc]

/-- Whether a text starts with an exponent does not depend on a separator behind it. The test looks
past a sign, and the separator is no digit. -/
theorem startsExponent_append_separator (hd : isSeparator d = true) (s b : Text) :
    startsExponent (s ++ d :: b) = startsExponent s := by
  cases s with
  | nil =>
      have he : d ≠ 'e' ∧ d ≠ 'E' := by
        constructor <;> rintro rfl <;> exact absurd (isNameChar_separator hd) (by decide)
      simp [startsExponent, he]
  | cons c s =>
      simp only [List.cons_append, startsExponent, takeSign_append_separator hd,
        startsDigit_append_separator hd]

/-- The first character of a text with `d` behind it is `e`, another character, just if the text
itself starts with `e`. -/
theorem head?_append_ne {e : Char} (hde : d ≠ e) (s b : Text) :
    (s ++ d :: b).head? = some e ↔ s.head? = some e := by
  cases s with
  | nil => simp [hde]
  | cons c s => simp

end Separator

/-! ### Pieces and a separator behind them -/

/-- A separator and what stands behind it show a lexeme no more than the end of the text does. All
tests that a lexeme makes on the text behind it come out the same; the two exceptions, a backslash
and a hyphen with a backslash, are excluded both behind the lexeme and together with it. -/
theorem showsNoMore_append_separator {d : Char} (hd : isSeparator d = true) {v rest : Text}
    (b : Text) (h₁ : rest ≠ ['\\']) (h₂ : rest ≠ ['-', '\\']) (hv₁ : v ++ rest ≠ ['\\'])
    (hv₂ : v ++ rest ≠ ['-', '\\']) : ShowsNoMore v rest (rest ++ d :: b) where
  name := (startsName_append_separator hd b h₁).symm.trans
  ident := (startsIdent_append_separator hd b h₁ h₂).symm.trans
  digit := (startsDigit_append_separator hd rest b).symm.trans
  fraction := (startsFraction_append_separator hd rest b).symm.trans
  exponent u h := by
    rwa [← List.append_assoc, startsExponent_append_separator hd] at h
  percent := (head?_append_ne (ne_of_separator hd).2.2.2.2 rest b).1
  star := (head?_append_ne (ne_of_separator hd).2.2.1 rest b).1
  url := by
    rintro ⟨hlower, r, hr, hquoted⟩
    -- the bracket stands in the text, and so does a quote that keeps the word from being an url
    obtain ⟨r', rfl⟩ := List.head?_eq_some_iff.1
      ((head?_append_ne (ne_of_separator hd).2.1 rest b).1 (by rw [hr]; rfl))
    obtain rfl : r' ++ d :: b = r := (List.cons.inj hr).2
    refine ⟨hlower, r', rfl, Bool.eq_false_iff.2 fun hq => ?_⟩
    rw [startsQuoted_append_of hq] at hquoted
    cases hquoted
  wholeNumber h := by
    rwa [← List.append_assoc, startsNumber_append_separator hd] at h
  wholeIdent h := by
    rwa [← List.append_assoc, startsIdent_append_separator hd b hv₁ hv₂] at h

/-- A lexeme of a text is a lexeme of the text with a separator behind it. A lone backslash at the
end of the text is ruled out, since it would escape the separator, by itself or behind a hyphen. -/
theorem next_lexeme_append_separator {d c : Char} (hd : isSeparator d = true) {s v rest : Text}
    {k : Kind} (b : Text) (h : next c s = .ok (.lexeme k v, rest)) (hend : c :: s ≠ ['\\'])
    (h₁ : rest ≠ ['\\']) (h₂ : rest ≠ ['-', '\\']) :
    next c (s ++ d :: b) = .ok (.lexeme k v, rest ++ d :: b) := by
  -- a hyphen before a lone backslash would leave the backslash as the rest
  have hend' : c :: s ≠ ['-', '\\'] := by
    rintro he
    cases he
    cases h
    exact h₁ rfl
  obtain ⟨a, rfl, rfl⟩ := exists_cons_of_next h
  rw [List.append_assoc]
  exact next_of_showsNoMore h (showsNoMore_append_separator hd b h₁ h₂ hend hend')

/-- A run ends at the latest at a character that is not in it. -/
theorem takeWhile_append_of_stop {d : Char} {p : Char → Bool} (hp : p d = false) (s b : Text) :
    (s ++ d :: b).takeWhile p = s.takeWhile p := by
  induction s with
  | nil => simp [hp]
  | cons c s ih => by_cases hc : p c = true <;> simp [hc, ih]

/-- What is left behind a run that ends at such a character still has that character at its end. -/
theorem dropWhile_append_of_stop {d : Char} {p : Char → Bool} (hp : p d = false) (s b : Text) :
    (s ++ d :: b).dropWhile p = s.dropWhile p ++ d :: b := by
  induction s with
  | nil => simp [hp]
  | cons c s ih => by_cases hc : p c = true <;> simp [hc, ih]

/-- A run of blanks ends before the separator, or before something else. If the separator is itself
a blank, the run must have ended earlier. -/
theorem next_blanks_append_separator {d c : Char} {s rest w : Text} (b : Text)
    (h : next c s = .ok (.blanks w, rest)) (hblank : isBlank d = true → rest ≠ []) :
    next c (s ++ d :: b) = .ok (.blanks w, rest ++ d :: b) := by
  obtain ⟨hc, rfl, rfl⟩ := of_next_blanks h
  rw [next_of_isBlank hc]
  cases hdb : isBlank d with
  | false => rw [takeWhile_append_of_stop hdb, dropWhile_append_of_stop hdb]
  | true =>
      have hne : s.dropWhile isBlank ≠ [] := hblank hdb
      -- something is left behind the blanks, so they are not the whole text
      have htake : (s.takeWhile isBlank).length ≠ s.length := by
        intro he
        have hsum := congrArg List.length
          (List.takeWhile_append_dropWhile (p := isBlank) (l := s))
        rw [List.length_append] at hsum
        exact hne (List.length_eq_zero_iff.1 (by omega))
      rw [List.takeWhile_append, List.dropWhile_append]
      simp [htake, hne]

/-- A piece of a text is a piece of the text with a separator behind it. The text does not end in a
backslash that stands alone, and blanks at its end do not meet a blank. -/
theorem next_append_separator {d : Char} (hd : isSeparator d = true) {c : Char} {s rest : Text}
    {p : Piece} (b : Text) (h : next c s = .ok (p, rest)) (hend : c :: s ≠ ['\\'])
    (h₁ : rest ≠ ['\\']) (h₂ : rest ≠ ['-', '\\'])
    (hblank : isBlank d = true → rest = [] → ∀ w, p ≠ .blanks w) :
    next c (s ++ d :: b) = .ok (p, rest ++ d :: b) := by
  cases p with
  | blanks w =>
      exact next_blanks_append_separator b h fun hdb hrest => hblank hdb hrest w rfl
  | comment w =>
      obtain ⟨rfl, t, body, rfl, rfl, hbody⟩ := of_next_comment h
      exact next_of_takeComment (takeComment_append_right (d :: b) hbody)
  | lexeme k v => exact next_lexeme_append_separator hd b h hend h₁ h₂

/-! ### Whole texts and a separator behind them -/

/-- The empty text has no pieces. -/
theorem cut_nil : cut [] = ⟨[], none⟩ := by
  rw [cut]

/-- The pieces of a text that all have an end are the text. -/
theorem flatMap_text_cut {s : Text} (hstuck : (cut s).stuck = none) :
    (cut s).pieces.flatMap Piece.text = s := by
  have happ := cut_append s
  rw [hstuck] at happ
  simpa using happ

/-- The pieces of a text are its first piece and the pieces of what is left behind it. All later
proofs open `cut` through this equation. -/
theorem cut_cons_of_next {c : Char} {s rest : Text} {p : Piece} (h : next c s = .ok (p, rest)) :
    cut (c :: s) = ⟨p :: (cut rest).pieces, (cut rest).stuck⟩ := by
  rw [cut]
  split
  · rename_i f hf
    rw [h] at hf
    cases hf
  · rename_i p' rest' hp
    rw [h] at hp
    cases hp
    rfl

/-- The first piece of a text was read from its start, and the other pieces are those of what is
left behind it. This is `cut_cons_of_next` the other way round. -/
theorem exists_next_of_cut {s : Text} {p : Piece} {ps : List Piece} (h : (cut s).pieces = p :: ps) :
    ∃ c t rest, s = c :: t ∧ next c t = .ok (p, rest) ∧ cut rest = ⟨ps, (cut s).stuck⟩ := by
  cases s with
  | nil =>
      rw [cut_nil] at h
      cases h
  | cons c t =>
      cases hnext : next c t with
      | error f =>
          rw [cut, hnext] at h
          cases h
      | ok q =>
          have hcut := cut_cons_of_next hnext
          rw [hcut] at h
          obtain ⟨rfl, hps⟩ : q.1 = p ∧ (cut q.2).pieces = ps := by simpa using h
          refine ⟨c, t, q.2, rfl, hnext, ?_⟩
          rw [hcut, ← hps]

/-- A backslash stands alone at the end of the text. -/
def Dangling (s : Text) : Prop := (cut s).pieces.getLast? = some (.lexeme .delim ['\\'])

/-- A lone backslash is left alone. -/
theorem dangling_lone : Dangling ['\\'] := by
  rw [Dangling, cut_cons_of_next (show next '\\' [] = .ok (.lexeme .delim ['\\'], []) from rfl),
    cut_nil]
  rfl

/-- So is one behind a hyphen: the hyphen is a piece of its own, since the backslash in front of
nothing is no escape. -/
theorem dangling_hyphen : Dangling ['-', '\\'] := by
  have hhyphen : next '-' ['\\'] = .ok (.lexeme .delim ['-'], ['\\']) := rfl
  have hlone : next '\\' [] = .ok (.lexeme .delim ['\\'], []) := rfl
  rw [Dangling, cut_cons_of_next hhyphen, cut_cons_of_next hlone, cut_nil]
  rfl

/-- A text that is not empty has a piece. -/
theorem cut_pieces_ne_nil {s : Text} (hs : s ≠ []) (hstuck : (cut s).stuck = none) :
    (cut s).pieces ≠ [] := by
  intro he
  have happ := flatMap_text_cut hstuck
  rw [he] at happ
  exact hs happ.symm

/-- The last piece of a text is the last piece of the text behind any piece before it. -/
theorem getLast?_cut_cons {c : Char} {s rest : Text} {p : Piece} (h : next c s = .ok (p, rest))
    (hrest : rest ≠ []) (hstuck : (cut rest).stuck = none) :
    (cut (c :: s)).pieces.getLast? = (cut rest).pieces.getLast? := by
  obtain ⟨q, ps, hq⟩ := List.exists_cons_of_ne_nil (cut_pieces_ne_nil hrest hstuck)
  rw [cut_cons_of_next h, hq, List.getLast?_cons_cons]

/-- The pieces of a text with a separator behind it are the pieces of the text and those from the
separator on. The induction follows `cut` on the first text: each piece stays what it is by
`next_append_separator`, and behind the last one the separator is the start of the rest. -/
theorem cut_append_separator {d : Char} (hd : isSeparator d = true) {a : Text} (b : Text)
    (hstuck : (cut a).stuck = none) (hdangling : ¬Dangling a)
    (hblank : isBlank d = true → ∀ w, (cut a).pieces.getLast? ≠ some (.blanks w)) :
    cut (a ++ d :: b) = ⟨(cut a).pieces ++ (cut (d :: b)).pieces, (cut (d :: b)).stuck⟩ := by
  fun_induction cut a with
  | case1 => rfl
  | case2 c s f h => cases hstuck
  | case3 c s p rest h ih =>
      have hlast := getLast?_cut_cons h
      have hcons := cut_cons_of_next h
      -- whether or not the piece is the last one, no backslash stands alone behind it
      have hsafe : c :: s ≠ ['\\'] ∧ rest ≠ ['\\'] ∧ rest ≠ ['-', '\\'] := by
        refine ⟨?_, ?_, ?_⟩
        · rintro he
          exact hdangling (he ▸ dangling_lone)
        · rintro rfl
          exact hdangling ((hlast (by simp) hstuck).trans dangling_lone)
        · rintro rfl
          exact hdangling ((hlast (by simp) hstuck).trans dangling_hyphen)
      have hnext : next c (s ++ d :: b) = .ok (p, rest ++ d :: b) := by
        refine next_append_separator hd b h hsafe.1 hsafe.2.1 hsafe.2.2 ?_
        rintro hdb rfl w rfl
        exact hblank hdb w (by rw [cut_nil]; rfl)
      rw [List.cons_append, cut_cons_of_next hnext]
      -- behind the last piece the separator comes next
      by_cases hrest : rest = []
      · subst hrest
        rw [cut_nil]
        rfl
      · rw [ih hstuck (fun hr => hdangling ((hlast hrest hstuck).trans hr)) ?_]
        · rfl
        · intro hdb w hw
          refine hblank hdb w ?_
          rw [← hw, ← hlast hrest hstuck, hcons]

end CssHints.Token
