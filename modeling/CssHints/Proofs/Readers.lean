import CssHints.Token.Piece

/-!
# `CssHints.Proofs.Readers`: which reader takes a piece

`next` asks one reader after another: blanks, a comment, a string, a number, a word, and last a
sign, which starts a keyword or a hash or stands for itself. This module says what each of them
makes of a text, in both directions.

* What a reader gives where it is reached: `next_of_isBlank`, `next_of_takeComment`,
  `next_of_takeThrough`, `next_of_startsNumber`, `next_of_startsIdent`, `next_of_startsSign`.
* What is known of a text from its first piece (`next_ok_cases`, and for each kind of piece
  `of_next_blanks`, `of_next_comment`, `next_lexeme_cases`) or from the lack of one
  (`next_error_cases`).
* What numbers, words and signs are made of: `readNumber_cases`, `readWord_cases`,
  `readSign_cases`, each with a lemma for every case that leads back.

The order in which the readers are asked matters here and nowhere else. A reader that comes later
is reached because the characters that it starts with start nothing before it.
-/

set_option autoImplicit false

namespace CssHints.Token

open Text (isDigit startsDigit)

/-! ### What starts a piece does so whatever follows -/

section Starts

variable {s : Text}

/-- A digit in front stays in front. -/
theorem startsDigit_append (h : startsDigit s = true) (x : Text) :
    startsDigit (s ++ x) = true := by
  cases s with
  | nil => cases h
  | cons c s => exact h

/-- A point and a digit in front stay there, whatever is put behind. -/
theorem startsFraction_append (h : startsFraction s = true) (x : Text) :
    startsFraction (s ++ x) = true := by
  cases s with
  | nil => cases h
  | cons c s =>
      simp only [startsFraction, Bool.and_eq_true] at h
      simp only [List.cons_append, startsFraction, Bool.and_eq_true]
      exact ⟨h.1, startsDigit_append h.2 x⟩

/-- A text that starts with a number still does so with more text behind it. The tests look at three
characters at most, and they are all there. -/
theorem startsNumber_append (h : startsNumber s = true) (x : Text) :
    startsNumber (s ++ x) = true := by
  cases s with
  | nil => cases h
  | cons c s =>
      simp only [startsNumber, Bool.or_eq_true, Bool.and_eq_true] at h
      simp only [List.cons_append, startsNumber, Bool.or_eq_true, Bool.and_eq_true]
      rcases h with (hdigit | hfraction) | ⟨hsign, hdigit | hfraction⟩
      · exact .inl (.inl hdigit)
      · exact .inl (.inr (startsFraction_append hfraction x))
      · exact .inr ⟨hsign, .inl (startsDigit_append hdigit x)⟩
      · exact .inr ⟨hsign, .inr (startsFraction_append hfraction x)⟩

/-- An escape in front stays one: both of its characters are there. -/
theorem startsEscape_append (h : startsEscape s = true) (x : Text) :
    startsEscape (s ++ x) = true := by
  match s, h with
  | c :: d :: t, h => exact h

/-- A text that starts with a part of a name still does so with more text behind it. -/
theorem startsName_append (h : startsName s = true) (x : Text) : startsName (s ++ x) = true := by
  cases s with
  | nil => cases h
  | cons c s =>
      simp only [startsName, Bool.or_eq_true] at h
      simp only [List.cons_append, startsName, Bool.or_eq_true]
      exact h.imp_right fun hescape => startsEscape_append hescape x

/-- A text that starts with an identifier still does so with more text behind it. All characters
that the test looks at are already there. -/
theorem startsIdent_append (h : startsIdent s = true) (x : Text) :
    startsIdent (s ++ x) = true := by
  cases s with
  | nil => cases h
  | cons c s =>
      simp only [startsIdent, Bool.or_eq_true, Bool.and_eq_true] at h
      simp only [List.cons_append, startsIdent, Bool.or_eq_true, Bool.and_eq_true]
      rcases h with (hstart | hescape) | ⟨hhyphen, hsecond⟩
      · exact .inl (.inl hstart)
      · exact .inl (.inr (startsEscape_append hescape x))
      · -- behind a hyphen a second character is looked at, so there is one
        refine .inr ⟨hhyphen, ?_⟩
        cases s with
        | nil => cases hsecond
        | cons d s =>
            simp only [List.cons_append, Bool.or_eq_true] at hsecond ⊢
            exact hsecond.imp_right fun hescape => startsEscape_append hescape x

end Starts

/-! ### Characters that start one piece and no other -/

/-- There are two signs. -/
theorem eq_of_isSign {c : Char} (hc : isSign c = true) : c = '+' ∨ c = '-' := by
  simpa [isSign] using hc

/-- What starts a name may also stand inside one. -/
theorem isNameChar_of_isNameStart {c : Char} (h : isNameStart c = true) : isNameChar c = true := by
  simp [isNameChar, h]

/-- A digit may stand inside a name. No identifier starts with one, but the name behind a `#`
may. -/
theorem isNameChar_of_isDigit {c : Char} (hc : isDigit c = true) : isNameChar c = true := by
  simp [isNameChar, hc]

/-- A quote starts a string and nothing else. In particular it is not part of a name, so a name ends
in front of it. -/
theorem plain_of_isQuote {c : Char} (hc : isQuote c = true) :
    isBlank c = false ∧ c ≠ '/' ∧ c ≠ '\\' ∧ isNameChar c = false := by
  simp only [isQuote, Bool.or_eq_true, decide_eq_true_eq] at hc
  rcases hc with rfl | rfl <;> decide

/-- A character of a name starts no blanks, no comment and no string. So the readers of numbers and
words are reached from it. -/
theorem plain_of_isNameChar {c : Char} (hc : isNameChar c = true) :
    isBlank c = false ∧ c ≠ '/' ∧ isQuote c = false := by
  refine ⟨Bool.eq_false_iff.2 fun hblank => ?_, ?_, Bool.eq_false_iff.2 fun hquote => ?_⟩
  · simp only [isBlank, Bool.or_eq_true, decide_eq_true_eq] at hblank
    -- each of the five blanks is checked by itself
    rcases hblank with (((rfl | rfl) | rfl) | rfl) | rfl <;> exact absurd hc (by decide)
  · rintro rfl
    exact absurd hc (by decide)
  · rw [(plain_of_isQuote hquote).2.2.2] at hc
    cases hc

/-- The classes of the lexemes that have more than one character, or may have. -/
def longKinds : List Kind :=
  [.string, .number, .percentage, .dimension, .ident, .url, .atKeyword, .hash]

/-- A sign that stands for itself has a class of its own, which no longer lexeme has. So the class
of a token tells whether it is a single sign. -/
theorem ofChar_notMem_longKinds (c : Char) : Kind.ofChar c ∉ longKinds := by
  unfold Kind.ofChar
  split <;> decide

/-! ### Names -/

section Names

variable {s n rest : Text}

/-- A name and what follows it are the text, with the two parts named. -/
theorem append_of_takeName (h : takeName s = (n, rest)) : n ++ rest = s := by
  have happ := takeName_append s
  rwa [h] at happ

/-- A character of a name is taken, and the name goes on behind it. -/
theorem takeName_cons {c : Char} (hc : isNameChar c = true) (s : Text) :
    takeName (c :: s) = (c :: (takeName s).1, (takeName s).2) := by
  rw [takeName.eq_def]
  simp [hc]

/-- An escape is taken with both of its characters, and the name goes on behind it. -/
theorem takeName_escape {d : Char} (hline : d ≠ '\n') (s : Text) :
    takeName ('\\' :: d :: s) = ('\\' :: d :: (takeName s).1, (takeName s).2) := by
  rw [takeName.eq_def]
  dsimp only
  rw [if_neg (by decide), if_pos ⟨rfl, hline⟩]

/-- Nothing is taken of a text that starts with no part of a name. -/
theorem takeName_eq_nil (h : startsName s = false) : takeName s = ([], s) := by
  fun_cases takeName s with
  | case1 => rfl
  | case2 c s hc => simp [startsName, hc] at h
  | case3 => rfl
  | case4 c hc d t hescape => simp [startsName, startsEscape, hescape] at h
  | case5 => rfl

/-- A name ends where nothing goes on with it: the reader is greedy. The induction follows the
reader; the cases that take nothing are those where the test fails. -/
theorem startsName_of_takeName (h : takeName s = (n, rest)) : startsName rest = false := by
  fun_induction takeName s generalizing n rest with
  | case1 =>
      cases h
      rfl
  | case2 c s hc ih =>
      cases h
      exact ih rfl
  | case3 c hc =>
      cases h
      simp [startsName, startsEscape, hc]
  | case4 c hc d t hescape ih =>
      cases h
      exact ih rfl
  -- the reader stopped at a backslash in front of a line feed, or at no backslash
  | case5 c hc d t hescape =>
      cases h
      simpa [startsName, startsEscape, hc] using hescape

/-- A name is taken whole, and no more, in front of a text that does not go on with it. What the
name was cut from does not matter, only what follows now. -/
theorem takeName_of_stop (h : takeName s = (n, rest)) {y : Text} (hy : startsName y = false) :
    takeName (n ++ y) = (n, y) := by
  fun_induction takeName s generalizing n rest with
  -- nothing was taken, so the name is empty
  | case1 | case3 | case5 =>
      cases h
      exact takeName_eq_nil hy
  | case2 c s hc ih =>
      cases h
      rw [List.cons_append, takeName_cons hc, ih rfl]
  | case4 c hc d t hescape ih =>
      cases h
      obtain ⟨rfl, hline⟩ := hescape
      rw [List.cons_append, List.cons_append, takeName_escape hline, ih rfl]

/-- What starts a name starts it within the name. If it did not, the name by itself would be read as
nothing, although it is not empty. -/
theorem startsName_takeName (h : startsName s = true) (hname : takeName s = (n, rest)) :
    startsName n = true := by
  refine Bool.of_not_eq_false fun hnone => ?_
  have hself := takeName_of_stop hname (y := []) rfl
  rw [List.append_nil, takeName_eq_nil hnone] at hself
  have hne := takeName_ne_nil h
  rw [hname] at hne
  exact hne (congrArg Prod.fst hself).symm

/-- The two characters of an escape. -/
theorem exists_of_startsEscape (h : startsEscape s = true) :
    ∃ d t, s = '\\' :: d :: t ∧ d ≠ '\n' := by
  match s, h with
  | c :: d :: t, h =>
      simp only [startsEscape, Bool.and_eq_true, decide_eq_true_eq] at h
      exact ⟨d, t, by rw [h.1], h.2⟩

/-- An identifier starts within its own name. The test looks at two characters, or at three if the
first one is a hyphen, and the name holds them all. -/
theorem startsIdent_takeName (h : startsIdent s = true) (hname : takeName s = (n, rest)) :
    startsIdent n = true := by
  obtain rfl : (takeName s).1 = n := congrArg Prod.fst hname
  cases s with
  | nil => cases h
  | cons c s =>
      simp only [startsIdent, Bool.or_eq_true, Bool.and_eq_true, decide_eq_true_eq] at h
      rcases h with (hstart | hescape) | ⟨rfl, hsecond⟩
      · rw [takeName_cons (isNameChar_of_isNameStart hstart)]
        simp [startsIdent, hstart]
      · obtain ⟨d, t, hs, hline⟩ := exists_of_startsEscape hescape
        rw [hs, takeName_escape hline]
        simp [startsIdent, startsEscape, hline]
      · rw [takeName_cons (by decide)]
        -- the character behind the hyphen goes on with the name
        cases s with
        | nil => cases hsecond
        | cons d t =>
            simp only [Bool.or_eq_true, decide_eq_true_eq] at hsecond
            rcases hsecond with (hstart | rfl) | hescape
            · rw [takeName_cons (isNameChar_of_isNameStart hstart)]
              simp [startsIdent, hstart]
            · rw [takeName_cons (by decide)]
              simp [startsIdent]
            · obtain ⟨e, u, hs, hline⟩ := exists_of_startsEscape hescape
              rw [hs, takeName_escape hline]
              simp [startsIdent, startsEscape, hline]

end Names

/-! ### Stretches up to a closing mark -/

/-- A stretch up to its closing character is taken in front of any text: the closing character ends
it, and nothing behind is looked at. The induction follows the reader on the text that the stretch
was first taken from. -/
theorem takeThrough_closed {close : Char} {oneLine : Bool} {s body rest : Text}
    (h : takeThrough close oneLine s = some (body, rest)) (y : Text) :
    takeThrough close oneLine (body ++ y) = some (body, y) := by
  fun_induction takeThrough close oneLine s generalizing body rest with
  | case1 => cases h
  | case2 =>
      cases h
      rw [List.singleton_append, takeThrough.eq_def]
      simp
  | case3 => cases h
  -- a backslash takes the next character with it, also a closing one
  | case4 d t hc ih =>
      obtain ⟨q, hq, he⟩ := Option.map_eq_some_iff.1 h
      cases he
      simp [takeThrough, hc, ih hq]
  | case5 => cases h
  | case6 c s hc hb hn ih =>
      obtain ⟨q, hq, he⟩ := Option.map_eq_some_iff.1 h
      cases he
      rw [List.cons_append, takeThrough.eq_def]
      simp [hc, hb, hn, ih hq]

/-- A comment holds at least its end mark. -/
theorem takeComment_ne_nil {s body rest : Text} (h : takeComment s = some (body, rest)) :
    body ≠ [] := by
  rintro rfl
  cases s with
  | nil => cases h
  | cons c s =>
      rw [takeComment] at h
      split at h
      · cases h
      · obtain ⟨q, -, he⟩ := Option.map_eq_some_iff.1 h
        cases he

/-- A comment is taken in front of any text. Unlike a stretch with one closing character, the end
mark has two, so the step looks one character ahead. -/
theorem takeComment_closed {s body rest : Text} (h : takeComment s = some (body, rest)) (y : Text) :
    takeComment (body ++ y) = some (body, y) := by
  fun_induction takeComment s generalizing body rest with
  | case1 => cases h
  | case2 c s hc =>
      cases h
      simp [takeComment, hc.1]
  | case3 c s hc ih =>
      obtain ⟨q, hq, he⟩ := Option.map_eq_some_iff.1 h
      cases he
      -- the text that was taken goes on, so the next character is the one that it was
      have hhead : (q.1 ++ y).head? = s.head? := by
        obtain ⟨d, b, hbody⟩ := List.exists_cons_of_ne_nil (takeComment_ne_nil hq)
        rw [← takeComment_append hq, hbody]
        rfl
      rw [List.cons_append, takeComment.eq_def]
      dsimp only
      rw [hhead, if_neg hc, ih hq]
      rfl

/-- A comment that ends within a text is the same one with more text behind. -/
theorem takeComment_append_right {s body rest : Text} (b : Text)
    (h : takeComment s = some (body, rest)) :
    takeComment (s ++ b) = some (body, rest ++ b) := by
  rw [← takeComment_append h, List.append_assoc]
  exact takeComment_closed h (rest ++ b)

/-- A comment that ends within the first of two texts is the same one in the first text alone. -/
theorem takeComment_of_append {s x body rest : Text}
    (h : takeComment (s ++ x) = some (body, rest ++ x)) : takeComment s = some (body, rest) := by
  have happ := takeComment_append h
  rw [← List.append_assoc] at happ
  obtain rfl : body ++ rest = s := List.append_cancel_right happ
  exact takeComment_closed h rest

/-- Whether a quote stands behind blanks does not depend on what follows, if anything but blanks is
there. If the whole text is blank, the quote may still come with what follows. -/
theorem startsQuoted_append {r : Text} (b : Text) (hr : r.dropWhile isBlank ≠ []) :
    startsQuoted (r ++ b) = startsQuoted r := by
  have hdrop : (r ++ b).dropWhile isBlank = r.dropWhile isBlank ++ b := by
    rw [List.dropWhile_append]
    simp [hr]
  obtain ⟨c, r', hc⟩ := List.exists_cons_of_ne_nil hr
  rw [startsQuoted, startsQuoted, hdrop, hc]
  rfl

/-- A quote that is in sight stays in sight. -/
theorem startsQuoted_append_of {r : Text} (h : startsQuoted r = true) (b : Text) :
    startsQuoted (r ++ b) = true := by
  rw [startsQuoted_append b, h]
  intro hnil
  simp [startsQuoted, hnil] at h

/-- A text that has a closing mark is not all blank, since the mark is no blank. The induction walks
over the blanks in front. -/
theorem dropWhile_ne_nil_of_takeThrough {close : Char} {oneLine : Bool} {r body rest : Text}
    (hclose : isBlank close = false) (h : takeThrough close oneLine r = some (body, rest)) :
    r.dropWhile isBlank ≠ [] := by
  induction r generalizing body rest with
  | nil => cases h
  | cons c r ih =>
      by_cases hc : isBlank c = true
      · -- a blank is neither the closing mark nor a backslash, so the reader goes on behind it
        have hne : c ≠ close := by
          rintro rfl
          simp [hc] at hclose
        have hbs : c ≠ '\\' := by
          rintro rfl
          exact absurd hc (by decide)
        rw [List.dropWhile_cons_of_pos hc]
        rw [takeThrough.eq_def] at h
        simp only [hne, hbs, if_false] at h
        split at h
        · cases h
        · obtain ⟨q, hq, -⟩ := Option.map_eq_some_iff.1 h
          exact ih hq
      · simp [hc]

/-! ### Numbers -/

section Numbers

variable {s n z u v rest : Text} {k : Kind}

/-- A numeral and what follows it are the text, with the two parts named. -/
theorem append_of_takeNumeral (h : takeNumeral s = (n, z)) : n ++ z = s := by
  have happ := takeNumeral_append s
  rwa [h] at happ

/-- A numeral in front of a percent sign is a percentage. -/
theorem readNumber_percentage (h : takeNumeral s = (n, '%' :: rest)) :
    readNumber s = (.lexeme .percentage (n ++ ['%']), rest) := by
  simp [readNumber, h]

/-- A numeral in front of an identifier is a dimension, and the whole name is its unit. The percent
sign is asked for first, but it starts no identifier. -/
theorem readNumber_dimension (h : takeNumeral s = (n, z)) (hpercent : z.head? ≠ some '%')
    (hident : startsIdent z = true) (hunit : takeName z = (u, rest)) :
    readNumber s = (.lexeme .dimension (n ++ u), rest) := by
  cases z with
  | nil => cases hident
  | cons c r => simp [readNumber, h, show c ≠ '%' by simpa using hpercent, hident, hunit]

/-- A numeral in front of anything else is a number by itself. -/
theorem readNumber_number (h : takeNumeral s = (n, rest)) (hpercent : rest.head? ≠ some '%')
    (hident : startsIdent rest = false) : readNumber s = (.lexeme .number n, rest) := by
  cases rest with
  | nil => simp [readNumber, h]
  | cons c r => simp [readNumber, h, show c ≠ '%' by simpa using hpercent, hident]

/-- A number is its numeral, with a percent sign or a unit if one follows. The three cases exclude
each other, and each of them determines what was read. -/
theorem readNumber_cases (h : readNumber s = (.lexeme k v, rest)) :
    ∃ n z, takeNumeral s = (n, z) ∧
      (k = .percentage ∧ v = n ++ ['%'] ∧ z = '%' :: rest ∨
        k = .dimension ∧ z.head? ≠ some '%' ∧ startsIdent z = true ∧
          (∃ u, v = n ++ u ∧ takeName z = (u, rest)) ∨
        k = .number ∧ v = n ∧ z = rest ∧ z.head? ≠ some '%' ∧ startsIdent z = false) := by
  obtain ⟨n, z, hnz⟩ : ∃ n z, takeNumeral s = (n, z) := ⟨_, _, rfl⟩
  refine ⟨n, z, hnz, ?_⟩
  -- in the order of the reader: the percent sign first, then a unit
  by_cases hpercent : z.head? = some '%'
  · obtain ⟨r, rfl⟩ := List.head?_eq_some_iff.1 hpercent
    cases (readNumber_percentage hnz).symm.trans h
    exact .inl ⟨rfl, rfl, rfl⟩
  cases hident : startsIdent z with
  | true =>
      cases (readNumber_dimension hnz hpercent hident rfl).symm.trans h
      exact .inr (.inl ⟨rfl, hpercent, rfl, _, rfl, rfl⟩)
  | false =>
      cases (readNumber_number hnz hpercent hident).symm.trans h
      exact .inr (.inr ⟨rfl, rfl, rfl, hpercent, rfl⟩)

/-- Reading a number always gives a lexeme. -/
theorem exists_readNumber (s : Text) : ∃ k v rest, readNumber s = (.lexeme k v, rest) := by
  unfold readNumber
  dsimp only
  split
  · exact ⟨_, _, _, rfl⟩
  · split
    · exact ⟨_, _, _, rfl⟩
    · split <;> exact ⟨_, _, _, rfl⟩

end Numbers

/-! ### Words -/

/-- The name opens a `url(...)` in front of `y`. -/
def OpensUrl (v y : Text) : Prop :=
  Text.lower v = "url".toList ∧ ∃ r, y = '(' :: r ∧ startsQuoted r = false

/-- The name and an argument with its bracket are a `url(...)`, whatever follows. -/
structure IsUrl (n body : Text) : Prop where
  name : Text.lower n = "url".toList
  plain : startsQuoted body = false
  closed : takeThrough ')' false body = some (body, [])

section Words

variable {s n body v rest : Text} {k : Kind}

/-- Whether an argument that has its bracket starts with a quote does not depend on what follows.
The bracket is no blank, so a quote would stand in front of it. -/
theorem startsQuoted_closed (hbody : takeThrough ')' false body = some (body, [])) (x : Text) :
    startsQuoted (body ++ x) = startsQuoted body :=
  startsQuoted_append x (dropWhile_ne_nil_of_takeThrough (by decide) hbody)

/-- A name that opens no `url(...)` is an identifier. -/
theorem readWord_ident (h : takeName s = (v, rest)) (hurl : ¬OpensUrl v rest) :
    readWord s = .ok (.lexeme .ident v, rest) := by
  rw [readWord, h]
  cases rest with
  | nil => rfl
  | cons c r =>
      dsimp only
      rw [if_neg]
      rintro ⟨rfl, hlower, hquoted⟩
      exact hurl ⟨hlower, r, rfl, hquoted⟩

/-- A name `url` in front of a bracket, an argument without a quote and its bracket is read as one
lexeme. -/
theorem readWord_url (h : takeName s = (n, '(' :: (body ++ rest))) (hurl : IsUrl n body) :
    readWord s = .ok (.lexeme .url (n ++ '(' :: body), rest) := by
  have hplain := startsQuoted_closed hurl.closed rest
  rw [readWord, h]
  dsimp only
  rw [if_pos ⟨rfl, hurl.name, hplain.trans hurl.plain⟩, takeThrough_closed hurl.closed rest]

/-- A name that opens a `url(...)` whose bracket is missing cannot be read. -/
theorem readWord_endless (h : takeName s = (n, '(' :: rest)) (hurl : OpensUrl n ('(' :: rest))
    (hnone : takeThrough ')' false rest = none) : readWord s = .error .unterminatedUrl := by
  obtain ⟨hlower, r, hr, hquoted⟩ := hurl
  cases hr
  rw [readWord, h]
  dsimp only
  rw [if_pos ⟨rfl, hlower, hquoted⟩, hnone]

/-- A word is a name, or a name that opens a `url(...)` with its argument, which may lack an end.
This says all that the reader can do; the lemmas below take it apart. -/
theorem readWord_spec (s : Text) :
    (∃ v rest, takeName s = (v, rest) ∧ ¬OpensUrl v rest ∧
      readWord s = .ok (.lexeme .ident v, rest)) ∨
    (∃ n body rest, takeName s = (n, '(' :: (body ++ rest)) ∧ IsUrl n body ∧
      readWord s = .ok (.lexeme .url (n ++ '(' :: body), rest)) ∨
    (∃ n r, takeName s = (n, '(' :: r) ∧ OpensUrl n ('(' :: r) ∧
      takeThrough ')' false r = none ∧ readWord s = .error .unterminatedUrl) := by
  obtain ⟨n, z, hnz⟩ : ∃ n z, takeName s = (n, z) := ⟨_, _, rfl⟩
  by_cases hurl : OpensUrl n z
  · obtain ⟨hlower, r, rfl, hquoted⟩ := hurl
    cases hbody : takeThrough ')' false r with
    | none =>
        have hopens : OpensUrl n ('(' :: r) := ⟨hlower, r, rfl, hquoted⟩
        exact .inr (.inr ⟨n, r, hnz, hopens, hbody, readWord_endless hnz hopens hbody⟩)
    | some p =>
        obtain ⟨body, rest⟩ := p
        -- the argument has its bracket by itself, so what stands behind it plays no part
        obtain rfl := takeThrough_append hbody
        have hclosed : takeThrough ')' false body = some (body, []) := by
          simpa using takeThrough_closed hbody []
        have hparts : IsUrl n body :=
          ⟨hlower, (startsQuoted_closed hclosed rest).symm.trans hquoted, hclosed⟩
        exact .inr (.inl ⟨n, body, rest, hnz, hparts, readWord_url hnz hparts⟩)
  · exact .inl ⟨n, z, hnz, hurl, readWord_ident hnz hurl⟩

/-- The parts of a word that was read: it is an identifier that opens no `url(...)`, or such a
`url(...)` with its bracket. -/
theorem readWord_cases (h : readWord s = .ok (.lexeme k v, rest)) :
    k = .ident ∧ takeName s = (v, rest) ∧ ¬OpensUrl v rest ∨
      k = .url ∧ ∃ n body, v = n ++ '(' :: body ∧ takeName s = (n, '(' :: (body ++ rest)) ∧
        IsUrl n body := by
  rcases readWord_spec s with ⟨v', rest', hname, hurl, hread⟩ |
    ⟨n, body, rest', hname, hurl, hread⟩ | ⟨n, r, -, -, -, hread⟩
  · cases hread.symm.trans h
    exact .inl ⟨rfl, hname, hurl⟩
  · cases hread.symm.trans h
    exact .inr ⟨rfl, n, body, rfl, hname, hurl⟩
  · cases hread.symm.trans h

/-- A word takes its whole name: what is left behind the word is left behind the name. -/
theorem exists_takeName_of_readWord (h : readWord s = .ok (.lexeme k v, rest)) :
    ∃ n x, takeName s = (n, x ++ rest) := by
  rcases readWord_cases h with ⟨-, hname, -⟩ | ⟨-, n, body, -, hname, -⟩
  · exact ⟨v, [], hname⟩
  · exact ⟨n, '(' :: body, hname⟩

/-- The only word without an end is a `url(...)` without its bracket. -/
theorem readWord_error_cases {f : Fault} (h : readWord s = .error f) :
    f = .unterminatedUrl ∧ ∃ n r, takeName s = (n, '(' :: r) ∧ OpensUrl n ('(' :: r) ∧
      takeThrough ')' false r = none := by
  rcases readWord_spec s with ⟨v, rest, -, -, hread⟩ | ⟨n, body, rest, -, -, hread⟩ |
    ⟨n, r, hname, hurl, hnone, hread⟩
  · cases hread.symm.trans h
  · cases hread.symm.trans h
  · cases hread.symm.trans h
    exact ⟨rfl, n, r, hname, hurl, hnone⟩

/-- A word that is read is a lexeme. -/
theorem exists_lexeme_of_readWord {p : Piece} (h : readWord s = .ok (p, rest)) :
    ∃ k v, p = .lexeme k v := by
  rcases readWord_spec s with ⟨_, _, -, -, hread⟩ | ⟨_, _, _, -, -, hread⟩ | ⟨_, _, -, -, -, hread⟩
  · cases hread.symm.trans h
    exact ⟨_, _, rfl⟩
  · cases hread.symm.trans h
    exact ⟨_, _, rfl⟩
  · cases hread.symm.trans h

end Words

/-! ### Signs -/

/-- The piece that starts with `c` if no blank, comment, string, number or word does. -/
def readSign (c : Char) (s : Text) : Piece × Text :=
  if c = '@' ∧ startsIdent s = true then
    (.lexeme .atKeyword (c :: (takeName s).1), (takeName s).2)
  else if c = '#' ∧ startsName s = true then
    (.lexeme .hash (c :: (takeName s).1), (takeName s).2)
  else (.lexeme (.ofChar c) [c], s)

/-- None of the longer lexemes starts here. -/
structure StartsSign (c : Char) (s : Text) : Prop where
  blank : isBlank c = false
  comment : ¬(c = '/' ∧ s.head? = some '*')
  quote : isQuote c = false
  number : startsNumber (c :: s) = false
  ident : startsIdent (c :: s) = false

section Signs

variable {c : Char} {s n v rest : Text} {k : Kind}

/-- The sign `@` in front of an identifier starts a keyword. -/
theorem readSign_atKeyword (hc : c = '@') (hident : startsIdent s = true)
    (hname : takeName s = (n, rest)) : readSign c s = (.lexeme .atKeyword (c :: n), rest) := by
  rw [readSign, if_pos ⟨hc, hident⟩, hname]

/-- The sign `#` in front of a name starts a hash. A name is enough here, where a keyword needs an
identifier: `#1` is a hash and `@1` is two lexemes. -/
theorem readSign_hash (hc : c = '#') (hstart : startsName s = true)
    (hname : takeName s = (n, rest)) : readSign c s = (.lexeme .hash (c :: n), rest) := by
  rw [readSign, if_neg (by simp [hc]), if_pos ⟨hc, hstart⟩, hname]

/-- Any other sign stands for itself. -/
theorem readSign_self (hat : ¬(c = '@' ∧ startsIdent s = true))
    (hhash : ¬(c = '#' ∧ startsName s = true)) : readSign c s = (.lexeme (.ofChar c) [c], s) := by
  rw [readSign, if_neg hat, if_neg hhash]

/-- A sign starts a keyword or a hash, or stands for itself. The first two are named by their sign,
so the cases exclude each other. -/
theorem readSign_cases (h : readSign c s = (.lexeme k v, rest)) :
    k = .atKeyword ∧ c = '@' ∧ startsIdent s = true ∧ (∃ n, v = c :: n ∧ takeName s = (n, rest)) ∨
      k = .hash ∧ c = '#' ∧ startsName s = true ∧ (∃ n, v = c :: n ∧ takeName s = (n, rest)) ∨
      k = .ofChar c ∧ v = [c] ∧ s = rest ∧ ¬(c = '@' ∧ startsIdent s = true) ∧
        ¬(c = '#' ∧ startsName s = true) := by
  by_cases hat : c = '@' ∧ startsIdent s = true
  · cases (readSign_atKeyword hat.1 hat.2 rfl).symm.trans h
    exact .inl ⟨rfl, hat.1, hat.2, _, rfl, rfl⟩
  by_cases hhash : c = '#' ∧ startsName s = true
  · cases (readSign_hash hhash.1 hhash.2 rfl).symm.trans h
    exact .inr (.inl ⟨rfl, hhash.1, hhash.2, _, rfl, rfl⟩)
  · cases (readSign_self hat hhash).symm.trans h
    exact .inr (.inr ⟨rfl, rfl, rfl, hat, hhash⟩)

/-- A character that starts no longer piece, whatever follows. -/
def startsOnlySign (c : Char) : Bool :=
  !isNameChar c && !isSign c && !isBlank c && !isQuote c && c ≠ '\\' && c ≠ '.' && c ≠ '/'

/-- Such a character is read as a sign in front of any text. -/
theorem startsSign_of_startsOnlySign (hc : startsOnlySign c = true) (s : Text) :
    StartsSign c s := by
  simp only [startsOnlySign, isNameChar, Bool.and_eq_true, Bool.not_eq_true',
    Bool.or_eq_false_iff, decide_eq_true_eq, decide_eq_false_iff_not] at hc
  obtain ⟨⟨⟨⟨⟨⟨⟨⟨hstart, hdigit⟩, hhyphen⟩, hsign⟩, hblank⟩, hquote⟩, hescape⟩, hpoint⟩,
    hslash⟩ := hc
  refine ⟨hblank, fun he => hslash he.1, hquote, ?_, ?_⟩
  · simp [startsNumber, startsFraction, hdigit, hpoint, hsign]
  · cases s <;> simp [startsIdent, startsEscape, hstart, hhyphen, hescape]

/-- Reading a sign always gives a lexeme. -/
theorem exists_readSign (c : Char) (s : Text) :
    ∃ k v rest, readSign c s = (.lexeme k v, rest) := by
  unfold readSign
  split
  · exact ⟨_, _, _, rfl⟩
  · split <;> exact ⟨_, _, _, rfl⟩

end Signs

/-! ### A reader that is reached -/

section Reached

variable {c : Char} {s body rest : Text}

/-- A blank starts a run of blanks. -/
theorem next_of_isBlank (hc : isBlank c = true) :
    next c s = .ok (.blanks (c :: s.takeWhile isBlank), s.dropWhile isBlank) := by
  rw [next, if_pos hc]

/-- A comment that has an end mark is one piece. -/
theorem next_of_takeComment (h : takeComment s = some (body, rest)) :
    next '/' ('*' :: s) = .ok (.comment ('/' :: '*' :: body), rest) := by
  rw [next, if_neg (by decide), if_pos ⟨rfl, rfl⟩, List.tail_cons, h]

/-- A comment that has none has no end. -/
theorem next_of_takeComment_none (h : takeComment s = none) :
    next '/' ('*' :: s) = .error .unterminatedComment := by
  rw [next, if_neg (by decide), if_pos ⟨rfl, rfl⟩, List.tail_cons, h]

/-- A string that has a closing quote on its line is one piece. -/
theorem next_of_takeThrough (hc : isQuote c = true) (h : takeThrough c true s = some (body, rest)) :
    next c s = .ok (.lexeme .string (c :: body), rest) := by
  obtain ⟨hblank, hslash, -⟩ := plain_of_isQuote hc
  rw [next, if_neg (by simp [hblank]), if_neg (by simp [hslash]), if_pos hc, h]

/-- A string that has none has no end. -/
theorem next_of_takeThrough_none (hc : isQuote c = true) (h : takeThrough c true s = none) :
    next c s = .error .unterminatedString := by
  obtain ⟨hblank, hslash, -⟩ := plain_of_isQuote hc
  rw [next, if_neg (by simp [hblank]), if_neg (by simp [hslash]), if_pos hc, h]

/-- A string that was read in front of `y` is read in front of any text. Its closing quote ends it,
and nothing behind is looked at. -/
theorem next_string {a y : Text} (hc : isQuote c = true)
    (h : takeThrough c true (a ++ y) = some (a, y)) (y' : Text) :
    next c (a ++ y') = .ok (.lexeme .string (c :: a), y') := by
  exact next_of_takeThrough hc (takeThrough_closed h y')

/-- Where a number starts, the reader of numbers is reached: what starts a number is no blank, no
slash and no quote. -/
theorem next_of_startsNumber (h : startsNumber (c :: s) = true) :
    next c s = .ok (readNumber (c :: s)) := by
  -- the readers that are asked before are not reached from a digit, a point or a sign
  have hc : isBlank c = false ∧ c ≠ '/' ∧ isQuote c = false := by
    simp only [startsNumber, startsFraction, Bool.or_eq_true, Bool.and_eq_true,
      decide_eq_true_eq] at h
    rcases h with (hdigit | ⟨rfl, -⟩) | ⟨hsign, -⟩
    · exact plain_of_isNameChar (isNameChar_of_isDigit hdigit)
    · decide
    · rcases eq_of_isSign hsign with rfl | rfl <;> decide
  rw [next, if_neg (by simp [hc.1]), if_neg (by simp [hc.2.1]), if_neg (by simp [hc.2.2]),
    if_pos h]

/-- Where an identifier starts and no number, the reader of words is reached. The condition on
numbers is not needed for the letters, but a hyphen may start either. -/
theorem next_of_startsIdent (hnumber : startsNumber (c :: s) = false)
    (h : startsIdent (c :: s) = true) : next c s = readWord (c :: s) := by
  -- an identifier starts with a character of a name or with a backslash
  have hc : isBlank c = false ∧ c ≠ '/' ∧ isQuote c = false := by
    have hname := startsName_of_startsIdent h
    simp only [startsName, Bool.or_eq_true] at hname
    rcases hname with hname | hescape
    · exact plain_of_isNameChar hname
    · cases s with
      | nil => cases hescape
      | cons d t =>
          simp only [startsEscape, Bool.and_eq_true, decide_eq_true_eq] at hescape
          rw [hescape.1]
          decide
  rw [next, if_neg (by simp [hc.1]), if_neg (by simp [hc.2.1]), if_neg (by simp [hc.2.2]),
    if_neg (by simp [hnumber]), if_pos h]

/-- Where nothing longer starts, the reader of signs is reached. -/
theorem next_of_startsSign (h : StartsSign c s) : next c s = .ok (readSign c s) := by
  rw [next, if_neg (by simp [h.blank]), if_neg h.comment, if_neg (by simp [h.quote]),
    if_neg (by simp [h.number]), if_neg (by simp [h.ident]), readSign]
  -- `readSign` is the end of `next` with the two tests that are left
  split
  · rfl
  · split <;> rfl

/-- Some reader is reached. The cases are in the order in which the readers are asked, and a later
case holds only what is needed of the earlier ones. -/
theorem starts_cases (c : Char) (s : Text) :
    isBlank c = true ∨ (c = '/' ∧ ∃ t, s = '*' :: t) ∨ isQuote c = true ∨
      startsNumber (c :: s) = true ∨
      (startsNumber (c :: s) = false ∧ startsIdent (c :: s) = true) ∨ StartsSign c s := by
  cases hblank : isBlank c with
  | true => exact .inl rfl
  | false =>
    by_cases hcomment : c = '/' ∧ s.head? = some '*'
    · exact .inr (.inl ⟨hcomment.1, List.head?_eq_some_iff.1 hcomment.2⟩)
    cases hquote : isQuote c with
    | true => exact .inr (.inr (.inl rfl))
    | false =>
      cases hnumber : startsNumber (c :: s) with
      | true => exact .inr (.inr (.inr (.inl rfl)))
      | false =>
        cases hident : startsIdent (c :: s) with
        | true => exact .inr (.inr (.inr (.inr (.inl ⟨rfl, rfl⟩))))
        | false =>
            exact .inr (.inr (.inr (.inr (.inr ⟨hblank, hcomment, hquote, hnumber, hident⟩))))

end Reached

/-! ### The piece that was read -/

section Read

variable {c : Char} {s v rest : Text} {p : Piece} {k : Kind}

/-- **What one step can do.** The piece is a run of blanks, a comment, or a lexeme that one of the
four readers of lexemes has taken. -/
theorem next_ok_cases (h : next c s = .ok (p, rest)) :
    (isBlank c = true ∧ p = .blanks (c :: s.takeWhile isBlank) ∧ rest = s.dropWhile isBlank) ∨
    (c = '/' ∧ ∃ t body, s = '*' :: t ∧ p = .comment ('/' :: '*' :: body) ∧
      takeComment t = some (body, rest)) ∨
    ∃ k v, p = .lexeme k v ∧
      ((isQuote c = true ∧ k = .string ∧
          ∃ body, v = c :: body ∧ takeThrough c true s = some (body, rest)) ∨
        (startsNumber (c :: s) = true ∧ readNumber (c :: s) = (.lexeme k v, rest)) ∨
        (startsNumber (c :: s) = false ∧ startsIdent (c :: s) = true ∧
          readWord (c :: s) = .ok (.lexeme k v, rest)) ∨
        (StartsSign c s ∧ readSign c s = (.lexeme k v, rest))) := by
  -- for each reader, the piece that it gives is compared with the one that was read
  rcases starts_cases c s with hblank | ⟨rfl, t, rfl⟩ | hquote | hnumber | ⟨hnumber, hident⟩ | hsign
  · cases (next_of_isBlank hblank).symm.trans h
    exact .inl ⟨hblank, rfl, rfl⟩
  · cases hbody : takeComment t with
    | none => cases (next_of_takeComment_none hbody).symm.trans h
    | some q =>
        cases (next_of_takeComment hbody).symm.trans h
        exact .inr (.inl ⟨rfl, t, q.1, rfl, rfl, hbody⟩)
  · cases hbody : takeThrough c true s with
    | none => cases (next_of_takeThrough_none hquote hbody).symm.trans h
    | some q =>
        cases (next_of_takeThrough hquote hbody).symm.trans h
        exact .inr (.inr ⟨_, _, rfl, .inl ⟨hquote, rfl, q.1, rfl, rfl⟩⟩)
  · obtain ⟨k, v, rest', hread⟩ := exists_readNumber (c :: s)
    rw [next_of_startsNumber hnumber, hread] at h
    cases h
    exact .inr (.inr ⟨k, v, rfl, .inr (.inl ⟨hnumber, hread⟩)⟩)
  · rw [next_of_startsIdent hnumber hident] at h
    obtain ⟨k, v, rfl⟩ := exists_lexeme_of_readWord h
    exact .inr (.inr ⟨k, v, rfl, .inr (.inr (.inl ⟨hnumber, hident, h⟩))⟩)
  · obtain ⟨k, v, rest', hread⟩ := exists_readSign c s
    rw [next_of_startsSign hsign, hread] at h
    cases h
    exact .inr (.inr ⟨k, v, rfl, .inr (.inr (.inr ⟨hsign, hread⟩))⟩)

/-- A run of blanks was read from a blank, and all blanks that follow are in it. -/
theorem of_next_blanks (h : next c s = .ok (.blanks v, rest)) :
    isBlank c = true ∧ v = c :: s.takeWhile isBlank ∧ rest = s.dropWhile isBlank := by
  rcases next_ok_cases h with ⟨hc, hp, hrest⟩ | ⟨-, t, body, -, hp, -⟩ | ⟨k, w, hp, -⟩
  · cases hp
    exact ⟨hc, rfl, hrest⟩
  · cases hp
  · cases hp

/-- A comment was read from its opening mark. -/
theorem of_next_comment (h : next c s = .ok (.comment v, rest)) :
    c = '/' ∧ ∃ t body, s = '*' :: t ∧ v = '/' :: '*' :: body ∧
      takeComment t = some (body, rest) := by
  rcases next_ok_cases h with ⟨-, hp, -⟩ | ⟨hc, t, body, hs, hp, hbody⟩ | ⟨k, w, hp, -⟩
  · cases hp
  · cases hp
    exact ⟨hc, t, body, hs, rfl, hbody⟩
  · cases hp

/-- How a lexeme was read: by exactly one of the readers of strings, numbers, words and signs. Later
proofs use this instead of unfolding `next`. -/
theorem next_lexeme_cases (h : next c s = .ok (.lexeme k v, rest)) :
    (isQuote c = true ∧ k = .string ∧
      ∃ body, v = c :: body ∧ takeThrough c true s = some (body, rest)) ∨
    (startsNumber (c :: s) = true ∧ readNumber (c :: s) = (.lexeme k v, rest)) ∨
    (startsNumber (c :: s) = false ∧ startsIdent (c :: s) = true ∧
      readWord (c :: s) = .ok (.lexeme k v, rest)) ∨
    (StartsSign c s ∧ readSign c s = (.lexeme k v, rest)) := by
  rcases next_ok_cases h with ⟨-, hp, -⟩ | ⟨-, t, body, -, hp, -⟩ | ⟨k', v', hp, hread⟩
  · cases hp
  · cases hp
  · cases hp
    exact hread

/-- A lexeme starts with no blank. -/
theorem not_isBlank_of_next (h : next c s = .ok (.lexeme k v, rest)) : isBlank c = false := by
  refine Bool.eq_false_iff.2 fun hblank => ?_
  cases (next_of_isBlank hblank).symm.trans h

/-- A lexeme is a single sign, with the class of that sign, or it has one of the longer classes.
Hence the class of a mark tells its text. -/
theorem lexeme_of_next (h : next c s = .ok (.lexeme k v, rest)) :
    k = .ofChar c ∧ v = [c] ∨ k ∈ longKinds := by
  rcases next_lexeme_cases h with ⟨-, rfl, -⟩ | ⟨-, hread⟩ | ⟨-, -, hread⟩ | ⟨-, hread⟩
  · exact .inr (by decide)
  · obtain ⟨_, _, -, ⟨rfl, -⟩ | ⟨rfl, -⟩ | ⟨rfl, -⟩⟩ := readNumber_cases hread <;>
      exact .inr (by decide)
  · rcases readWord_cases hread with ⟨rfl, -⟩ | ⟨rfl, -⟩ <;> exact .inr (by decide)
  · rcases readSign_cases hread with ⟨rfl, -⟩ | ⟨rfl, -⟩ | ⟨hk, hv, -⟩
    · exact .inr (by decide)
    · exact .inr (by decide)
    · exact .inl ⟨hk, hv⟩

/-- A keyword starts with its sign. Every other reader gives lexemes of other classes. -/
theorem eq_at_of_next (h : next c s = .ok (.lexeme .atKeyword v, rest)) : c = '@' := by
  rcases next_lexeme_cases h with ⟨-, hk, -⟩ | ⟨-, hread⟩ | ⟨-, -, hread⟩ | ⟨-, hread⟩
  · cases hk
  · obtain ⟨_, _, -, ⟨hk, -⟩ | ⟨hk, -⟩ | ⟨hk, -⟩⟩ := readNumber_cases hread <;> cases hk
  · rcases readWord_cases hread with ⟨hk, -⟩ | ⟨hk, -⟩ <;> cases hk
  · rcases readSign_cases hread with ⟨-, hc, -⟩ | ⟨hk, -⟩ | ⟨hk, -⟩
    · exact hc
    · cases hk
    · exact absurd (by rw [← hk]; decide) (ofChar_notMem_longKinds c)

/-- A piece starts with the character that it was read from, and the rest of it was taken from the
text behind. -/
theorem exists_cons_of_next (h : next c s = .ok (p, rest)) :
    ∃ a, p.text = c :: a ∧ s = a ++ rest := by
  obtain ⟨d, a, htext⟩ := List.exists_cons_of_ne_nil (next_text_ne_nil h)
  have happ := next_append h
  rw [htext, List.cons_append] at happ
  obtain ⟨rfl, hs⟩ := List.cons.inj happ
  exact ⟨a, htext, hs.symm⟩

/-- Why a piece has no end: a comment without its mark, a string without its quote, or a word that
opens a `url(...)` without its bracket. -/
theorem next_error_cases {f : Fault} (h : next c s = .error f) :
    (f = .unterminatedComment ∧ c = '/' ∧ ∃ t, s = '*' :: t ∧ takeComment t = none) ∨
    (f = .unterminatedString ∧ isQuote c = true ∧ takeThrough c true s = none) ∨
    readWord (c :: s) = .error f := by
  rcases starts_cases c s with hblank | ⟨rfl, t, rfl⟩ | hquote | hnumber | ⟨hnumber, hident⟩ | hsign
  · cases (next_of_isBlank hblank).symm.trans h
  · cases hbody : takeComment t with
    | none =>
        cases (next_of_takeComment_none hbody).symm.trans h
        exact .inl ⟨rfl, rfl, t, rfl, hbody⟩
    | some q => cases (next_of_takeComment hbody).symm.trans h
  · cases hbody : takeThrough c true s with
    | none =>
        cases (next_of_takeThrough_none hquote hbody).symm.trans h
        exact .inr (.inl ⟨rfl, hquote, rfl⟩)
    | some q => cases (next_of_takeThrough hquote hbody).symm.trans h
  · cases (next_of_startsNumber hnumber).symm.trans h
  · exact .inr (.inr ((next_of_startsIdent hnumber hident).symm.trans h))
  · cases (next_of_startsSign hsign).symm.trans h

end Read

end CssHints.Token
