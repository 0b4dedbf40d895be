import CssHints.Proofs.Numerals

/-!
# `CssHints.Proofs.Reach`: when a lexeme takes in some of the text behind it

A lexeme ends where the text behind it cannot go on with it. `RunsInto` says for each class of
lexeme what makes it go on: a name character behind a name, a digit behind a number, a star behind
a slash and so on. `next_iff_not_runsInto` is the exact condition: a lexeme that was read in front
of one text is read in front of another just if it does not run into that one.

The long case is a number, whose parts stop for reasons of their own (`Stops`). A dimension whose
unit is the letter `e` is a special one: a plus sign and a digit behind it make an exponent of the
letter (`CompletesExponent`).

The condition looks at a few characters behind the lexeme. A text that shows no more there than the
one that the lexeme was read in front of leaves it as it is (`ShowsNoMore`,
`next_of_showsNoMore`). A text that is cut off is one of them, and so a lexeme is also read on its
own (`next_alone`).
-/

set_option autoImplicit false

namespace CssHints.Token

open Text (isDigit startsDigit)

/-! ### A lexeme starts within its own text -/

section Starts

variable {c : Char} {a y v : Text} {k : Kind}

/-- What starts a part of a name is a character of a name or a backslash. -/
theorem isNameChar_or_eq_of_startsName (h : startsName (c :: a) = true) :
    isNameChar c = true ∨ c = '\\' := by
  simp only [startsName, Bool.or_eq_true] at h
  refine h.imp_right fun hescape => ?_
  obtain ⟨_, _, he, -⟩ := exists_of_startsEscape hescape
  exact (List.cons.inj he).1

/-- A point starts no part of a name. -/
theorem ne_point_of_startsName (h : startsName (c :: a) = true) : c ≠ '.' := by
  rintro rfl
  exact absurd (isNameChar_or_eq_of_startsName h) (by decide)

/-- A number starts within its own piece. The numeral is a part of the piece, and the number starts
within the numeral, so the reader of numbers is reached whatever follows the piece. -/
theorem startsNumber_of_readNumber (h : readNumber (a ++ y) = (.lexeme k v, y))
    (hstart : startsNumber (a ++ y) = true) (x : Text) : startsNumber (a ++ x) = true := by
  obtain ⟨n, z, hnz, hcases⟩ := readNumber_cases h
  have hn := startsNumber_takeNumeral hstart hnz
  -- behind the numeral the piece has a percent sign, a unit or nothing
  obtain ⟨u, rfl⟩ : ∃ u, z = u ++ y := by
    rcases hcases with ⟨-, -, rfl⟩ | ⟨-, -, -, u, -, hunit⟩ | ⟨-, -, rfl, -, -⟩
    · exact ⟨['%'], rfl⟩
    · exact ⟨u, (append_of_takeName hunit).symm⟩
    · exact ⟨[], rfl⟩
  have happ := append_of_takeNumeral hnz
  rw [← List.append_assoc] at happ
  obtain rfl : n ++ u = a := List.append_cancel_right happ
  rw [List.append_assoc]
  exact startsNumber_append hn _

/-- A word starts within its own piece, since it starts within its name. -/
theorem startsIdent_of_readWord (h : readWord (a ++ y) = .ok (.lexeme k v, y))
    (hstart : startsIdent (a ++ y) = true) (x : Text) : startsIdent (a ++ x) = true := by
  obtain ⟨n, u, hname⟩ := exists_takeName_of_readWord h
  have happ := append_of_takeName hname
  rw [← List.append_assoc] at happ
  obtain rfl : n ++ u = a := List.append_cancel_right happ
  rw [List.append_assoc]
  exact startsIdent_append (startsIdent_takeName hstart hname) _

/-- A word that starts no number in front of one text starts none in front of another. The test for
a number looks past a hyphen at two characters; the word holds at least one of them, and that one is
no digit and no point. -/
theorem startsNumber_word (hident : startsIdent (c :: a) = true)
    (hnumber : startsNumber (c :: (a ++ y)) = false) (y' : Text) :
    startsNumber (c :: (a ++ y')) = false := by
  have hname := startsName_of_startsIdent hident
  have hpoint := ne_point_of_startsName hname
  cases hsign : isSign c with
  | false =>
      simp only [startsNumber, startsFraction, hpoint, hsign, decide_false, Bool.false_and,
        Bool.or_false] at hnumber ⊢
      exact hnumber
  | true =>
      -- behind a hyphen the word goes on with a further part of the name
      obtain rfl : c = '-' := by
        rcases eq_of_isSign hsign with rfl | rfl
        · exact absurd (isNameChar_or_eq_of_startsName hname) (by decide)
        · rfl
      cases a with
      | nil => cases hident
      | cons d a =>
          have hsecond : startsName (d :: a) = true := by
            have hstart : isNameStart '-' = false := by decide
            have hescape : startsEscape ('-' :: d :: a) = false := rfl
            simp only [startsIdent, hstart, hescape, Bool.false_or, decide_true, Bool.true_and,
              Bool.or_eq_true, decide_eq_true_eq] at hident
            rcases hident with (hd | rfl) | hd
            · simp [startsName, isNameChar_of_isNameStart hd]
            · rfl
            · simp [startsName, hd]
          have hd := ne_point_of_startsName hsecond
          simp only [List.cons_append, startsNumber, startsFraction, startsDigit, hd, hpoint,
            decide_false, Bool.false_and, Bool.or_false] at hnumber ⊢
          exact hnumber

end Starts

/-! ### Units that may mark an exponent -/

/-- A numeral without an exponent, on its own. -/
structure IsPlainNumeral (n : Text) : Prop where
  starts : startsNumber n = true
  whole : takeNumeral n = (n, [])
  mark : ∀ e, IsExponentMark e → e ∉ n

/-- The parts of a numeral without an exponent are one on their own. -/
theorem IsNumeral.isPlainNumeral {sg wh fr : Text} (h : IsNumeral sg wh fr [])
    (hstarts : startsNumber (sg ++ (wh ++ (fr ++ []))) = true) :
    IsPlainNumeral (sg ++ (wh ++ (fr ++ []))) := by
  refine ⟨hstarts, ?_, ?_⟩
  · have hread := h.takeNumeral_eq (y := []) ⟨rfl, fun _ _ => rfl, fun _ => rfl⟩
    rwa [List.append_nil (sg ++ _)] at hread
  · -- no digit, sign or point is the mark of an exponent
    intro e he hmem
    rcases h.mem_cases hmem with hdigit | hsign | hpoint | ⟨-, hne⟩
    · rw [he.not_isDigit] at hdigit
      cases hdigit
    · rw [he.not_isSign] at hsign
      cases hsign
    · exact he.ne_point hpoint
    · exact hne rfl

/-- The letter at the end of the text becomes the mark of an exponent in front of `y`. -/
def CompletesExponent (v y : Text) : Prop :=
  ∃ n e r, v = n ++ [e] ∧ IsPlainNumeral n ∧ IsExponentMark e ∧ y = '+' :: r ∧
    startsDigit r = true

/-- An exponent that is completed belongs to the numeral, which is longer then. So a dimension that
completes an exponent cannot have been read: its numeral is shorter than the dimension. -/
theorem CompletesExponent.length_lt {v y : Text} (h : CompletesExponent v y) :
    v.length < (takeNumeral (v ++ y)).1.length := by
  obtain ⟨n, e, r, rfl, hn, he, rfl, hr⟩ := h
  obtain ⟨sg, wh, fr, ex, rfl, hparts, -⟩ :=
    exists_isNumeral (show takeNumeral (n ++ []) = (n, []) by rw [List.append_nil, hn.whole])
      hn.starts
  -- there is no exponent yet
  obtain rfl : ex = [] := by
    rcases hparts.exponent with hnil | ⟨e', sg', ds, rfl, he', -⟩
    · exact hnil
    · exact absurd (by simp) (hn.mark e' he')
  -- the digits behind the plus sign, and that there is at least one
  obtain ⟨hds, hrest⟩ := of_takeDigits
    (show takeDigits ((takeDigits r).1 ++ (takeDigits r).2) = _ by rw [takeDigits_append])
  have hne : (takeDigits r).1 ≠ [] := by
    intro hnil
    have happ := takeDigits_append r
    rw [hnil, List.nil_append] at happ
    rw [happ, hr] at hrest
    cases hrest
  -- with them the letter is the mark of an exponent, and the numeral has all four parts
  have hnumeral : IsNumeral sg wh fr (e :: (['+'] ++ (takeDigits r).1)) :=
    ⟨hparts.sign, hparts.whole, hparts.fraction,
      .inr ⟨e, ['+'], _, rfl, he, .inr ⟨'+', rfl, rfl⟩, hne, hds⟩, hparts.ne_nil⟩
  have hread := hnumeral.takeNumeral_eq (y := (takeDigits r).2) ⟨hrest, by simp, by simp⟩
  have htext : sg ++ (wh ++ (fr ++ [])) ++ [e] ++ '+' :: r =
      sg ++ (wh ++ (fr ++ (e :: (['+'] ++ (takeDigits r).1)))) ++ (takeDigits r).2 := by
    simp [takeDigits_append]
  rw [htext, hread]
  simp

section Units

variable {y y' : Text}

/-- A digit goes on with a name. -/
theorem startsName_of_startsDigit (h : startsDigit y = true) : startsName y = true := by
  cases y with
  | nil => cases h
  | cons c y => simp [startsName, isNameChar_of_isDigit (show isDigit c = true from h)]

/-- What makes an exponent of the letter before it goes on with a name, or starts with a plus sign.
A digit and a hyphen are characters of names; the plus sign is not. -/
theorem startsName_or_plus_of_startsExponent {e : Char} (h : startsExponent (e :: y) = true) :
    startsName y = true ∨ ∃ r, y = '+' :: r ∧ startsDigit r = true := by
  simp only [startsExponent, Bool.and_eq_true] at h
  cases y with
  | nil => cases h.2
  | cons c r =>
      cases hsign : isSign c with
      | true =>
          rcases eq_of_isSign hsign with rfl | rfl
          · exact .inr ⟨r, rfl, by simpa [takeSign, hsign] using h.2⟩
          · exact .inl rfl
      | false =>
          exact .inl (startsName_of_startsDigit (by simpa [takeSign, hsign] using h.2))

/-- A unit goes on into an exponent only if it is the mark of one, in front of a plus sign. A longer
unit holds what the test for an exponent looks at, so the test has failed on it already. -/
theorem exists_of_startsExponent {u : Text} (hne : u ≠ [])
    (hstop : startsExponent (u ++ y) = false) (hname : startsName y' = false)
    (h : startsExponent (u ++ y') = true) :
    ∃ e r, u = [e] ∧ IsExponentMark e ∧ y' = '+' :: r ∧ startsDigit r = true := by
  obtain ⟨e, u, rfl⟩ := List.exists_cons_of_ne_nil hne
  have hparts := h
  simp only [List.cons_append, startsExponent, Bool.and_eq_true, Bool.or_eq_true,
    decide_eq_true_eq] at hparts
  obtain ⟨hmark, hdigit⟩ := hparts
  have hmark' : (decide (e = 'e') || decide (e = 'E')) = true := by
    rcases hmark with rfl | rfl <;> rfl
  rw [List.cons_append, startsExponent, hmark', Bool.true_and] at hstop
  cases u with
  | nil =>
      rcases startsName_or_plus_of_startsExponent h with hgoes | ⟨r, hr⟩
      · cases hgoes.symm.trans hname
      · exact ⟨e, r, rfl, hmark, hr⟩
  -- a second character of the unit: the test gives the same answer in front of both texts, unless
  -- the character is a sign and the digit is missing, and then the digit would go on with the unit
  | cons d u =>
      exfalso
      cases hsign : isSign d with
      | true =>
          simp only [List.cons_append, takeSign, hsign, if_true] at hdigit hstop
          cases u with
          | nil => cases (startsName_of_startsDigit hdigit).symm.trans hname
          | cons f u => cases hdigit.symm.trans hstop
      | false =>
          have hdigit' : isDigit d = true := by simpa [takeSign, hsign, startsDigit] using hdigit
          simp [takeSign, hsign, startsDigit, hdigit'] at hstop

/-- The numeral of a dimension ends in front of the unit, unless the unit marks an exponent. The
unit starts with no digit and no point, so only an exponent is left to be ruled out. -/
theorem takeNumeral_unit {n u : Text} (h : takeNumeral (n ++ (u ++ y)) = (n, u ++ y))
    (hn : startsNumber n = true) (hu : startsIdent u = true) (hname : startsName y' = false)
    (hcomplete : ¬CompletesExponent (n ++ u) y') :
    takeNumeral (n ++ (u ++ y')) = (n, u ++ y') := by
  obtain ⟨d, w, rfl⟩ := List.exists_cons_of_ne_nil (show u ≠ [] by rintro rfl; cases hu)
  have hpoint := ne_point_of_startsName (startsName_of_startsIdent hu)
  refine takeNumeral_of_stops h hn ?_
  intro sg wh fr ex hparts hnumeral hstop
  refine ⟨hstop.digit, fun _ _ => by simp [startsFraction, hpoint], ?_⟩
  rintro rfl
  cases hexp : startsExponent (d :: w ++ y') with
  | false => rfl
  | true =>
      -- the unit is the mark of an exponent, and the sign with a digit behind it makes up the rest
      obtain ⟨e, r, hunit, he, hplus, hr⟩ :=
        exists_of_startsExponent (by simp) (hstop.exponent rfl) hname hexp
      refine absurd ⟨n, e, r, by rw [hunit], ?_, he, hplus, hr⟩ hcomplete
      rw [hparts] at hn ⊢
      exact hnumeral.isPlainNumeral hn

end Units

/-! ### What a lexeme goes on into -/

/-- A lexeme of class `k` with the text `v` takes in some of the text `y` if it stands in front of
it, or reads as something else there. -/
def RunsInto (k : Kind) (v y : Text) : Prop :=
  match k with
  | .ident => startsName y = true ∨ OpensUrl v y
  | .atKeyword => startsName y = true
  | .hash => startsName y = true
  | .number => takeNumeral (v ++ y) ≠ (v, y) ∨ y.head? = some '%' ∨ startsIdent y = true
  | .dimension => startsName y = true ∨ CompletesExponent v y
  | .delim =>
    v = ['/'] ∧ y.head? = some '*' ∨ startsNumber (v ++ y) = true ∨ startsIdent (v ++ y) = true ∨
      v = ['@'] ∧ startsIdent y = true ∨ v = ['#'] ∧ startsName y = true
  | _ => False

/-! ### The exact condition -/

section Condition

variable {c : Char} {a y y' s v rest : Text} {k : Kind}

/-- Of the signs that stand for themselves only those without a class of their own may go on. -/
theorem eq_delim_of_runsInto (h : RunsInto (.ofChar c) v y) : Kind.ofChar c = .delim := by
  revert h
  unfold Kind.ofChar
  split <;> simp [RunsInto]

/-- A number that was read does not run into the rest. For a dimension, an exponent that is
completed would have made the numeral longer than the whole lexeme. -/
theorem not_runsInto_of_readNumber (h : readNumber s = (.lexeme k v, rest)) :
    ¬RunsInto k v rest := by
  have happ : v ++ rest = s := by
    have := readNumber_append s
    rwa [h] at this
  obtain ⟨n, z, hnz, hcases⟩ := readNumber_cases h
  rcases hcases with ⟨rfl, -⟩ | ⟨rfl, hp, hident, u, rfl, hname⟩ | ⟨rfl, rfl, rfl, hp, hident⟩
  · exact id
  · rintro (hstart | hcomplete)
    · rw [startsName_of_takeName hname] at hstart
      cases hstart
    · -- the numeral would be longer than the whole lexeme
      have hlt := hcomplete.length_lt
      rw [happ, hnz, List.length_append] at hlt
      dsimp only at hlt
      omega
  · -- a plain number: the reader has tested for a percent sign and for a unit
    rintro (hne | hpercent | hstart)
    · rw [happ] at hne
      exact hne hnz
    · exact hp hpercent
    · rw [hident] at hstart
      cases hstart

/-- A sign that was read does not run into the rest: each way to go on is a test that has failed. -/
theorem not_runsInto_of_readSign (h : readSign c s = (.lexeme k v, rest))
    (hstart : StartsSign c s) : ¬RunsInto k v rest := by
  rcases readSign_cases h with ⟨rfl, -, -, n, -, hname⟩ | ⟨rfl, -, -, n, -, hname⟩ |
    ⟨rfl, rfl, rfl, hat, hhash⟩
  · simp [RunsInto, startsName_of_takeName hname]
  · simp [RunsInto, startsName_of_takeName hname]
  · intro hruns
    rw [eq_delim_of_runsInto hruns] at hruns
    rcases hruns with ⟨hc, hstar⟩ | hnumber | hident | ⟨hc, hident⟩ | ⟨hc, hname⟩
    · exact hstart.comment ⟨(List.cons.inj hc).1, hstar⟩
    · rw [List.singleton_append, hstart.number] at hnumber
      cases hnumber
    · rw [List.singleton_append, hstart.ident] at hident
      cases hident
    · exact hat ⟨(List.cons.inj hc).1, hident⟩
    · exact hhash ⟨(List.cons.inj hc).1, hname⟩

/-- A lexeme that was read does not run into the rest. This is the one half of the exact
condition. -/
theorem not_runsInto_of_next (h : next c s = .ok (.lexeme k v, rest)) :
    ¬RunsInto k v rest := by
  rcases next_lexeme_cases h with ⟨-, rfl, -⟩ | ⟨-, hread⟩ | ⟨-, -, hread⟩ | ⟨hstart, hread⟩
  · exact id
  · exact not_runsInto_of_readNumber hread
  · rcases readWord_cases hread with ⟨rfl, hname, hurl⟩ | ⟨rfl, -⟩
    · rintro (hstart | hopens)
      · rw [startsName_of_takeName hname] at hstart
        cases hstart
      · exact hurl hopens
    · exact id
  · exact not_runsInto_of_readSign hread hstart

/-- A number that was read is read in front of any text that it does not run into. There is one case
for each way a number can end: with a percent sign, with a unit, or with its digits. -/
theorem readNumber_of_not_runsInto (h : readNumber (a ++ y) = (.lexeme k a, y))
    (hstart : startsNumber (a ++ y) = true) (hruns : ¬RunsInto k a y') :
    readNumber (a ++ y') = (.lexeme k a, y') := by
  obtain ⟨n, z, hnz, hcases⟩ := readNumber_cases h
  have hn := startsNumber_takeNumeral hstart hnz
  rw [← append_of_takeNumeral hnz] at hnz
  rcases hcases with ⟨rfl, rfl, rfl⟩ | ⟨rfl, hp, hident, u, rfl, hname⟩ |
    ⟨rfl, rfl, rfl, hp, hident⟩
  · -- no numeral goes on into a percent sign
    have hdigit : isDigit '%' = false := by decide
    have hnumeral : takeNumeral (n ++ '%' :: y') = (n, '%' :: y') :=
      takeNumeral_of_stops hnz hn fun _ _ _ =>
        ⟨hdigit, by simp [startsFraction], by simp [startsExponent]⟩
    rw [List.append_assoc, List.singleton_append]
    exact readNumber_percentage hnumeral
  · have hu := startsIdent_takeName hident hname
    obtain rfl : u ++ y = z := append_of_takeName hname
    obtain ⟨d, w, rfl⟩ := List.exists_cons_of_ne_nil (show u ≠ [] by rintro rfl; cases hu)
    rw [RunsInto, not_or, Bool.not_eq_true] at hruns
    have hnumeral := takeNumeral_unit hnz hn hu hruns.1 hruns.2
    rw [List.append_assoc]
    exact readNumber_dimension hnumeral hp (startsIdent_append hu y')
      (takeName_of_stop hname hruns.1)
  · -- the condition speaks of the numeral itself
    rw [RunsInto, not_or, not_or, Decidable.not_not, Bool.not_eq_true] at hruns
    exact readNumber_number hruns.1 hruns.2.1 hruns.2.2

/-- A word that was read is read in front of any text that it does not run into. A `url(...)` ends
with its bracket, and runs into nothing. -/
theorem readWord_of_not_runsInto (h : readWord (a ++ y) = .ok (.lexeme k a, y))
    (hruns : ¬RunsInto k a y') : readWord (a ++ y') = .ok (.lexeme k a, y') := by
  rcases readWord_cases h with ⟨rfl, hname, -⟩ | ⟨rfl, n, body, rfl, hname, hurl⟩
  · rw [RunsInto, not_or, Bool.not_eq_true] at hruns
    exact readWord_ident (takeName_of_stop hname hruns.1) hruns.2
  · -- the argument ends with its bracket, whatever follows
    have hbracket : startsName ('(' :: (body ++ y')) = false := by
      have hchar : isNameChar '(' = false := by decide
      cases hb : body ++ y' <;> simp [startsName, startsEscape, hchar]
    rw [List.append_assoc, List.cons_append]
    exact readWord_url (takeName_of_stop hname hbracket) hurl

/-- A sign with a class of its own starts no longer piece, whatever follows. -/
theorem startsOnlySign_of_ofChar (h : Kind.ofChar c ≠ .delim) : startsOnlySign c = true := by
  revert h
  unfold Kind.ofChar
  -- the last case of `Kind.ofChar` is the delimiter, the others are fixed characters
  split
  case h_10 => exact fun hdelim => absurd rfl hdelim
  all_goals exact fun _ => by decide

/-- A sign that was read is read in front of any text that it does not run into. For a keyword and a
hash this is a statement about their names; a single sign has to fail every test again. -/
theorem next_of_readSign (h : readSign c (a ++ y) = (.lexeme k (c :: a), y))
    (hstart : StartsSign c (a ++ y)) (hruns : ¬RunsInto k (c :: a) y') :
    next c (a ++ y') = .ok (.lexeme k (c :: a), y') := by
  rcases readSign_cases h with ⟨rfl, rfl, hident, n, hn, hname⟩ |
    ⟨rfl, rfl, hhash, n, hn, hname⟩ | ⟨rfl, hc, -⟩
  · obtain rfl : a = n := (List.cons.inj hn).2
    rw [RunsInto, Bool.not_eq_true] at hruns
    rw [next_of_startsSign (startsSign_of_startsOnlySign (by decide) _), readSign_atKeyword rfl
      (startsIdent_append (startsIdent_takeName hident hname) y') (takeName_of_stop hname hruns)]
  · obtain rfl : a = n := (List.cons.inj hn).2
    rw [RunsInto, Bool.not_eq_true] at hruns
    rw [next_of_startsSign (startsSign_of_startsOnlySign (by decide) _), readSign_hash rfl
      (startsName_append (startsName_takeName hhash hname) y') (takeName_of_stop hname hruns)]
  · obtain rfl : a = [] := (List.cons.inj hc).2
    rw [List.nil_append]
    by_cases hk : Kind.ofChar c = .delim
    · rw [hk] at hruns
      simp only [RunsInto, not_or, Bool.not_eq_true, List.singleton_append] at hruns
      obtain ⟨hstar, hnumber, hident, hat, hhash⟩ := hruns
      have hsign : StartsSign c y' := ⟨hstart.blank, fun he => hstar ⟨by rw [he.1], he.2⟩,
        hstart.quote, hnumber, hident⟩
      rw [next_of_startsSign hsign, readSign_self (fun he => hat ⟨by rw [he.1], he.2⟩)
        fun he => hhash ⟨by rw [he.1], he.2⟩]
    · -- a bracket or another mark is a lexeme of its own
      have hsign := startsSign_of_startsOnlySign (startsOnlySign_of_ofChar hk) y'
      rw [next_of_startsSign hsign, readSign_self (fun he => hk (by rw [he.1]; rfl))
        fun he => hk (by rw [he.1]; rfl)]

/-- A lexeme that was read is read in front of any text that it does not run into. The other half of
the exact condition, one reader at a time: the reader is reached again since the lexeme starts
within its own text, and it takes the same text. -/
theorem next_of_not_runsInto (h : next c (a ++ y) = .ok (.lexeme k (c :: a), y))
    (hruns : ¬RunsInto k (c :: a) y') : next c (a ++ y') = .ok (.lexeme k (c :: a), y') := by
  rcases next_lexeme_cases h with ⟨hquote, rfl, body, hv, hbody⟩ | ⟨hnumber, hread⟩ |
    ⟨hnumber, hident, hread⟩ | ⟨hstart, hread⟩
  · -- a string ends at its quote, whatever follows
    obtain rfl : a = body := (List.cons.inj hv).2
    exact next_string hquote hbody y'
  · have hread' : readNumber (c :: a ++ y) = (.lexeme k (c :: a), y) := hread
    have hstart : startsNumber (c :: (a ++ y')) = true :=
      startsNumber_of_readNumber hread' hnumber y'
    rw [next_of_startsNumber hstart]
    exact congrArg Except.ok (readNumber_of_not_runsInto hread' hnumber hruns)
  · have hread' : readWord (c :: a ++ y) = .ok (.lexeme k (c :: a), y) := hread
    have hstart : startsIdent (c :: (a ++ y')) = true := startsIdent_of_readWord hread' hident y'
    have hword : startsIdent (c :: a) = true := by
      simpa using startsIdent_of_readWord hread' hident []
    rw [next_of_startsIdent (startsNumber_word hword hnumber y') hstart]
    exact readWord_of_not_runsInto hread' hruns
  · exact next_of_readSign hread hstart hruns

/-- **When a lexeme goes on.** A lexeme that was read in front of one text is read in front of
another just if it does not run into that one. So `RunsInto` is neither too wide nor too narrow. -/
theorem next_iff_not_runsInto (h : next c (a ++ y) = .ok (.lexeme k (c :: a), y)) :
    next c (a ++ y') = .ok (.lexeme k (c :: a), y') ↔ ¬RunsInto k (c :: a) y' :=
  ⟨not_runsInto_of_next, next_of_not_runsInto h⟩

end Condition

/-! ### Texts that show no more -/

/-- Behind the lexeme `v`, the text `y'` shows nothing to go on with that `y` does not show. -/
structure ShowsNoMore (v y y' : Text) : Prop where
  name : startsName y' = true → startsName y = true
  ident : startsIdent y' = true → startsIdent y = true
  digit : startsDigit y' = true → startsDigit y = true
  fraction : startsFraction y' = true → startsFraction y = true
  exponent : ∀ u, startsExponent (u ++ y') = true → startsExponent (u ++ y) = true
  percent : y'.head? = some '%' → y.head? = some '%'
  star : y'.head? = some '*' → y.head? = some '*'
  url : OpensUrl v y' → OpensUrl v y
  /-- The lexeme and the text start a number together. -/
  wholeNumber : startsNumber (v ++ y') = true → startsNumber (v ++ y) = true
  /-- The lexeme and the text start a word together. -/
  wholeIdent : startsIdent (v ++ y') = true → startsIdent (v ++ y) = true

section ShowsNoMore

variable {c : Char} {a s v x y y' rest : Text} {k : Kind}

/-- A numeral stops in front of the one text if it stops in front of the other. -/
theorem ShowsNoMore.stops {fr ex : Text} (h : ShowsNoMore v y y') (hy : Stops fr ex y) :
    Stops fr ex y' :=
  ⟨Bool.eq_false_iff.2 (mt h.digit (Bool.eq_false_iff.1 hy.digit)),
    fun hfr hex => Bool.eq_false_iff.2
      (mt h.fraction (Bool.eq_false_iff.1 (hy.fraction hfr hex))),
    fun hex => Bool.eq_false_iff.2 (mt (h.exponent []) (Bool.eq_false_iff.1 (hy.exponent hex)))⟩

/-- An exponent that the one text completes is completed by the other, or a name goes on there. The
second case arises because the other text may have a digit where this one has a plus sign. -/
theorem ShowsNoMore.completesExponent (h : ShowsNoMore v y y') (hy : CompletesExponent v y') :
    startsName y = true ∨ CompletesExponent v y := by
  obtain ⟨n, e, r, rfl, hn, he, rfl, hr⟩ := hy
  have hexp : startsExponent ([e] ++ '+' :: r) = true := by
    rcases he with rfl | rfl <;> exact hr
  rcases startsName_or_plus_of_startsExponent (h.exponent [e] hexp) with hname | ⟨r', rfl, hr'⟩
  · exact .inl hname
  · exact .inr ⟨n, e, r', rfl, hn, he, rfl, hr'⟩

/-- A lexeme that runs into a text runs into any text that shows as much. There is one case for each
class, and each looks at other fields of `ShowsNoMore`. -/
theorem ShowsNoMore.runsInto (h : ShowsNoMore v y y') (hruns : RunsInto k v y')
    (hnumber : k = .number → startsNumber v = true) : RunsInto k v y := by
  cases k with
  | ident => exact hruns.imp h.name h.url
  | atKeyword => exact h.name hruns
  | hash => exact h.name hruns
  | number =>
      refine hruns.imp ?_ (Or.imp h.percent h.ident)
      -- the numeral would stop in front of the other text too
      exact mt fun hwhole =>
        takeNumeral_of_stops hwhole (hnumber rfl) fun _ _ hstop => h.stops hstop
  | dimension =>
      rcases hruns with hname | hcomplete
      · exact .inl (h.name hname)
      · exact h.completesExponent hcomplete
  | delim =>
      exact hruns.imp (And.imp_right h.star) (Or.imp h.wholeNumber (Or.imp h.wholeIdent
        (Or.imp (And.imp_right h.ident) (And.imp_right h.name))))
  | _ => cases hruns

/-- A lexeme of class number starts a number by itself, so its first characters decide and not what
follows it. -/
theorem startsNumber_of_next (h : next c s = .ok (.lexeme .number v, rest)) :
    startsNumber v = true := by
  -- the other readers give other classes
  rcases next_lexeme_cases h with ⟨-, hk, -⟩ | ⟨hnumber, hread⟩ | ⟨-, -, hread⟩ | ⟨-, hread⟩
  · cases hk
  · obtain ⟨n, z, hnz, ⟨hk, -⟩ | ⟨hk, -⟩ | ⟨-, rfl, -⟩⟩ := readNumber_cases hread
    · cases hk
    · cases hk
    · exact startsNumber_takeNumeral hnumber hnz
  · rcases readWord_cases hread with ⟨hk, -⟩ | ⟨hk, -⟩ <;> cases hk
  · rcases readSign_cases hread with ⟨hk, -⟩ | ⟨hk, -⟩ | ⟨hk, -⟩
    · cases hk
    · cases hk
    · exact absurd (hk ▸ by decide) (ofChar_notMem_longKinds c)

/-- A lexeme that was read in front of one text is read in front of any that shows no more. If it
ran into that one, it would run into the first one too. -/
theorem next_of_showsNoMore (h : next c (a ++ y) = .ok (.lexeme k (c :: a), y))
    (hy : ShowsNoMore (c :: a) y y') : next c (a ++ y') = .ok (.lexeme k (c :: a), y') := by
  refine (next_iff_not_runsInto h).2 fun hruns => not_runsInto_of_next h (hy.runsInto hruns ?_)
  rintro rfl
  exact startsNumber_of_next h

/-- A text that is cut off shows no more, if a quote behind a bracket stays in sight. All the tests
but the one for a quote can only be lost when a text is cut off. -/
theorem ShowsNoMore.left
    (hquoted : ∀ r, y = '(' :: r → startsQuoted r = false → startsQuoted (r ++ x) = false) :
    ShowsNoMore v (y ++ x) y where
  name h := startsName_append h x
  ident h := startsIdent_append h x
  digit h := startsDigit_append h x
  fraction h := startsFraction_append h x
  exponent u h := by
    rw [← List.append_assoc]
    exact startsExponent_append h x
  percent h := by
    obtain ⟨r, rfl⟩ := List.head?_eq_some_iff.1 h
    rfl
  star h := by
    obtain ⟨r, rfl⟩ := List.head?_eq_some_iff.1 h
    rfl
  -- the one test for something that is absent
  url := by
    rintro ⟨hlower, r, rfl, hplain⟩
    exact ⟨hlower, r ++ x, rfl, hquoted r rfl hplain⟩
  wholeNumber h := by
    rw [← List.append_assoc]
    exact startsNumber_append h x
  wholeIdent h := by
    rw [← List.append_assoc]
    exact startsIdent_append h x

/-- **A lexeme is a complete token**: on its own it is read as what it is. The empty text shows
nothing to go on with. -/
theorem next_alone (h : next c (a ++ y) = .ok (.lexeme k (c :: a), y)) :
    next c a = .ok (.lexeme k (c :: a), []) := by
  have hcut : ShowsNoMore (c :: a) ([] ++ y) [] := .left (by simp)
  have hself := next_of_showsNoMore h hcut
  rwa [List.append_nil] at hself

end ShowsNoMore

end CssHints.Token
