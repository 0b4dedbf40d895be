import CssHints.Proofs.Chunk

/-!
# `CssHints.Proofs.Lookahead`: what a piece sees of the text behind it

A piece is chosen by looking at what stands behind it, a few characters at most. This module says
what may happen to that text without a change in the piece, in sources without a backslash: it may
be cut off anywhere, and blanks may be replaced by other blanks (`Follows`).

* The tests on the first characters of a text see no more in the changed text than in the text
  itself (`Follows.startsNumber`, `Follows.startsIdent` and their like).
* So the changed text shows a lexeme no more than the text itself (`Follows.showsNoMore`), and the
  piece stays what it was (`next_lexeme_of_follows`). There is one exception: a word `url` and a
  bracket are two pieces only as long as a quote is in sight behind the bracket (`QuoteStays`).
-/

set_option autoImplicit false

namespace CssHints.Token

open Text (isDigit startsDigit)

/-! ### A text that was cut off or has other blanks -/

/-- The second text is the first one, cut off somewhere or with other blanks from some blank on. -/
inductive Follows : Text → Text → Prop
  | nil (y : Text) : Follows y []
  | blank {b b' : Char} (y y' : Text) :
      isBlank b = true → isBlank b' = true → Follows (b :: y) (b' :: y')
  | cons (c : Char) {y y' : Text} : Follows y y' → Follows (c :: y) (c :: y')

namespace Follows

variable {y y' : Text}

/-- The same characters may stand in front of both texts. -/
theorem append (h : Follows y y') (s : Text) : Follows (s ++ y) (s ++ y') := by
  induction s with
  | nil => exact h
  | cons c s ih => exact .cons c ih

/-- If the text starts with no blank, neither does what it is changed to. -/
theorem not_isBlank (h : Follows y y') (hy : ∀ c ∈ y.head?, isBlank c = false) :
    ∀ c ∈ y'.head?, isBlank c = false := by
  cases h with
  | nil => simp
  | blank y y' hb hb' => simp [hb] at hy
  | cons c _ => exact hy

/-- A first character that is no blank was there before, with a text behind it that was changed in
the same way. All lemmas about single characters go through this one. -/
theorem exists_cons {c : Char} (h : Follows y (c :: y')) (hc : isBlank c = false) :
    ∃ z, y = c :: z ∧ Follows z y' := by
  cases h with
  | blank y y' hb hb' => simp [hc] at hb'
  | cons c h => exact ⟨_, rfl, h⟩

end Follows

/-! ### The tests see no more -/

/-- A character that passes a test which fails for separators is no blank. -/
theorem not_isBlank_of {p : Char → Bool} (hp : ∀ {d}, isSeparator d = true → p d = false) {c : Char}
    (hc : p c = true) : isBlank c = false := by
  cases hb : isBlank c with
  | false => rfl
  | true =>
      rw [hp (isSeparator_of_isBlank hb)] at hc
      cases hc

/-- Without a backslash there is no escape. -/
theorem startsEscape_eq_false {s : Text} (h : '\\' ∉ s) : startsEscape s = false := by
  match s, h with
  | [], _ => rfl
  | [c], _ => rfl
  | c :: d :: s, h =>
      have hc : c ≠ '\\' := by
        rintro rfl
        exact h List.mem_cons_self
      simp [startsEscape, hc]

/-- In a text without a backslash an identifier starts with a letter or with a hyphen and a letter
or a further hyphen, so two characters decide. -/
theorem startsIdent_eq {s : Text} (h : '\\' ∉ s) :
    startsIdent s = match s with
      | [] => false
      | c :: t => isNameStart c || (c = '-' && t.head?.any fun d => isNameStart d || d = '-') := by
  cases s with
  | nil => rfl
  | cons c t =>
      cases t with
      | nil => simp [startsIdent, startsEscape]
      | cons d t =>
          have ht : '\\' ∉ d :: t := fun hd => h (List.mem_cons_of_mem _ hd)
          simp [startsIdent, startsEscape_eq_false h, startsEscape_eq_false ht]

/-- In a text without a backslash the first character decides whether a name goes on. -/
theorem startsName_eq {s : Text} (h : '\\' ∉ s) : startsName s = s.head?.any isNameChar := by
  cases s with
  | nil => rfl
  | cons c t => simp [startsName, startsEscape_eq_false h]

namespace Follows

variable {y y' : Text}

/-- A digit that the changed text starts with was there before. -/
theorem startsDigit (h : Follows y y') (hy : startsDigit y' = true) : startsDigit y = true := by
  cases y' with
  | nil => cases hy
  | cons c y' =>
      obtain ⟨z, rfl, -⟩ := h.exists_cons (not_isBlank_of isDigit_separator hy)
      exact hy

/-- A fraction that the changed text starts with was there before: a point and a digit, neither of
which is a blank. -/
theorem startsFraction (h : Follows y y') (hy : startsFraction y' = true) :
    startsFraction y = true := by
  cases y' with
  | nil => cases hy
  | cons c y' =>
      simp only [Token.startsFraction, Bool.and_eq_true, decide_eq_true_eq] at hy
      obtain ⟨rfl, hdigit⟩ := hy
      obtain ⟨z, rfl, hz⟩ := h.exists_cons (by decide)
      simpa [Token.startsFraction] using hz.startsDigit hdigit

/-- A number that the changed text starts with was there before. At most three characters are looked
at, and each of those that count is no blank. -/
theorem startsNumber (h : Follows y y') (hy : startsNumber y' = true) :
    startsNumber y = true := by
  cases y' with
  | nil => cases hy
  | cons c y' =>
      simp only [Token.startsNumber, Bool.or_eq_true, Bool.and_eq_true] at hy
      -- three beginnings of a number: a digit, a fraction, or a sign before one of them
      rcases hy with (hdigit | hfraction) | ⟨hsign, hrest⟩
      · obtain ⟨z, rfl, -⟩ := h.exists_cons (not_isBlank_of isDigit_separator hdigit)
        simp [Token.startsNumber, hdigit]
      · have hy := h.startsFraction hfraction
        cases y with
        | nil => cases hy
        | cons d y => simp [Token.startsNumber, hy]
      · obtain ⟨z, rfl, hz⟩ := h.exists_cons (not_isBlank_of isSign_separator hsign)
        rcases hrest with hdigit | hfraction
        · simp [Token.startsNumber, hsign, hz.startsDigit hdigit]
        · simp [Token.startsNumber, hsign, hz.startsFraction hfraction]

/-- A name that goes on in the changed text goes on in the text itself. -/
theorem startsName (h : Follows y y') (hslash : '\\' ∉ y') (hy : startsName y' = true) :
    startsName y = true := by
  rw [startsName_eq hslash] at hy
  cases y' with
  | nil => cases hy
  | cons c y' =>
      have hc : isNameChar c = true := hy
      obtain ⟨z, rfl, -⟩ := h.exists_cons (not_isBlank_of isNameChar_separator hc)
      simp [Token.startsName, hc]

/-- An identifier that the changed text starts with was there before. Without a backslash the first
two characters decide, and neither is a blank. -/
theorem startsIdent (h : Follows y y') (hslash : '\\' ∉ y') (hy : startsIdent y' = true) :
    startsIdent y = true := by
  rw [startsIdent_eq hslash] at hy
  cases y' with
  | nil => cases hy
  | cons c y' =>
      simp only [Bool.or_eq_true, Bool.and_eq_true, decide_eq_true_eq] at hy
      rcases hy with hstart | ⟨rfl, hsecond⟩
      · obtain ⟨z, rfl, -⟩ := h.exists_cons (not_isBlank_of isNameStart_separator hstart)
        simp [Token.startsIdent, hstart]
      · -- behind a hyphen the second character counts, and it is no blank
        obtain ⟨z, rfl, hz⟩ := h.exists_cons (by decide)
        cases y' with
        | nil => cases hsecond
        | cons d y' =>
            have hd : (isNameStart d || decide (d = '-')) = true := hsecond
            have hblank : isBlank d = false := by
              refine not_isBlank_of (p := fun d => isNameStart d || decide (d = '-')) ?_ hd
              intro e he
              simp [isNameStart_separator he, ne_hyphen_of_separator he]
            obtain ⟨z, rfl, -⟩ := hz.exists_cons hblank
            rw [Bool.or_eq_true, decide_eq_true_eq] at hd
            rcases hd with hd | hd <;> simp [Token.startsIdent, hd]

/-- A digit behind an optional sign was there before. -/
theorem startsDigit_takeSign (h : Follows y y')
    (hy : Text.startsDigit (takeSign y').2 = true) : Text.startsDigit (takeSign y).2 = true := by
  cases y' with
  | nil => cases hy
  | cons c y' =>
      cases hsign : isSign c with
      | true =>
          obtain ⟨z, rfl, hz⟩ := h.exists_cons (not_isBlank_of isSign_separator hsign)
          simp only [takeSign, hsign, if_true] at hy ⊢
          exact hz.startsDigit hy
      | false =>
          have hc : isDigit c = true := by simpa [takeSign, hsign, Text.startsDigit] using hy
          obtain ⟨z, rfl, hz⟩ := h.exists_cons (not_isBlank_of isDigit_separator hc)
          simpa [takeSign, hsign, Text.startsDigit] using hc

/-- An exponent that the changed text starts with was there before: its mark, and a digit behind an
optional sign. -/
theorem startsExponent (h : Follows y y')
    (hy : startsExponent y' = true) : startsExponent y = true := by
  cases y' with
  | nil => cases hy
  | cons c y' =>
      simp only [Token.startsExponent, Bool.and_eq_true, Bool.or_eq_true, decide_eq_true_eq] at hy
      have hc : isBlank c = false := by rcases hy.1 with rfl | rfl <;> decide
      obtain ⟨z, rfl, hz⟩ := h.exists_cons hc
      simp only [Token.startsExponent, Bool.and_eq_true, Bool.or_eq_true, decide_eq_true_eq]
      exact ⟨hy.1, hz.startsDigit_takeSign hy.2⟩

/-- A first character that is no blank was the first character before. -/
theorem head_eq (h : Follows y y') {d : Char} (hd : isBlank d = false) (hy' : y'.head? = some d) :
    y.head? = some d := by
  obtain ⟨r, rfl⟩ := List.head?_eq_some_iff.1 hy'
  obtain ⟨z, rfl, -⟩ := h.exists_cons hd
  rfl

end Follows

/-! ### Lexemes -/

/-- The word `url` and a bracket are a word and a bracket as long as a quote is in sight. -/
def QuoteStays (y y' : Text) : Prop :=
  ∀ r r', y = '(' :: r → y' = '(' :: r' → startsQuoted r = true → startsQuoted r' = true

/-- The changed text shows a lexeme no more than the text itself. The test for `url` is the only one
that looks for something to be absent, and the quote that it looks for stays in sight. -/
theorem Follows.showsNoMore {v y y' : Text} (h : Follows y y') (hquote : QuoteStays y y')
    (hslash : '\\' ∉ v ++ y') : ShowsNoMore v y y' where
  name := h.startsName fun hm => hslash (List.mem_append_right _ hm)
  ident := h.startsIdent fun hm => hslash (List.mem_append_right _ hm)
  digit := h.startsDigit
  fraction := h.startsFraction
  exponent u := (h.append u).startsExponent
  percent := h.head_eq (by decide)
  star := h.head_eq (by decide)
  url := by
    rintro ⟨hlower, r', rfl, hplain⟩
    obtain ⟨r, rfl, -⟩ := h.exists_cons (by decide)
    refine ⟨hlower, r, rfl, Bool.eq_false_iff.2 fun hquoted => ?_⟩
    rw [hquote r r' rfl rfl hquoted] at hplain
    cases hplain
  wholeNumber := (h.append v).startsNumber
  wholeIdent := (h.append v).startsIdent hslash

/-- **A lexeme and the text behind it.** A lexeme stays what it is if the text behind it is cut off
or gets other blanks, and a quote behind `url` and a bracket stays in sight. -/
theorem next_lexeme_of_follows {c : Char} {a y y' : Text} {k : Kind}
    (h : next c (a ++ y) = .ok (.lexeme k (c :: a), y)) (hfollows : Follows y y')
    (hquote : QuoteStays y y') (hslash : '\\' ∉ c :: (a ++ y')) :
    next c (a ++ y') = .ok (.lexeme k (c :: a), y') :=
  next_of_showsNoMore h (hfollows.showsNoMore hquote hslash)

end CssHints.Token
