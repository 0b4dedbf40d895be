import CssHints.Proofs.Readers

/-!
# `CssHints.Proofs.Numerals`: the parts of a numeral and where it ends

A numeral is a sign, digits, a fraction and an exponent, each as far as it is there (`IsNumeral`).
It ends for a reason that the text behind it gives: no digit follows, and nothing that would start
a part which is not there yet (`Stops`).

* `exists_isNumeral`: a numeral that was taken has these parts, and it stops in front of the rest.
* `IsNumeral.takeNumeral_eq`: such parts in front of a text that they stop at are taken whole.

So a numeral that was taken in front of one text is taken in front of any other that gives it no
more reason to go on (`takeNumeral_of_stops`).
-/

set_option autoImplicit false

namespace CssHints.Token

open Text (isDigit startsDigit)

/-! ### Runs -/

/-- A run is taken whole, and no more, in front of a text that does not go on with it. -/
theorem takeWhile_append_eq {p : Char → Bool} {a y : Text} (ha : ∀ c ∈ a, p c = true)
    (hy : ∀ c ∈ y.head?, p c = false) : (a ++ y).takeWhile p = a ∧ (a ++ y).dropWhile p = y := by
  rw [List.takeWhile_append_of_pos ha, List.dropWhile_append_of_pos ha]
  cases y with
  | nil => simp
  | cons c y => simp [hy c rfl]

/-- A reader of a run that leaves `y` has read a whole run: what it took is in the run, and `y` does
not go on with it. -/
theorem takeWhile_of_dropWhile {p : Char → Bool} {a y : Text} (h : (a ++ y).dropWhile p = y) :
    (a ++ y).takeWhile p = a ∧ (∀ c ∈ a, p c = true) ∧ ∀ c ∈ y.head?, p c = false := by
  have happ := List.takeWhile_append_dropWhile (p := p) (l := a ++ y)
  rw [h] at happ
  have htake : (a ++ y).takeWhile p = a := List.append_cancel_right happ
  refine ⟨htake, ?_, ?_⟩
  · rw [← htake]
    exact List.all_eq_true.1 List.all_takeWhile
  · -- what is left starts with the first character that fails the test
    intro c hc
    have hhead := List.head?_dropWhile_not p (a ++ y)
    rw [h, hc] at hhead
    simpa using hhead

/-! ### The parts -/

/-- A run of digits, at least one. -/
def IsDigits (ds : Text) : Prop := ds ≠ [] ∧ ∀ c ∈ ds, isDigit c = true

/-- A sign or nothing. -/
def IsOptionalSign (sg : Text) : Prop := sg = [] ∨ ∃ c, isSign c = true ∧ sg = [c]

/-- A letter that marks an exponent. -/
def IsExponentMark (e : Char) : Prop := e = 'e' ∨ e = 'E'

/-- A point with digits or nothing. -/
def IsOptionalFraction (fr : Text) : Prop := fr = [] ∨ ∃ ds, fr = '.' :: ds ∧ IsDigits ds

/-- An exponent with its mark or nothing. -/
def IsOptionalExponent (ex : Text) : Prop :=
  ex = [] ∨ ∃ e sg ds, ex = e :: (sg ++ ds) ∧ IsExponentMark e ∧ IsOptionalSign sg ∧ IsDigits ds

/-- The four parts of a numeral. -/
structure IsNumeral (sg wh fr ex : Text) : Prop where
  sign : IsOptionalSign sg
  whole : ∀ c ∈ wh, isDigit c = true
  fraction : IsOptionalFraction fr
  exponent : IsOptionalExponent ex
  ne_nil : wh ≠ [] ∨ fr ≠ []

/-- The text starts with an exponent. -/
def startsExponent : Text → Bool
  | [] => false
  | c :: s => (c = 'e' || c = 'E') && startsDigit (takeSign s).2

/-- A numeral with the fraction `fr` and the exponent `ex` does not go on into the text. -/
structure Stops (fr ex y : Text) : Prop where
  digit : startsDigit y = false
  fraction : fr = [] → ex = [] → startsFraction y = false
  exponent : ex = [] → startsExponent y = false

section Mark

variable {e : Char} (he : IsExponentMark e)
include he

/-- The mark of an exponent is no digit, so the digits in front of it end there. -/
theorem IsExponentMark.not_isDigit : isDigit e = false := by
  rcases he with rfl | rfl <;> decide

/-- The mark of an exponent is no sign. -/
theorem IsExponentMark.not_isSign : isSign e = false := by
  rcases he with rfl | rfl <;> decide

/-- The mark of an exponent is no point, so it starts no fraction. -/
theorem IsExponentMark.ne_point : e ≠ '.' := by
  rcases he with rfl | rfl <;> decide

/-- The mark of an exponent is a letter. So a numeral in front of it may be a dimension as well, and
which of the two it is depends on the characters behind the mark. -/
theorem IsExponentMark.isNameStart : isNameStart e = true := by
  rcases he with rfl | rfl <;> decide

end Mark

/-- The characters of a numeral: digits, signs, a point, and the mark of an exponent if there is
one. -/
theorem IsNumeral.mem_cases {sg wh fr ex : Text} (h : IsNumeral sg wh fr ex) {d : Char}
    (hd : d ∈ sg ++ (wh ++ (fr ++ ex))) :
    isDigit d = true ∨ isSign d = true ∨ d = '.' ∨ IsExponentMark d ∧ ex ≠ [] := by
  -- used twice, for the sign of the numeral and for that of its exponent
  have hsign {sg : Text} (hsg : IsOptionalSign sg) (hd : d ∈ sg) : isSign d = true := by
    rcases hsg with rfl | ⟨c, hc, rfl⟩
    · cases hd
    · rwa [List.mem_singleton.1 hd]
  simp only [List.mem_append] at hd
  rcases hd with hd | hd | hd | hd
  · exact .inr (.inl (hsign h.sign hd))
  · exact .inl (h.whole d hd)
  · rcases h.fraction with rfl | ⟨ds, rfl, hds⟩
    · cases hd
    · rcases List.mem_cons.1 hd with hpoint | hd
      · exact .inr (.inr (.inl hpoint))
      · exact .inl (hds.2 d hd)
  · rcases h.exponent with rfl | ⟨e, sg', ds, rfl, he, hsg', hds⟩
    · cases hd
    · rcases List.mem_cons.1 hd with rfl | hd
      · exact .inr (.inr (.inr ⟨he, by simp⟩))
      · rcases List.mem_append.1 hd with hd | hd
        · exact .inr (.inl (hsign hsg' hd))
        · exact .inl (hds.2 d hd)

/-! ### What each reader takes -/

/-- A digit is no sign. -/
theorem not_isSign_of_isDigit {c : Char} (hc : isDigit c = true) : isSign c = false := by
  cases hsign : isSign c with
  | false => rfl
  | true => rcases eq_of_isSign hsign with rfl | rfl <;> exact absurd hc (by decide)

/-- No sign is taken where none stands. -/
theorem takeSign_eq_nil {s : Text} (h : ∀ c ∈ s.head?, isSign c = false) :
    takeSign s = ([], s) := by
  cases s with
  | nil => rfl
  | cons c s => simp [takeSign, h c rfl]

/-- No fraction is taken where none starts. -/
theorem takeFraction_eq_nil {s : Text} (h : startsFraction s = false) :
    takeFraction s = ([], s) := by
  cases s with
  | nil => rfl
  | cons c s => simp [takeFraction, h]

/-- No exponent is taken where none starts. `startsExponent` is the test that the reader makes. -/
theorem takeExponent_eq_nil {s : Text} (h : startsExponent s = false) :
    takeExponent s = ([], s) := by
  cases s with
  | nil => rfl
  | cons c s =>
      rw [startsExponent] at h
      simp only [takeExponent, h]
      rfl

/-- Digits are taken whole, and no more, in front of a text that starts with none. -/
theorem takeDigits_eq {ds y : Text} (hds : ∀ c ∈ ds, isDigit c = true)
    (hy : startsDigit y = false) : takeDigits (ds ++ y) = (ds, y) := by
  have hhead : ∀ c ∈ y.head?, isDigit c = false := by
    cases y with
    | nil => simp
    | cons c y =>
        intro d hd
        obtain rfl : c = d := by simpa using hd
        exact hy
  obtain ⟨htake, hdrop⟩ := takeWhile_append_eq hds hhead
  exact Prod.ext htake hdrop

/-- What digits that were taken say about the text behind them: they are all digits, and no digit
follows. -/
theorem of_takeDigits {ds y : Text} (h : takeDigits (ds ++ y) = (ds, y)) :
    (∀ c ∈ ds, isDigit c = true) ∧ startsDigit y = false := by
  obtain ⟨-, hds, hy⟩ := takeWhile_of_dropWhile (Prod.mk.inj h).2
  refine ⟨hds, ?_⟩
  cases y with
  | nil => rfl
  | cons c y => exact hy c rfl

/-- A sign, or none, is taken in front of a text that starts with none. -/
theorem takeSign_eq {sg y : Text} (hsg : IsOptionalSign sg)
    (hy : ∀ c ∈ y.head?, isSign c = false) : takeSign (sg ++ y) = (sg, y) := by
  rcases hsg with rfl | ⟨c, hc, rfl⟩
  · exact takeSign_eq_nil hy
  · simp [takeSign, hc]

/-- What is taken as a sign is one sign or nothing. -/
theorem of_takeSign {sg y : Text} (h : takeSign (sg ++ y) = (sg, y)) : IsOptionalSign sg := by
  cases sg with
  | nil => exact .inl rfl
  | cons c sg =>
      cases hc : isSign c with
      | true =>
          obtain rfl : [] = sg := by simpa [takeSign, hc] using h
          exact .inr ⟨c, hc, rfl⟩
      | false => simp [takeSign, hc] at h

/-- A fraction ends where no digit follows. Where there is none, none starts, although a digit may
follow: the point alone has no part in a numeral. -/
theorem of_takeFraction {fr y : Text} (h : takeFraction (fr ++ y) = (fr, y)) :
    IsOptionalFraction fr ∧ (fr = [] → startsFraction y = false) ∧
      (fr ≠ [] → startsDigit y = false) := by
  cases fr with
  | nil =>
      refine ⟨.inl rfl, fun _ => ?_, fun hne => absurd rfl hne⟩
      cases y with
      | nil => rfl
      | cons c y =>
          cases hf : startsFraction (c :: y) with
          | false => rfl
          | true => simp [takeFraction, hf] at h
  | cons c ds =>
      rw [List.cons_append, takeFraction] at h
      split at h
      · rename_i hf
        -- behind the point the reader of digits has taken `ds`
        have hdigits : takeDigits (ds ++ y) = (ds, y) := by
          obtain ⟨h₁, h₂⟩ := Prod.mk.inj h
          exact Prod.ext (List.cons.inj h₁).2 h₂
        simp only [startsFraction, Bool.and_eq_true, decide_eq_true_eq] at hf
        obtain ⟨rfl, hstart⟩ := hf
        obtain ⟨hds, hstop⟩ := of_takeDigits hdigits
        -- a point is taken only in front of a digit
        have hne : ds ≠ [] := by
          rintro rfl
          rw [List.nil_append, hstop] at hstart
          cases hstart
        exact ⟨.inr ⟨ds, rfl, hne, hds⟩, by simp, fun _ => hstop⟩
      · simp at h

/-- An exponent ends where no digit follows. Where there is none, none starts. The reader looks past
the sign before it takes the mark, so an exponent always has digits. -/
theorem of_takeExponent {ex y : Text} (h : takeExponent (ex ++ y) = (ex, y)) :
    IsOptionalExponent ex ∧ (ex = [] → startsExponent y = false) ∧
      (ex ≠ [] → startsDigit y = false) := by
  cases ex with
  | nil =>
      refine ⟨.inl rfl, fun _ => ?_, fun hne => absurd rfl hne⟩
      cases y with
      | nil => rfl
      | cons c y =>
          cases he : startsExponent (c :: y) with
          | false => rfl
          | true =>
              rw [startsExponent] at he
              simp [takeExponent, he] at h
  | cons e x =>
      simp only [List.cons_append, takeExponent] at h
      split at h
      · rename_i hcond
        -- the exponent behind its mark is what the readers of signs and digits take of it
        obtain ⟨hx, hy⟩ : (takeSign (x ++ y)).1 ++ (takeDigits (takeSign (x ++ y)).2).1 = x ∧
            (takeDigits (takeSign (x ++ y)).2).2 = y := by simpa using h
        have hsplit := takeDigits_append (takeSign (x ++ y)).2
        rw [hy] at hsplit
        have hsign : IsOptionalSign (takeSign (x ++ y)).1 := by
          refine of_takeSign (y := (takeSign (x ++ y)).2) ?_
          rw [takeSign_append]
        have hdigits : takeDigits ((takeDigits (takeSign (x ++ y)).2).1 ++ y) =
            ((takeDigits (takeSign (x ++ y)).2).1, y) := by
          rw [hsplit]
          exact Prod.ext rfl hy
        simp only [Bool.and_eq_true, Bool.or_eq_true, decide_eq_true_eq] at hcond
        obtain ⟨hall, hstop⟩ := of_takeDigits hdigits
        -- the mark is taken only if a digit stands behind the sign
        have hne : (takeDigits (takeSign (x ++ y)).2).1 ≠ [] := by
          intro hnil
          have hstart := hcond.2
          rw [← hsplit, hnil, List.nil_append, hstop] at hstart
          cases hstart
        exact ⟨.inr ⟨e, _, _, by rw [hx], hcond.1, hsign, hne, hall⟩, by simp, fun _ => hstop⟩
      · simp at h

/-! ### Where a number starts -/

/-- A digit, or a point and a digit, start a number without a sign. -/
theorem startsNumber_of_unsigned {s : Text}
    (h : startsDigit s = true ∨ startsFraction s = true) : startsNumber s = true := by
  cases s with
  | nil => simp [startsDigit, startsFraction] at h
  | cons c s =>
      rcases h with hdigit | hfraction
      · have hc : isDigit c = true := hdigit
        simp [startsNumber, hc]
      · simp [startsNumber, hfraction]

/-- The digits or the fraction that a text starts with are taken. So what makes a text start with a
number is inside the numeral. -/
theorem startsNumber_takeDigits {s : Text} (h : startsDigit s = true ∨ startsFraction s = true)
    (ex : Text) :
    startsDigit ((takeDigits s).1 ++ ((takeFraction (takeDigits s).2).1 ++ ex)) = true ∨
      startsFraction ((takeDigits s).1 ++ ((takeFraction (takeDigits s).2).1 ++ ex)) = true := by
  cases s with
  | nil => simp [startsDigit, startsFraction] at h
  | cons c s =>
      cases hc : isDigit c with
      | true => exact .inl (by simp [takeDigits, hc, startsDigit])
      -- without a digit in front there is a point, and the digit behind it is taken with it
      | false =>
          have hf : startsFraction (c :: s) = true := by simpa [startsDigit, hc] using h
          have hdigits : takeDigits (c :: s) = ([], c :: s) := by simp [takeDigits, hc]
          simp only [hdigits, takeFraction, hf, if_true]
          simp only [startsFraction, Bool.and_eq_true] at hf
          cases s with
          | nil => simp [startsDigit] at hf
          | cons d s =>
              have hd : isDigit d = true := hf.2
              exact .inr (by simp [startsFraction, takeDigits, hd, startsDigit, hf.1])

/-- A number starts within its own numeral. Whether a text starts with a number is decided by
characters that the numeral takes, so the numeral by itself starts one too. -/
theorem startsNumber_takeNumeral {s n z : Text} (h : startsNumber s = true)
    (hnz : takeNumeral s = (n, z)) : startsNumber n = true := by
  obtain rfl : (takeNumeral s).1 = n := congrArg Prod.fst hnz
  cases s with
  | nil => cases h
  | cons c s =>
      simp only [startsNumber, Bool.or_eq_true, Bool.and_eq_true] at h
      cases hsign : isSign c with
      | true =>
          -- a sign is no digit and no point, so the number starts behind it
          have hbody : startsDigit s = true ∨ startsFraction s = true := by
            rcases h with (hdigit | hfraction) | ⟨-, hbody⟩
            · simp only [isSign, Bool.or_eq_true, decide_eq_true_eq] at hsign
              rcases hsign with rfl | rfl <;> exact absurd hdigit (by decide)
            · simp only [isSign, Bool.or_eq_true, decide_eq_true_eq] at hsign
              rcases hsign with rfl | rfl <;> simp [startsFraction] at hfraction
            · exact hbody
          have htaken := startsNumber_takeDigits hbody
            (takeExponent (takeFraction (takeDigits s).2).2).1
          simp [takeNumeral, takeSign, hsign, startsNumber, htaken]
      | false =>
          have hbody : startsDigit (c :: s) = true ∨ startsFraction (c :: s) = true := by
            rcases h with h | ⟨h, -⟩
            · exact h
            · simp [hsign] at h
          have htaken := startsNumber_takeDigits hbody
            (takeExponent (takeFraction (takeDigits (c :: s)).2).2).1
          -- without a sign the numeral starts with its digits or its fraction
          have hsame : takeSign (c :: s) = ([], c :: s) := by simp [takeSign, hsign]
          simp only [takeNumeral, hsame, List.nil_append]
          exact startsNumber_of_unsigned htaken

/-- A sign and an exponent alone are no start of a number. This rules out a numeral without digits
in front of its exponent. -/
theorem startsNumber_sign_exponent {sg ex : Text} (hsg : IsOptionalSign sg)
    (hex : IsOptionalExponent ex) : startsNumber (sg ++ ex) = false := by
  have hbody : startsDigit ex = false ∧ startsFraction ex = false := by
    rcases hex with rfl | ⟨e, sg', ds, rfl, he, -⟩
    · exact ⟨rfl, rfl⟩
    · exact ⟨he.not_isDigit, by simp [startsFraction, he.ne_point]⟩
  rcases hsg with rfl | ⟨c, hc, rfl⟩
  · rcases hex with rfl | ⟨e, sg', ds, rfl, he, -⟩
    · rfl
    · simp [startsNumber, he.not_isDigit, he.not_isSign, startsFraction, he.ne_point]
  · have hd : isDigit c = false ∧ c ≠ '.' := by
      rcases eq_of_isSign hc with rfl | rfl <;> decide
    have hpoint : startsFraction (c :: ex) = false := by simp [startsFraction, hd.2]
    simp [startsNumber, hd.1, hpoint, hbody]

/-! ### Whole numerals -/

/-- The four parts of a numeral that was taken, each with the rest behind it. The reader of a
numeral is four readers in a row, and each of them leaves what the next one takes its part from. -/
theorem exists_parts_of_takeNumeral {a y : Text} (h : takeNumeral (a ++ y) = (a, y)) :
    ∃ sg wh fr ex, a = sg ++ (wh ++ (fr ++ ex)) ∧
      takeSign (sg ++ (wh ++ (fr ++ (ex ++ y)))) = (sg, wh ++ (fr ++ (ex ++ y))) ∧
      takeDigits (wh ++ (fr ++ (ex ++ y))) = (wh, fr ++ (ex ++ y)) ∧
      takeFraction (fr ++ (ex ++ y)) = (fr, ex ++ y) ∧ takeExponent (ex ++ y) = (ex, y) := by
  have h₁ := takeSign_append (a ++ y)
  have h₂ := takeDigits_append (takeSign (a ++ y)).2
  have h₃ := takeFraction_append (takeDigits (takeSign (a ++ y)).2).2
  have h₄ := takeExponent_append (takeFraction (takeDigits (takeSign (a ++ y)).2).2).2
  obtain ⟨ha, hy⟩ := Prod.mk.inj h
  -- put together from the back: what each reader was given is its part and the rest
  rw [hy] at h₄
  refine ⟨_, _, _, _, ha.symm, ?_, ?_, ?_, ?_⟩
  · rw [h₄, h₃, h₂, h₁]
  · rw [h₄, h₃, h₂]
  · rw [h₄, h₃]
  · rw [h₄]
    exact Prod.ext rfl hy

/-- The parts of a numeral that was taken, and why it ends. The reasons come from the four readers;
that no digit follows comes from the last part that is there. -/
theorem exists_isNumeral {a y : Text} (h : takeNumeral (a ++ y) = (a, y))
    (ha : startsNumber a = true) :
    ∃ sg wh fr ex, a = sg ++ (wh ++ (fr ++ ex)) ∧ IsNumeral sg wh fr ex ∧ Stops fr ex y := by
  obtain ⟨sg, wh, fr, ex, rfl, hsign, hwhole, hfraction, hexponent⟩ := exists_parts_of_takeNumeral h
  have hsg := of_takeSign hsign
  obtain ⟨hwh, hwstop⟩ := of_takeDigits hwhole
  obtain ⟨hfr, hfnone, hfstop⟩ := of_takeFraction hfraction
  obtain ⟨hex, henone, hestop⟩ := of_takeExponent hexponent
  refine ⟨sg, wh, fr, ex, rfl, ⟨hsg, hwh, hfr, hex, ?_⟩, ?_, ?_, henone⟩
  · -- a numeral without digits and fraction would start no number
    by_cases hw : wh = []
    · refine .inr fun hf => ?_
      rw [hw, hf, List.nil_append, List.nil_append, startsNumber_sign_exponent hsg hex] at ha
      cases ha
    · exact .inl hw
  · -- the last part that is there ended for want of a digit
    by_cases he : ex = []
    · subst he
      by_cases hf : fr = []
      · subst hf
        exact hwstop
      · exact hfstop hf
    · exact hestop he
  · intro hf he
    subst he
    exact hfnone hf

section Parts

variable {sg wh fr ex y : Text}

/-- No digit stands behind the fraction: either the exponent does, which starts with its mark, or
the text that the numeral stops at. -/
theorem Stops.startsDigit_exponent (hy : Stops fr ex y) (hex : IsOptionalExponent ex) :
    startsDigit (ex ++ y) = false := by
  rcases hex with rfl | ⟨e, sg', ds, rfl, he, -⟩
  · exact hy.digit
  · exact he.not_isDigit

/-- The fraction of a numeral is taken whole in front of its exponent and a text that it stops
at. -/
theorem takeFraction_eq (hn : IsNumeral sg wh fr ex) (hy : Stops fr ex y) :
    takeFraction (fr ++ (ex ++ y)) = (fr, ex ++ y) := by
  have hdigit := hy.startsDigit_exponent hn.exponent
  rcases hn.fraction with rfl | ⟨ds, rfl, hds⟩
  · refine takeFraction_eq_nil ?_
    -- no fraction may start in the text or at the mark of the exponent
    rcases hn.exponent with rfl | ⟨e, sg', ds, rfl, he, -⟩
    · exact hy.fraction rfl rfl
    · simp [startsFraction, he.ne_point]
  · obtain ⟨d, ds, rfl⟩ := List.exists_cons_of_ne_nil hds.1
    have hd : startsDigit (d :: ds ++ (ex ++ y)) = true := hds.2 d List.mem_cons_self
    rw [List.cons_append, takeFraction, if_pos (by simpa [startsFraction] using hd),
      takeDigits_eq hds.2 hdigit]

/-- The exponent of a numeral is taken whole in front of a text that the numeral stops at. It ends
with digits, so only a further digit could make it longer. -/
theorem takeExponent_eq (hn : IsNumeral sg wh fr ex) (hy : Stops fr ex y) :
    takeExponent (ex ++ y) = (ex, y) := by
  rcases hn.exponent with rfl | ⟨e, sg', ds, rfl, he, hsg', hds⟩
  · exact takeExponent_eq_nil (hy.exponent rfl)
  · obtain ⟨d, ds, rfl⟩ := List.exists_cons_of_ne_nil hds.1
    have hd : isDigit d = true := hds.2 d List.mem_cons_self
    -- the sign ends in front of a digit
    have hsign : takeSign (sg' ++ (d :: ds ++ y)) = (sg', d :: ds ++ y) := by
      refine takeSign_eq hsg' ?_
      intro c hc
      obtain rfl : d = c := by simpa using hc
      exact not_isSign_of_isDigit hd
    have hmark : (decide (e = 'e') || decide (e = 'E')) = true := by
      rcases he with rfl | rfl <;> rfl
    rw [List.cons_append, List.append_assoc, takeExponent, hsign, takeDigits_eq hds.2 hy.digit,
      if_pos]
    rw [hmark, Bool.true_and]
    exact hd

/-- A numeral is taken whole, and no more, in front of a text that it does not go on into. Each of
the four readers takes its part, because the part behind it starts with something else. -/
theorem IsNumeral.takeNumeral_eq (hn : IsNumeral sg wh fr ex) (hy : Stops fr ex y) :
    takeNumeral (sg ++ (wh ++ (fr ++ ex)) ++ y) = (sg ++ (wh ++ (fr ++ ex)), y) := by
  have hsign : takeSign (sg ++ (wh ++ (fr ++ (ex ++ y)))) = (sg, wh ++ (fr ++ (ex ++ y))) := by
    refine takeSign_eq hn.sign ?_
    intro c hc
    -- behind the sign there is a digit or, if there are none, the point of the fraction
    rcases hwh : wh with _ | ⟨d, wh'⟩
    · rcases hn.fraction with rfl | ⟨ds, rfl, -⟩
      · exact absurd hwh (hn.ne_nil.resolve_right (by simp))
      · obtain rfl : '.' = c := by simpa [hwh] using hc
        decide
    · obtain rfl : d = c := by simpa [hwh] using hc
      exact not_isSign_of_isDigit (hn.whole d (by simp [hwh]))
  have hwhole : takeDigits (wh ++ (fr ++ (ex ++ y))) = (wh, fr ++ (ex ++ y)) := by
    refine takeDigits_eq hn.whole ?_
    rcases hn.fraction with rfl | ⟨ds, rfl, -⟩
    · exact hy.startsDigit_exponent hn.exponent
    · exact (by decide : isDigit '.' = false)
  simp only [List.append_assoc, takeNumeral]
  rw [hsign, hwhole, takeFraction_eq hn hy, takeExponent_eq hn hy]

end Parts

/-- A numeral stays what it is in front of a text that gives it no more reason to go on. What counts
as a reason depends on the parts that the numeral has, so the condition is asked for these parts. -/
theorem takeNumeral_of_stops {n z z' : Text} (h : takeNumeral (n ++ z) = (n, z))
    (hn : startsNumber n = true)
    (hstops : ∀ {sg wh fr ex : Text}, n = sg ++ (wh ++ (fr ++ ex)) → IsNumeral sg wh fr ex →
      Stops fr ex z → Stops fr ex z') : takeNumeral (n ++ z') = (n, z') := by
  obtain ⟨sg, wh, fr, ex, rfl, hparts, hstop⟩ := exists_isNumeral h hn
  exact hparts.takeNumeral_eq (hstops rfl hparts hstop)

/-- A numeral that was taken is made of digits, signs, points and marks of exponents. -/
theorem mem_of_takeNumeral {s n z : Text} (h : takeNumeral s = (n, z))
    (hs : startsNumber s = true) {d : Char} (hd : d ∈ n) :
    isDigit d = true ∨ isSign d = true ∨ d = '.' ∨ IsExponentMark d := by
  have hn := startsNumber_takeNumeral hs h
  rw [← append_of_takeNumeral h] at h
  obtain ⟨sg, wh, fr, ex, rfl, hparts, -⟩ := exists_isNumeral h hn
  exact (hparts.mem_cases hd).imp_right (Or.imp_right (Or.imp_right And.left))

/-- A text that starts with an exponent still does so with more text behind it: the digit that makes
it one is already in the text. -/
theorem startsExponent_append {s : Text} (h : startsExponent s = true) (x : Text) :
    startsExponent (s ++ x) = true := by
  cases s with
  | nil => cases h
  | cons c s =>
      simp only [startsExponent, Bool.and_eq_true] at h
      simp only [List.cons_append, startsExponent, Bool.and_eq_true]
      refine ⟨h.1, ?_⟩
      cases s with
      | nil => cases h.2
      | cons d t =>
          have hdigit := h.2
          -- the digit that is looked for stands behind the sign, if there is one
          rw [List.cons_append, takeSign]
          rw [takeSign] at hdigit
          split
          · rename_i hsign
            rw [if_pos hsign] at hdigit
            exact startsDigit_append hdigit x
          · rename_i hsign
            rw [if_neg hsign] at hdigit
            exact hdigit

end CssHints.Token
