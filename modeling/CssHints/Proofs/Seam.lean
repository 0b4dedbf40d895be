import CssHints.Proofs.Boundary

/-!
# `CssHints.Proofs.Seam`: a text alone and in front of a sign

`CssHints.Proofs.Boundary` says that the pieces of a text stay as they are when a separator is put
behind it. This module goes the other way. A text stands in front of a sign, that is a separator
that is neither a blank nor a quote, and one piece ends where the text ends.

* `next_of_append_separator`: a piece that ends before the sign does not depend on it. A lexeme
  sees no more in the text alone than in front of the sign (`ShowsNoMore.left`), since the sign is
  no quote and so keeps no `url` and bracket apart.
* `cut_of_append_separator`: the pieces up to the seam are those of the text alone, and the text
  does not dangle.
-/

set_option autoImplicit false

namespace CssHints.Token

open Text (isDigit)

section Seam

variable {d : Char}

/-- A sign that is no quote makes no quoted argument: whether a quote comes first, behind blanks, is
the same with and without the sign. -/
theorem startsQuoted_append_sign (hblank : isBlank d = false) (hquote : isQuote d = false)
    (r b : Text) : startsQuoted (r ++ d :: b) = startsQuoted r := by
  by_cases hr : r.dropWhile isBlank = []
  · rw [startsQuoted, startsQuoted, dropWhile_append_of_stop hblank, hr]
    exact hquote
  · exact startsQuoted_append (d :: b) hr

/-- A lexeme that ends before a sign does not depend on the sign. The text alone shows the lexeme no
more than the text with the sign, so this is an instance of `next_of_showsNoMore`. -/
theorem next_lexeme_of_append_separator (hblank : isBlank d = false) (hquote : isQuote d = false)
    {c : Char} {s b v rest : Text} {k : Kind}
    (h : next c (s ++ d :: b) = .ok (.lexeme k v, rest ++ d :: b)) :
    next c s = .ok (.lexeme k v, rest) := by
  obtain ⟨a, rfl, hs⟩ := exists_cons_of_next h
  rw [← List.append_assoc] at hs
  obtain rfl : s = a ++ rest := List.append_cancel_right hs
  rw [List.append_assoc] at h
  refine next_of_showsNoMore h (.left fun r _ hplain => ?_)
  rw [startsQuoted_append_sign hblank hquote, hplain]

/-- A piece that ends before a sign does not depend on the sign. -/
theorem next_of_append_separator (hd : isSeparator d = true) (hblank : isBlank d = false)
    (hquote : isQuote d = false) {c : Char} {s b rest : Text} {p : Piece}
    (h : next c (s ++ d :: b) = .ok (p, rest ++ d :: b)) : next c s = .ok (p, rest) := by
  cases p with
  | blanks w =>
      obtain ⟨hc, rfl, hrest⟩ := of_next_blanks h
      rw [dropWhile_append_of_stop hblank] at hrest
      rw [next_of_isBlank hc, takeWhile_append_of_stop hblank, List.append_cancel_right hrest]
  | comment w =>
      obtain ⟨rfl, t, body, hs, rfl, hbody⟩ := of_next_comment h
      -- the star of the opening mark belongs to the text, since the sign is no star
      obtain ⟨s, rfl⟩ := List.head?_eq_some_iff.1
        ((head?_append_ne (ne_of_separator hd).2.2.1 s b).1 (by rw [hs]; rfl))
      obtain rfl : s ++ d :: b = t := (List.cons.inj hs).2
      exact next_of_takeComment (takeComment_of_append hbody)
  | lexeme k v => exact next_lexeme_of_append_separator hblank hquote h

/-- A backslash and the sign behind it are never two pieces. The two are an escape, so a name starts
there and takes both. -/
theorem next_lone_ne (hline : d ≠ '\n') (b : Text) (p : Piece) :
    next '\\' (d :: b) ≠ .ok (p, d :: b) := by
  intro h
  have hident : startsIdent ('\\' :: d :: b) = true := by
    simp [startsIdent, startsEscape, hline]
  have hnumber : startsNumber ('\\' :: d :: b) = false := by
    have hdigit : isDigit '\\' = false := by decide
    simp [startsNumber, startsFraction, isSign, hdigit]
  rw [next_of_startsIdent hnumber hident] at h
  obtain ⟨k, v, rfl⟩ := exists_lexeme_of_readWord h
  obtain ⟨n, x, hname⟩ := exists_takeName_of_readWord h
  -- the name takes the escape, which is longer than what the piece took
  have hlen := congrArg List.length (append_of_takeName hname)
  rw [takeName_escape hline] at hname
  obtain ⟨rfl, -⟩ := Prod.mk.inj hname
  simp only [List.length_append, List.length_cons] at hlen
  omega

/-- If the pieces of a text and a sign behind it have a seam before the sign, then the pieces up to
the seam are those of the text alone, and the text does not dangle. The induction is on these
pieces. A backslash at the end of the text would have made an escape of the sign, and then there
would be no seam. -/
theorem cut_of_append_separator (hd : isSeparator d = true) (hblank : isBlank d = false)
    (hquote : isQuote d = false) {a b : Text} {ps qs : List Piece}
    (h : (cut (a ++ d :: b)).pieces = ps ++ qs) (hps : ps.flatMap Piece.text = a) :
    cut a = ⟨ps, none⟩ ∧ ¬Dangling a := by
  have hline : d ≠ '\n' := by
    rintro rfl
    exact absurd hblank (by decide)
  induction ps generalizing a with
  | nil =>
      subst hps
      rw [Dangling, List.flatMap_nil, cut_nil]
      simp
  | cons p ps ih =>
      rw [List.flatMap_cons] at hps
      obtain ⟨e, t, he⟩ : ∃ e t, a ++ d :: b = e :: t := by
        cases a with
        | nil => exact ⟨d, b, rfl⟩
        | cons c s => exact ⟨c, s ++ d :: b, rfl⟩
      rw [he] at h
      cases hnext : next e t with
      | error f =>
          rw [cut, hnext] at h
          cases h
      | ok q =>
          obtain ⟨q, r⟩ := q
          rw [cut_cons_of_next hnext, List.cons_append] at h
          obtain ⟨rfl, hrest⟩ : q = p ∧ (cut r).pieces = ps ++ qs := by simpa using h
          -- the piece is a front part of the text, so the rest of the text is still there
          have hr : r = ps.flatMap Piece.text ++ d :: b := by
            have happ := next_append hnext
            rw [← he, ← hps, List.append_assoc] at happ
            exact List.append_cancel_left happ
          rw [hr] at hrest hnext
          obtain ⟨hcut, hdangling⟩ := ih hrest rfl
          obtain ⟨c, s, hcs⟩ := List.exists_cons_of_ne_nil
            (show a ≠ [] by rw [← hps]; simp [next_text_ne_nil hnext])
          rw [hcs, List.cons_append, List.cons.injEq] at he
          obtain ⟨rfl, rfl⟩ := he
          have hpiece := next_of_append_separator hd hblank hquote hnext
          have hwhole := cut_cons_of_next hpiece
          rw [hcut] at hwhole
          rw [hcs]
          refine ⟨hwhole, ?_⟩
          intro hbad
          rw [Dangling, hwhole] at hbad
          cases ps with
          | nil =>
              obtain rfl : q = .lexeme .delim ['\\'] := by simpa using hbad
              have ha : c :: s = ['\\'] := by
                rw [← hcs, ← hps]
                rfl
              obtain ⟨rfl, rfl⟩ : c = '\\' ∧ s = [] := by simpa using ha
              exact next_lone_ne hline b _ hnext
          | cons p' ps =>
              refine hdangling ?_
              rw [Dangling, hcut, ← hbad, List.getLast?_cons_cons]

end Seam

end CssHints.Token
