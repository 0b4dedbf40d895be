import CssHints.Proofs.Cover
import CssHints.Proofs.Stretch

/-!
# `CssHints.Proofs.Rejoining`: the tokens of the texts of tokens

The texts of the tokens of a source, one after the other, are the source without its comments. Where
a token would run into the next one, a space stands for the comment between them; but the tokenizer
looks for that only behind names and numbers. `Merges` lists the pairs of tokens for which it does
not: a sign in front of a number or a name, a slash in front of a star, the name `url` in front of a
bracket, and a dimension with the unit `e` in front of a number with a plus sign.

`tokenize_concat_iff` is the exact statement, for sources without a backslash: the texts read back
as the same tokens just if no two neighbours merge, and two neighbours that merge have only comments
between them in the source.

The argument goes along the tokens of a source with the text that each was read from (`Drawn`).
What a token runs into in the joined text, it runs into in its next neighbour, or the neighbour
merges with the one behind it (`merges_of_runsInto`).
-/

set_option autoImplicit false

namespace CssHints.Token

open Text (isDigit startsDigit)

/-- The two tokens read otherwise side by side than apart. The text behind them is `rest`. -/
inductive Merges (t u : Token) (rest : Text) : Prop
  /-- A slash and a star open a comment. -/
  | comment : t.kind = .delim → t.value = ['/'] → u.value.head? = some '*' → Merges t u rest
  /-- A point or a sign starts a number. -/
  | number {c : Char} : t.kind = .delim → t.value = [c] → c = '.' ∨ isSign c = true →
      startsNumber (c :: u.value) = true → Merges t u rest
  /-- A hyphen starts a name. -/
  | hyphen : t.kind = .delim → t.value = ['-'] → startsIdent ('-' :: u.value) = true →
      Merges t u rest
  | keyword : t.kind = .delim → t.value = ['@'] → startsIdent u.value = true → Merges t u rest
  | hash : t.kind = .delim → t.value = ['#'] → startsName u.value = true → Merges t u rest
  /-- A name and a bracket open a `url(...)`. -/
  | url : t.kind = .ident → Text.lower t.value = "url".toList → u.value = ['('] →
      startsQuoted rest = false → Merges t u rest
  /-- A unit becomes the mark of an exponent. -/
  | exponent : t.kind = .dimension → CompletesExponent t.value u.value → Merges t u rest

/-- Of two tokens that merge the first runs into the second, also with a further text behind, as
long as no quote comes into sight there that was not in sight before. -/
theorem Merges.runsInto {t u : Token} {rest x : Text} (h : Merges t u rest)
    (hquote : startsQuoted x = true → startsQuoted rest = true) :
    RunsInto t.kind t.value (u.value ++ x) := by
  cases h with
  | comment hk hv hstar =>
      rw [hk, hv]
      exact .inl ⟨rfl, by simp [List.head?_append, hstar]⟩
  | @number c hk hv _ hnumber =>
      rw [hk, hv]
      exact .inr (.inl (startsNumber_append hnumber x))
  | hyphen hk hv hident =>
      rw [hk, hv]
      exact .inr (.inr (.inl (startsIdent_append hident x)))
  | keyword hk hv hident =>
      rw [hk, hv]
      exact .inr (.inr (.inr (.inl ⟨rfl, startsIdent_append hident x⟩)))
  | hash hk hv hname =>
      rw [hk, hv]
      exact .inr (.inr (.inr (.inr ⟨rfl, startsName_append hname x⟩)))
  -- the quote that would keep the two apart is not in sight of the tokens, so it is not in sight of
  -- `x`
  | url hk hlower hu hrest =>
      rw [hk, hu]
      refine .inr ⟨hlower, x, rfl, ?_⟩
      cases hx : startsQuoted x with
      | false => rfl
      | true =>
          rw [hquote hx] at hrest
          cases hrest
  | exponent hk hcomplete =>
      obtain ⟨n, e, r, hv, hn, he, hu, hr⟩ := hcomplete
      rw [hk]
      exact .inr ⟨n, e, r ++ x, hv, hn, he, by rw [hu]; rfl, startsDigit_append hr x⟩

/-- A space merges with nothing behind it. -/
theorem Merges.kind_left {t u : Token} {rest : Text} (h : Merges t u rest) :
    t.kind ≠ .whitespace := by
  cases h with
  | comment hk | number hk | hyphen hk | keyword hk | hash hk | url hk | exponent hk => simp [hk]

/-- A space and the end of a source merge with nothing in front of them, since all ways to merge ask
for a first character that is no blank. -/
theorem Merges.value_right {t u : Token} {rest : Text} (h : Merges t u rest) :
    u.value ≠ [' '] ∧ u.value ≠ [] := by
  constructor <;> intro hu <;> cases h with
  | comment _ _ hstar => simp [hu] at hstar
  | number _ _ hc hnumber =>
      rw [hu] at hnumber
      rcases hc with rfl | hc
      · exact absurd hnumber (by decide)
      · rcases eq_of_isSign hc with rfl | rfl <;> exact absurd hnumber (by decide)
  | hyphen _ _ hident =>
      rw [hu] at hident
      exact absurd hident (by decide)
  | keyword _ _ hident =>
      rw [hu] at hident
      exact absurd hident (by decide)
  | hash _ _ hname =>
      rw [hu] at hname
      exact absurd hname (by decide)
  | url _ _ hparen _ => simp [hu] at hparen
  | exponent _ hcomplete =>
      obtain ⟨_, _, _, _, _, _, hplus, _⟩ := hcomplete
      simp [hu] at hplus

/-! ### The tokens of a text, with what they were read from -/

/-- The tokens of a text that stands at `loc`, behind a token of class `last`. -/
structure Drawn (last : Option Kind) (loc : Location) (s : Text) (ts : List Token) : Prop where
  stuck : (cut s).stuck = none
  slash : '\\' ∉ s
  tokens : ofPieces last loc (cut s).pieces = ts

/-- The token was read in front of the text. -/
def ReadBefore (t : Token) (rest : Text) : Prop :=
  ∃ c a, t.value = c :: a ∧ next c (a ++ rest) = .ok (.lexeme t.kind (c :: a), rest)

/-- What stands between a token of class `last` and the token `u` in the source leaves no space. -/
def LeavesNothing (last : Option Kind) (gap : Text) (u : Token) : Prop :=
  gap = [] ∨ last = some .whitespace ∨
    ['/', '*'] <+: gap ∧ joins last [.lexeme u.kind u.value] = false

/-- Whether a comment leaves a gap is decided by the next piece only. -/
theorem joins_cons (last : Option Kind) (p : Piece) (ps : List Piece) :
    joins last (p :: ps) = joins last [p] := by
  cases last <;> rfl

/-- A comment behind a number leaves no space just if no point, percent sign or name follows it,
which would go on with the number. -/
theorem joins_number {p : Piece} : joins (some .number) [p] = false ↔
    p.text.head? ≠ some '.' ∧ p.text.head? ≠ some '%' ∧ startsName p.text = false := by
  simp [joins, Kind.isWord, and_assoc]

section Drawing

variable {last : Option Kind} {loc : Location} {s : Text} {t u : Token} {ts us : List Token}

/-- The first token of a text is a space, or a lexeme behind comments that leave nothing. The
induction goes over the pieces in front of that token. -/
theorem Drawn.cases (h : Drawn last loc s (u :: us)) :
    (u.kind = .whitespace ∧ u.value = [' '] ∧ last ≠ some .whitespace ∧
      ∃ loc' rest, Drawn (some .whitespace) loc' rest us) ∨
    ∃ gap rest, s = gap ++ (u.value ++ rest) ∧ u.loc = loc.after gap ∧ ReadBefore u rest ∧
      LeavesNothing last gap u ∧ Drawn (some u.kind) (u.loc.after u.value) rest us := by
  obtain ⟨hstuck, hslash, htokens⟩ := h
  fun_induction cut s generalizing loc with
  | case1 => cases htokens
  | case2 c s f hf => cases htokens
  | case3 c s p rest hnext ih =>
      have happ := next_append hnext
      have hslash' : '\\' ∉ rest := fun hm => hslash (happ ▸ List.mem_append_right _ hm)
      cases p with
      | blanks w =>
          rw [ofPieces] at htokens
          split at htokens
          · -- behind a space these blanks leave nothing, and are part of what stands before the
            -- token
            rename_i hlast
            rcases ih hstuck hslash' htokens with ⟨-, -, hne, -⟩ |
              ⟨gap, rest', rfl, hloc, hread, -, hdrawn⟩
            · exact absurd hlast hne
            · refine .inr ⟨w ++ gap, rest', ?_, by simpa using hloc, hread, .inr (.inl hlast),
                hdrawn⟩
              simpa [Piece.text] using happ.symm
          · rename_i hlast
            obtain ⟨rfl, rfl⟩ := List.cons.inj htokens
            exact .inl ⟨rfl, rfl, hlast, _, rest, hstuck, hslash', rfl⟩
      | comment w =>
          rw [ofPieces] at htokens
          split at htokens
          · rename_i hjoins
            obtain ⟨rfl, rfl⟩ := List.cons.inj htokens
            refine .inl ⟨rfl, rfl, ?_, _, rest, hstuck, hslash', rfl⟩
            rintro rfl
            cases hcut : (cut rest).pieces <;> rw [hcut] at hjoins <;> cases hjoins
          · rename_i hjoins
            rcases ih hstuck hslash' htokens with hspace |
              ⟨gap, rest', rfl, hloc, hread, hgap, hdrawn⟩
            · exact .inl hspace
            · refine .inr ⟨w ++ gap, rest', by simpa [Piece.text] using happ.symm,
                by simpa using hloc, hread, ?_, hdrawn⟩
              obtain ⟨body, hw, -⟩ := isComment_of_next hnext
              have hmarks : ['/', '*'] <+: w ++ gap := by
                rw [hw]
                simp
              rcases hgap with rfl | hlast | ⟨-, hfree⟩
              · -- the lexeme is the piece that was looked at
                obtain ⟨d, a, hv, hnext'⟩ := hread
                rw [List.nil_append, hv, List.cons_append, cut_cons_of_next hnext',
                  ← hv] at hjoins
                rw [joins_cons, Bool.not_eq_true] at hjoins
                exact .inr (.inr ⟨hmarks, hjoins⟩)
              · exact .inr (.inl hlast)
              · exact .inr (.inr ⟨hmarks, hfree⟩)
      | lexeme k v =>
          rw [ofPieces] at htokens
          obtain ⟨rfl, rfl⟩ := List.cons.inj htokens
          obtain ⟨d, a, rfl⟩ := List.exists_cons_of_ne_nil
            (show v ≠ [] from next_text_ne_nil hnext)
          obtain ⟨rfl, rfl⟩ : d = c ∧ a ++ rest = s := by simpa [Piece.text] using happ
          exact .inr ⟨[], rest, rfl, rfl, ⟨d, a, rfl, hnext⟩, .inl rfl, hstuck, hslash', rfl⟩

/-- The further tokens are tokens of a further text. -/
theorem Drawn.append {xs : List Token} (h : Drawn last loc s (xs ++ ts)) :
    ∃ last' loc' s', Drawn last' loc' s' ts := by
  induction xs generalizing last loc s with
  | nil => exact ⟨last, loc, s, h⟩
  | cons x xs ih =>
      rcases h.cases with ⟨-, -, -, loc', rest, hrest⟩ | ⟨gap, rest, -, -, -, -, hrest⟩
      · exact ih hrest
      · exact ih hrest

/-- Tokens bring in no backslash that was not in their pieces: the space that stands for a gap has
none. -/
theorem not_mem_concat {ps : List Piece} (h : '\\' ∉ ps.flatMap Piece.text) (last : Option Kind)
    (loc : Location) : '\\' ∉ concat (ofPieces last loc ps) := by
  have hspace : ∀ l, '\\' ∉ (space l).value := fun l => by simp [space]
  induction ps generalizing last loc with
  | nil => simp [ofPieces, concat]
  | cons p ps ih =>
      rw [List.flatMap_cons, List.mem_append, not_or] at h
      -- a space has no backslash, and a lexeme has none that the pieces do not have
      have hcons : ∀ (t : Token) (last : Option Kind) (loc : Location), '\\' ∉ t.value →
          '\\' ∉ concat (t :: ofPieces last loc ps) := by
        intro t last loc ht
        rw [concat, List.flatMap_cons, List.mem_append, not_or]
        exact ⟨ht, ih h.2 last loc⟩
      cases p with
      | blanks w =>
          rw [ofPieces]
          split
          · exact ih h.2 _ _
          · exact hcons _ _ _ (hspace loc)
      | comment w =>
          rw [ofPieces]
          split
          · exact hcons _ _ _ (hspace loc)
          · exact ih h.2 _ _
      | lexeme k v =>
          rw [ofPieces]
          exact hcons _ _ _ h.1

/-- The texts of the tokens of a source without a backslash have none. -/
theorem Drawn.slash_concat (h : Drawn last loc s ts) : '\\' ∉ concat ts := by
  obtain ⟨hstuck, hslash, rfl⟩ := h
  have happ := cut_append s
  rw [hstuck] at happ
  refine not_mem_concat ?_ last loc
  rw [← happ] at hslash
  simpa using hslash

end Drawing

section Reading

variable {t u : Token} {rest x : Text}

/-- A lexeme has a text. -/
theorem ReadBefore.ne_nil (h : ReadBefore t rest) : t.value ≠ [] := by
  obtain ⟨c, a, hv, -⟩ := h
  rw [hv]
  simp

/-- A lexeme does not run into the text that it was read in front of. -/
theorem ReadBefore.not_runsInto (h : ReadBefore t rest) : ¬RunsInto t.kind t.value rest := by
  obtain ⟨c, a, hv, hnext⟩ := h
  rw [hv]
  exact not_runsInto_of_next hnext

/-- A lexeme runs into no text that starts with a blank, and not into the end of a text. So only
neighbours that are no gaps can merge. -/
theorem ReadBefore.not_runsInto_space (h : ReadBefore t rest) (hs : '\\' ∉ t.value)
    (hblank : x = [] ∨ ∃ y, x = ' ' :: y) : ¬RunsInto t.kind t.value x := by
  obtain ⟨c, a, hv, hnext⟩ := h
  have halone := next_alone hnext
  rw [hv] at hs ⊢
  rcases hblank with rfl | ⟨y, rfl⟩
  · exact not_runsInto_of_next halone
  · have hend : c :: a ≠ ['\\'] := fun he => hs (by simp [he])
    exact not_runsInto_of_next (next_lexeme_append_separator (d := ' ') (by decide) y halone hend
      (by simp) (by simp))

/-- A point or a sign that is a lexeme is one for itself, and belongs to no number and no name. -/
theorem ReadBefore.kind_of_lone {c : Char} (h : ReadBefore t rest) (hv : t.value = [c])
    (hc : c = '.' ∨ c = '+' ∨ c = '-') : t.kind = .delim := by
  obtain ⟨d, a, hv', hnext⟩ := h
  obtain ⟨rfl, rfl⟩ : d = c ∧ a = [] := by simpa using hv'.symm.trans hv
  rcases next_lexeme_cases hnext with ⟨hquote, -⟩ | ⟨hstart, hread⟩ | ⟨-, hstart, hread⟩ |
    ⟨-, hread⟩
  · rcases hc with rfl | rfl | rfl <;> exact absurd hquote (by decide)
  · -- a single point or sign passes neither of the two tests on its own
    have hnumber : startsNumber ([d] ++ []) = true :=
      startsNumber_of_readNumber (show readNumber ([d] ++ rest) = _ from hread) hstart []
    rcases hc with rfl | rfl | rfl <;> exact absurd hnumber (by decide)
  · have hident : startsIdent ([d] ++ []) = true :=
      startsIdent_of_readWord (show readWord ([d] ++ rest) = _ from hread) hstart []
    rcases hc with rfl | rfl | rfl <;> exact absurd hident (by decide)
  · rcases readSign_cases hread with ⟨-, hd, -⟩ | ⟨-, hd, -⟩ | ⟨hk, -⟩
    · rcases hc with rfl | rfl | rfl <;> exact absurd hd (by decide)
    · rcases hc with rfl | rfl | rfl <;> exact absurd hd (by decide)
    · rw [hk]
      rcases hc with rfl | rfl | rfl <;> rfl

/-- A lexeme is neither a gap nor the end of the source. -/
theorem ReadBefore.kind_ne (h : ReadBefore t rest) : t.kind ≠ .whitespace ∧ t.kind ≠ .eof := by
  obtain ⟨c, a, -, hnext⟩ := h
  refine kind_of_mem_cut (s := c :: (a ++ rest)) (t := c :: a) ?_
  rw [cut_cons_of_next hnext]
  exact List.mem_cons_self

/-- A number passes the test for a number by itself. -/
theorem ReadBefore.starts_of_number (h : ReadBefore t rest) (hk : t.kind = .number) :
    startsNumber t.value = true := by
  obtain ⟨c, a, hv, hnext⟩ := h
  rw [hk] at hnext
  rw [hv]
  exact startsNumber_of_next hnext

/-- A sign is a single character that starts neither a number nor a name. -/
theorem ReadBefore.exists_sign (h : ReadBefore t rest) (hk : t.kind = .delim) :
    ∃ c, t.value = [c] ∧ isDigit c = false ∧ isNameStart c = false := by
  obtain ⟨c, a, hv, hnext⟩ := h
  rw [hk] at hnext
  rcases next_lexeme_cases hnext with ⟨-, hkind, -⟩ | ⟨-, hread⟩ | ⟨-, -, hread⟩ | ⟨hsign, hread⟩
  · cases hkind
  · obtain ⟨_, _, -, ⟨hkind, -⟩ | ⟨hkind, -⟩ | ⟨hkind, -⟩⟩ := readNumber_cases hread <;> cases hkind
  · rcases readWord_cases hread with ⟨hkind, -⟩ | ⟨hkind, -⟩ <;> cases hkind
  · rcases readSign_cases hread with ⟨hkind, -⟩ | ⟨hkind, -⟩ | ⟨-, hlone, -⟩
    · cases hkind
    · cases hkind
    · refine ⟨c, hv.trans hlone, ?_, ?_⟩
      · have hnumber := hsign.number
        simp only [startsNumber, Bool.or_eq_false_iff] at hnumber
        exact hnumber.1.1
      · have hident := hsign.ident
        simp only [startsIdent, Bool.or_eq_false_iff] at hident
        exact hident.1.1

/-- A bracket is a lexeme of its own. -/
theorem ReadBefore.eq_lparen {b : Text} (h : ReadBefore t rest) (hv : t.value = '(' :: b) :
    b = [] := by
  obtain ⟨c, a, hv', hnext⟩ := h
  obtain ⟨rfl, rfl⟩ : '(' = c ∧ b = a := by simpa using hv.symm.trans hv'
  rw [next_lparen] at hnext
  simpa using congrArg List.length (Prod.mk.inj (Except.ok.inj hnext)).2

end Reading

/-! ### The tests on a lexeme and the text behind it -/

section Tests

variable {v x : Text}

/-- Whether a lexeme starts as a name goes on is decided by the lexeme alone. -/
theorem startsName_append_eq (hv : v ≠ []) (hs : '\\' ∉ v ++ x) :
    startsName (v ++ x) = startsName v := by
  obtain ⟨c, v, rfl⟩ := List.exists_cons_of_ne_nil hv
  rw [startsName_eq hs, startsName_eq fun hm => hs (List.mem_append_left _ hm)]
  rfl

/-- A lexeme starts a fraction by itself, or it is a point with a digit behind it. -/
theorem startsFraction_append_cases (hv : v ≠ []) (h : startsFraction (v ++ x) = true) :
    startsFraction v = true ∨ v = ['.'] ∧ startsDigit x = true := by
  match v, hv with
  | [c], _ =>
      simp only [List.cons_append, List.nil_append, startsFraction, Bool.and_eq_true,
        decide_eq_true_eq] at h
      exact .inr ⟨by rw [h.1], h.2⟩
  | c :: d :: v, _ => exact .inl h

/-- A lexeme starts an identifier by itself, or it is a hyphen that starts one with what follows. -/
theorem startsIdent_append_cases (hv : v ≠ []) (hs : '\\' ∉ v ++ x)
    (h : startsIdent (v ++ x) = true) :
    startsIdent v = true ∨ v = ['-'] ∧ startsIdent ('-' :: x) = true := by
  have hslash : '\\' ∉ v := fun hm => hs (List.mem_append_left _ hm)
  match v, hv with
  | [c], _ =>
      by_cases hc : c = '-'
      · subst hc
        exact .inr ⟨rfl, h⟩
      · rw [startsIdent_eq hs] at h
        rw [startsIdent_eq hslash]
        simpa [hc] using h
  | c :: d :: v, _ =>
      rw [startsIdent_eq hs] at h
      rw [startsIdent_eq hslash]
      exact .inl h

end Tests

/-! ### Neighbours -/

section Neighbours

variable {t u : Token} {loc : Location} {y rest gap : Text} {us ys : List Token}

/-- A lone point, sign or hyphen merges with what it runs into. What decides is the first character
of the next token, or the hyphen with it, and that character is the same in the joined text. -/
theorem exists_merges_of_lone {c : Char} (hu : ReadBefore u rest) (hv : u.value = [c])
    (hc : c = '.' ∨ c = '+' ∨ c = '-') {last : Option Kind} (hys : Drawn last loc rest ys)
    (h : startsDigit (concat ys) = true ∨ c = '-' ∧ startsIdent ('-' :: concat ys) = true) :
    ∃ w zs, ys = w :: zs ∧ Merges u w (concat zs) := by
  have hk := hu.kind_of_lone hv hc
  have hslash := hys.slash_concat
  cases ys with
  | nil =>
      rcases h with h | ⟨-, h⟩
      · cases h
      · exact absurd h (by decide)
  | cons w zs =>
      refine ⟨w, zs, rfl, ?_⟩
      -- the next token has a text, so its first character is that of the joined text
      obtain ⟨d, b, hw⟩ : ∃ d b, w.value = d :: b := by
        rcases hys.cases with ⟨-, hw, -⟩ | ⟨-, -, -, -, ⟨d, b, hw, -⟩, -⟩
        · exact ⟨' ', [], hw⟩
        · exact ⟨d, b, hw⟩
      have hconcat : concat (w :: zs) = d :: (b ++ concat zs) := by simp [concat, hw]
      rw [hconcat] at h hslash
      rcases h with hdigit | ⟨rfl, hident⟩
      · have hd : isDigit d = true := hdigit
        refine .number hk hv ?_ ?_
        · rcases hc with rfl | rfl | rfl
          · exact .inl rfl
          · exact .inr rfl
          · exact .inr rfl
        · rw [hw]
          rcases hc with rfl | rfl | rfl <;>
            simp [startsNumber, startsFraction, startsDigit, isSign, hd]
      · refine .hyphen hk hv ?_
        have hslash₁ : '\\' ∉ '-' :: d :: (b ++ concat zs) := by simpa using hslash
        have hslash₂ : '\\' ∉ '-' :: d :: b := by
          intro hm
          refine hslash₁ ?_
          rw [← List.cons_append, ← List.cons_append]
          exact List.mem_append_left _ hm
        rw [startsIdent_eq hslash₁] at hident
        rw [hw, startsIdent_eq hslash₂]
        exact hident

/-- What a name or a number with a unit is followed by is no part of a name: it would have been
taken in, or a space would stand for the comment between the two. -/
theorem not_startsName_of_leavesNothing (ht : ReadBefore t (gap ++ (u.value ++ rest)))
    (hs : '\\' ∉ t.value ++ (gap ++ (u.value ++ rest))) (hu : u.value ≠ [])
    (hgap : LeavesNothing (some t.kind) gap u) (hword : t.kind.isWord = true)
    (hruns : ∀ z, startsName z = true → RunsInto t.kind t.value z) :
    startsName u.value = false := by
  rcases hgap with rfl | hlast | ⟨-, hjoins⟩
  · -- the two touch in the source
    rw [List.nil_append] at ht hs
    have hslash : '\\' ∉ u.value ++ rest := fun hm => hs (List.mem_append_right _ hm)
    cases hname : startsName u.value with
    | false => rfl
    | true =>
        rw [← startsName_append_eq hu hslash] at hname
        exact absurd (hruns _ hname) ht.not_runsInto
  · exact absurd (Option.some.inj hlast) ht.kind_ne.1
  · simp only [joins, hword, Bool.true_and, Bool.or_eq_false_iff] at hjoins
    exact hjoins.2

/-- What stands behind a number does not go on with it: neither as an identifier or a percent sign,
nor as a digit or a fraction where the numeral could take one. -/
theorem quiet_of_leavesNothing (ht : ReadBefore t (gap ++ (u.value ++ rest)))
    (hs : '\\' ∉ t.value ++ (gap ++ (u.value ++ rest))) (hk : t.kind = .number)
    (hu : u.value ≠ []) (hgap : LeavesNothing (some t.kind) gap u) :
    startsIdent u.value = false ∧ u.value.head? ≠ some '%' ∧
      ∃ sg wh fr ex, t.value = sg ++ (wh ++ (fr ++ ex)) ∧ IsNumeral sg wh fr ex ∧
        startsDigit u.value = false ∧ (fr = [] → ex = [] → startsFraction u.value = false) := by
  have hstart := ht.starts_of_number hk
  have hslash : '\\' ∉ u.value := by
    intro hm
    refine hs (List.mem_append_right _ (List.mem_append_right _ (List.mem_append_left _ hm)))
  have hnot := ht.not_runsInto
  rw [hk, RunsInto, not_or, not_or, Decidable.not_not, Bool.not_eq_true] at hnot
  obtain ⟨hnumeral, hpercent, hident⟩ := hnot
  obtain ⟨sg, wh, fr, ex, hparts, hn, hstop⟩ := exists_isNumeral hnumeral hstart
  obtain ⟨d, b, hb⟩ := List.exists_cons_of_ne_nil hu
  rcases hgap with rfl | hlast | ⟨-, hjoins⟩
  · -- the two touch in the source, where the number ended
    rw [List.nil_append] at hpercent hident hstop
    refine ⟨?_, ?_, sg, wh, fr, ex, hparts, hn, ?_, ?_⟩
    · cases hi : startsIdent u.value with
      | false => rfl
      | true =>
          rw [startsIdent_append hi rest] at hident
          cases hident
    · simpa [hb] using hpercent
    · have hdigit := hstop.digit
      rw [hb] at hdigit ⊢
      exact hdigit
    · intro hfr hex
      cases hf : startsFraction u.value with
      | false => rfl
      | true =>
          have hfraction := hstop.fraction hfr hex
          rw [startsFraction_append hf rest] at hfraction
          cases hfraction
  · exact absurd (Option.some.inj hlast) ht.kind_ne.1
  · -- a comment stood between them, and left nothing
    rw [hk, joins_number] at hjoins
    obtain ⟨hpoint, hpercent', hname⟩ := hjoins
    refine ⟨?_, hpercent', sg, wh, fr, ex, hparts, hn, ?_, fun _ _ => ?_⟩
    · cases hi : startsIdent u.value with
      | false => rfl
      | true => exact absurd (startsName_of_startsIdent hi) (by simpa [Piece.text] using hname)
    · rw [Piece.text, startsName_eq hslash, hb] at hname
      rw [hb]
      cases hd : isDigit d with
      | false => exact hd
      | true => exact absurd (isNameChar_of_isDigit hd) (by simpa using hname)
    · rw [Piece.text, hb] at hpoint
      rw [hb]
      simp [startsFraction, show d ≠ '.' by simpa using hpoint]

/-- A number runs into a neighbour only if that one merges with the one behind it: the neighbour is
then a lone point or hyphen, and the number goes on through it. -/
theorem exists_merges_of_number (ht : ReadBefore t (gap ++ (u.value ++ rest)))
    (hs : '\\' ∉ t.value ++ (gap ++ (u.value ++ rest))) (hk : t.kind = .number)
    (hu : ReadBefore u rest) (hgap : LeavesNothing (some t.kind) gap u) {last : Option Kind}
    (hys : Drawn last loc rest ys) (hruns : RunsInto .number t.value (u.value ++ concat ys)) :
    ∃ w zs, ys = w :: zs ∧ Merges u w (concat zs) := by
  obtain ⟨hident, hpercent, sg, wh, fr, ex, hparts, hn, hdigit, hfraction⟩ :=
    quiet_of_leavesNothing ht hs hk hu.ne_nil hgap
  have hslash : '\\' ∉ u.value ++ concat ys := by
    rw [List.mem_append, not_or]
    refine ⟨fun hm => hs ?_, hys.slash_concat⟩
    exact List.mem_append_right _ (List.mem_append_right _ (List.mem_append_left _ hm))
  obtain ⟨d, b, hb⟩ := List.exists_cons_of_ne_nil hu.ne_nil
  rcases hruns with hnumeral | hhead | hstart
  · by_cases hlone : u.value = ['.'] ∧ startsDigit (concat ys) = true
    · exact exists_merges_of_lone hu hlone.1 (.inl rfl) hys (.inl hlone.2)
    · -- the numeral ends where it did
      exfalso
      refine hnumeral ?_
      rw [hparts]
      refine hn.takeNumeral_eq ⟨?_, fun hfr hex => ?_, fun _ => ?_⟩
      · rw [hb] at hdigit ⊢
        exact hdigit
      · cases hf : startsFraction (u.value ++ concat ys) with
        | false => rfl
        | true =>
            rcases startsFraction_append_cases hu.ne_nil hf with hf | hf
            · rw [hfraction hfr hex] at hf
              cases hf
            · exact absurd hf hlone
      · have hmark : ¬IsExponentMark d := by
          intro he
          have hi : startsIdent (d :: b) = true := by simp [startsIdent, he.isNameStart]
          rw [hb, hi] at hident
          cases hident
        rw [IsExponentMark, not_or] at hmark
        rw [hb, List.cons_append, startsExponent]
        simp [hmark]
  · exact absurd (by simpa [hb] using hhead) hpercent
  · rcases startsIdent_append_cases hu.ne_nil hslash hstart with hi | ⟨hv, hi⟩
    · rw [hident] at hi
      cases hi
    · exact exists_merges_of_lone hu hv (.inr (.inr rfl)) hys (.inr ⟨rfl, hi⟩)

/-- A sign merges with the neighbour that it runs into, or the neighbour with the next one. The
second case is met where the neighbour is itself a lone point or hyphen, and the text goes on
through it. -/
theorem exists_merges_of_sign (ht : ReadBefore t y) (hk : t.kind = .delim) (hu : ReadBefore u rest)
    {last : Option Kind} (hys : Drawn last loc rest ys)
    (hs : '\\' ∉ t.value ++ (u.value ++ concat ys))
    (hruns : RunsInto .delim t.value (u.value ++ concat ys)) :
    Merges t u (concat ys) ∨ ∃ w zs, ys = w :: zs ∧ Merges u w (concat zs) := by
  obtain ⟨c, hv, hdigit, hstart⟩ := ht.exists_sign hk
  have hslash : '\\' ∉ u.value ++ concat ys := fun hm => hs (List.mem_append_right _ hm)
  obtain ⟨d, b, hb⟩ := List.exists_cons_of_ne_nil hu.ne_nil
  rw [hv] at hruns hs
  -- a comment, a number, an identifier, a keyword or a hash
  rcases hruns with ⟨hc, hstar⟩ | hnumber | hident | ⟨hc, hident⟩ | ⟨hc, hname⟩
  · refine .inl (.comment hk (hv.trans hc) ?_)
    simpa [hb] using hstar
  · simp only [List.singleton_append, startsNumber, hdigit, Bool.false_or, Bool.or_eq_true,
      Bool.and_eq_true] at hnumber
    rcases hnumber with hpoint | ⟨hsign, hd | hf⟩
    · simp only [startsFraction, Bool.and_eq_true, decide_eq_true_eq] at hpoint
      obtain ⟨rfl, hd⟩ := hpoint
      refine .inl (.number hk hv (.inl rfl) ?_)
      rw [hb] at hd ⊢
      have hd : isDigit d = true := hd
      simp [startsNumber, startsFraction, startsDigit, hd]
    · refine .inl (.number hk hv (.inr hsign) ?_)
      rw [hb] at hd ⊢
      have hd : isDigit d = true := hd
      simp [startsNumber, startsDigit, hsign, hd]
    · rcases startsFraction_append_cases hu.ne_nil hf with hf | ⟨hpoint, hd⟩
      · exact .inl (.number hk hv (.inr hsign) (by simp [startsNumber, hsign, hf]))
      · exact .inr (exists_merges_of_lone hu hpoint (.inl rfl) hys (.inl hd))
  · rw [startsIdent_eq hs] at hident
    simp only [List.singleton_append, hstart, Bool.false_or, Bool.and_eq_true,
      decide_eq_true_eq] at hident
    obtain ⟨rfl, hsecond⟩ := hident
    refine .inl (.hyphen hk hv ?_)
    rw [hb] at hs hsecond ⊢
    have hslash' : '\\' ∉ '-' :: d :: b := by
      intro hm
      refine hs ?_
      rw [← List.append_assoc]
      exact List.mem_append_left _ hm
    rw [startsIdent_eq hslash']
    simpa [hstart] using hsecond
  · rcases startsIdent_append_cases hu.ne_nil hslash hident with hi | ⟨hhyphen, hi⟩
    · exact .inl (.keyword hk (hv.trans hc) hi)
    · exact .inr (exists_merges_of_lone hu hhyphen (.inr (.inr rfl)) hys (.inr ⟨rfl, hi⟩))
  · rw [startsName_append_eq hu.ne_nil hslash] at hname
    exact .inl (.hash hk (hv.trans hc) hname)

/-- **Neighbours.** If a token runs into the texts of the tokens behind it, it merges with the next
one, or the next one merges with the one behind it. The cases are the classes of the token that can
run into something. -/
theorem merges_of_runsInto (ht : ReadBefore t y) (hs : '\\' ∉ t.value ++ y)
    (hus : Drawn (some t.kind) loc y us) (hruns : RunsInto t.kind t.value (concat us)) :
    ∃ u ys, us = u :: ys ∧
      (Merges t u (concat ys) ∨ ∃ w zs, ys = w :: zs ∧ Merges u w (concat zs)) := by
  have hslash := hus.slash_concat
  have hself : '\\' ∉ t.value := fun hm => hs (List.mem_append_left _ hm)
  cases us with
  | nil => exact absurd hruns (ht.not_runsInto_space hself (.inl rfl))
  | cons u ys =>
      refine ⟨u, ys, rfl, ?_⟩
      rcases hus.cases with ⟨-, hu, -⟩ | ⟨gap, rest, rfl, -, hu, hgap, hys⟩
      · have hconcat : concat (u :: ys) = ' ' :: concat ys := by simp [concat, hu]
        exact absurd hruns (ht.not_runsInto_space hself (.inr ⟨_, hconcat⟩))
      have hconcat : concat (u :: ys) = u.value ++ concat ys := by simp [concat]
      rw [hconcat] at hruns hslash
      obtain ⟨d, b, hb⟩ := List.exists_cons_of_ne_nil hu.ne_nil
      -- a name character behind a word would have been taken, or kept off by a space
      have hword : t.kind.isWord = true →
          (∀ z, startsName z = true → RunsInto t.kind t.value z) →
          startsName (u.value ++ concat ys) = false := by
        intro hk hall
        rw [startsName_append_eq hu.ne_nil hslash]
        exact not_startsName_of_leavesNothing ht hs hu.ne_nil hgap hk hall
      cases hk : t.kind with
      | ident =>
          rw [hk] at hruns hword
          rcases hruns with hname | ⟨hlower, r, hr, hquoted⟩
          · rw [hword rfl fun z hz => .inl hz] at hname
            cases hname
          · obtain ⟨rfl, hr⟩ : d = '(' ∧ b ++ concat ys = r := by simpa [hb] using hr
            obtain rfl := hu.eq_lparen hb
            exact .inl (.url hk hlower hb (by simpa [← hr] using hquoted))
      | atKeyword =>
          rw [hk] at hruns hword
          rw [RunsInto, hword rfl fun z hz => hz] at hruns
          cases hruns
      | hash =>
          rw [hk] at hruns hword
          rw [RunsInto, hword rfl fun z hz => hz] at hruns
          cases hruns
      | number =>
          rw [hk] at hruns
          exact .inr (exists_merges_of_number ht hs hk hu hgap hys hruns)
      | dimension =>
          rw [hk] at hruns hword
          rcases hruns with hname | ⟨n, e, r, hv, hn, he, hplus, hr⟩
          · rw [hword rfl fun z hz => .inl hz] at hname
            cases hname
          · obtain ⟨rfl, rfl⟩ : d = '+' ∧ b ++ concat ys = r := by simpa [hb] using hplus
            cases b with
            | nil => exact .inr (exists_merges_of_lone hu hb (.inr (.inl rfl)) hys (.inl hr))
            | cons f b => exact .inl (.exponent hk ⟨n, e, f :: b, hv, hn, he, hb, hr⟩)
      | delim =>
          rw [hk] at hruns
          refine exists_merges_of_sign ht hk hu hys ?_ hruns
          rw [List.mem_append, not_or]
          exact ⟨hself, hslash⟩
      | _ =>
          rw [hk] at hruns
          exact hruns.elim

end Neighbours

/-! ### Tokens that touch in the source -/

section Touching

variable {last : Option Kind} {loc : Location} {s rest : Text} {t u : Token} {ts ys : List Token}

/-- A quote that a source starts with is the first character of its tokens. -/
theorem exists_concat_quote {q : Char} {r : Text} (hq : isQuote q = true)
    (hstuck : (cut (q :: r)).stuck = none) (last : Option Kind) (loc : Location) :
    ∃ z, concat (ofPieces last loc (cut (q :: r)).pieces) = q :: z := by
  cases hbody : takeThrough q true r with
  | none =>
      rw [cut, next_of_takeThrough_none hq hbody] at hstuck
      cases hstuck
  | some p =>
      rw [cut_cons_of_next (next_of_takeThrough hq hbody)]
      exact ⟨_, rfl⟩

/-- A quote in sight at the start of a source is in sight at the start of its tokens. Only blanks
may stand in front of it, and one space is left of them. -/
theorem Drawn.startsQuoted_concat (h : Drawn last loc s ts) (hlast : last ≠ some .whitespace)
    (hq : startsQuoted s = true) : startsQuoted (concat ts) = true := by
  obtain ⟨hstuck, -, rfl⟩ := h
  rw [startsQuoted] at hq
  cases s with
  | nil => cases hq
  | cons c s =>
      by_cases hc : isBlank c = true
      · -- the blanks become one space
        rw [List.dropWhile_cons_of_pos hc] at hq
        rw [cut_cons_of_next (next_of_isBlank hc)] at hstuck ⊢
        cases hdrop : s.dropWhile isBlank with
        | nil =>
            rw [hdrop] at hq
            cases hq
        | cons q r =>
            rw [hdrop] at hq hstuck
            obtain ⟨z, hz⟩ := exists_concat_quote hq hstuck (some .whitespace)
              (loc.after (c :: s.takeWhile isBlank))
            have hblank : isBlank q = false := by
              have := List.head?_dropWhile_not isBlank s
              rw [hdrop] at this
              simpa using this
            have hspace : isBlank ' ' = true := by decide
            rw [ofPieces, if_neg hlast, concat, List.flatMap_cons, ← concat, hz]
            simp [startsQuoted, space, hspace, hblank, hq]
      · rw [List.dropWhile_cons_of_neg hc] at hq
        obtain ⟨z, hz⟩ := exists_concat_quote hq hstuck last loc
        rw [hz]
        simp [startsQuoted, hc, hq]

/-- Two tokens that touch in the source do not merge, or they would have been read otherwise. -/
theorem not_merges_of_touching (ht : ReadBefore t (u.value ++ rest)) (hu : ReadBefore u rest)
    (hys : Drawn (some u.kind) loc rest ys) : ¬Merges t u (concat ys) := by
  intro hm
  have hlast : some u.kind ≠ some .whitespace := fun he => hu.kind_ne.1 (Option.some.inj he)
  exact ht.not_runsInto (hm.runsInto (hys.startsQuoted_concat hlast))

end Touching

/-! ### The pieces of the joined text -/

/-- The piece that the token is alone. -/
def piece (t : Token) : Piece :=
  if t.kind = .whitespace then .blanks t.value else .lexeme t.kind t.value

section Joined

variable {last : Option Kind} {loc : Location} {s : Text} {t u : Token} {ts us : List Token}

/-- Behind a space the next text starts with no blank. -/
theorem Drawn.not_isBlank_head (h : Drawn (some .whitespace) loc s ts) :
    ∀ c ∈ (concat ts).head?, isBlank c = false := by
  intro d hd
  cases ts with
  | nil => cases hd
  | cons t us =>
      rcases h.cases with ⟨-, -, hne, -⟩ | ⟨_, _, -, -, ⟨c, a, hv, hnext⟩, -⟩
      · exact absurd rfl hne
      · obtain rfl : c = d := by simpa [concat, hv] using hd
        exact not_isBlank_of_next hnext

/-- If no neighbours merge, the joined text is cut where the tokens end. The induction is on the
tokens: each runs into nothing behind it, so it is the next piece. -/
theorem Drawn.cut_concat (h : Drawn last loc s ts)
    (hfree : ∀ xs t u ys, ts = xs ++ t :: u :: ys → ¬Merges t u (concat ys)) :
    cut (concat ts) = ⟨ts.map piece, none⟩ := by
  induction ts generalizing last loc s with
  | nil => exact cut_nil
  | cons t us ih =>
      have htail : ∀ xs t u ys, us = xs ++ t :: u :: ys → ¬Merges t u (concat ys) := by
        rintro xs t' u ys rfl
        exact hfree (t :: xs) t' u ys rfl
      rw [show concat (t :: us) = t.value ++ concat us by simp [concat]]
      rcases h.cases with ⟨hk, hv, -, loc', rest, hus⟩ | ⟨gap, rest, rfl, -, ht, -, hus⟩
      · rw [hv, List.singleton_append, cut_cons_of_next (next_space hus.not_isBlank_head),
          ih hus htail]
        simp [piece, hk, hv]
      · have hs : '\\' ∉ t.value ++ rest := fun hm => h.slash (List.mem_append_right _ hm)
        -- a token that runs into something merges, or its neighbour does; neither is the case
        have hnot : ¬RunsInto t.kind t.value (concat us) := by
          intro hruns
          obtain ⟨u, ys, rfl, hm | ⟨w, zs, rfl, hm⟩⟩ := merges_of_runsInto ht hs hus hruns
          · exact hfree [] t u ys rfl hm
          · exact hfree [t] u w zs rfl hm
        have hk := ht.kind_ne.1
        obtain ⟨c, a, hv, hnext⟩ := ht
        rw [hv] at hnot
        rw [hv, List.cons_append, cut_cons_of_next ((next_iff_not_runsInto hnext).2 hnot),
          ih hus htail]
        simp [piece, hk, hv]

/-- If the joined text has the same tokens, its first token does not run into the others, and the
text without it has the same tokens again. This is the step of the induction in
`Drawn.not_merges`. -/
theorem Drawn.not_runsInto (h : Drawn last loc s (t :: us))
    (hcut : (cut (concat (t :: us))).pieces.map Piece.token = (t :: us).map unplaced)
    (hfree : NoComment (concat (t :: us))) :
    (cut (concat us)).pieces.map Piece.token = us.map unplaced ∧ NoComment (concat us) ∧
      (t.kind ≠ .whitespace → ¬RunsInto t.kind t.value (concat us)) := by
  have hconcat : concat (t :: us) = t.value ++ concat us := by simp [concat]
  rw [hconcat] at hcut hfree
  rcases h.cases with ⟨hk, hv, -, loc', rest, hus⟩ | ⟨gap, rest, rfl, -, ht, -, hus⟩
  · have hnext := cut_cons_of_next (next_space hus.not_isBlank_head)
    rw [hv, List.singleton_append, hnext] at hcut
    rw [hv, List.singleton_append, NoComment, hnext] at hfree
    refine ⟨?_, fun w hw => hfree w (List.mem_cons_of_mem _ hw), fun hne => absurd hk hne⟩
    simpa using (List.cons.inj hcut).2
  · have hk := ht.kind_ne.1
    obtain ⟨c, a, hv, -⟩ := ht
    obtain ⟨p, ps, hpieces⟩ : ∃ p ps, (cut (t.value ++ concat us)).pieces = p :: ps := by
      cases hp : (cut (t.value ++ concat us)).pieces with
      | nil =>
          rw [hp] at hcut
          cases hcut
      | cons p ps => exact ⟨p, ps, rfl⟩
    obtain ⟨d, b, rest', htext, hnext, hrest⟩ := exists_next_of_cut hpieces
    rw [hpieces, List.map_cons, List.map_cons] at hcut
    obtain ⟨hp, hps⟩ := List.cons.inj hcut
    -- the first piece is the token itself
    have hpiece : p = .lexeme t.kind t.value := by
      cases p with
      | blanks w => exact absurd (congrArg Token.kind hp).symm hk
      | comment w => exact absurd (by rw [hpieces]; exact List.mem_cons_self) (hfree w)
      | lexeme k v =>
          have hkind : k = t.kind := congrArg Token.kind hp
          have hvalue : v = t.value := congrArg Token.value hp
          rw [hkind, hvalue]
    have happ := next_append hnext
    rw [← htext, hpiece] at happ
    obtain rfl : rest' = concat us := List.append_cancel_left happ
    have htail : (cut (concat us)).pieces = ps := congrArg Cut.pieces hrest
    refine ⟨by rw [htail, hps], ?_, fun _ => ?_⟩
    · intro w hw
      refine hfree w ?_
      rw [hpieces, ← htail]
      exact List.mem_cons_of_mem _ hw
    · rw [hpiece] at hnext
      exact not_runsInto_of_next hnext

/-- If the joined text has the same tokens, no neighbours merge, wherever they stand. -/
theorem Drawn.not_merges (h : Drawn last loc s ts)
    (hcut : (cut (concat ts)).pieces.map Piece.token = ts.map unplaced)
    (hfree : NoComment (concat ts)) :
    ∀ xs t u ys, ts = xs ++ t :: u :: ys → ¬Merges t u (concat ys) := by
  induction ts generalizing last loc s with
  | nil =>
      intro xs t u ys hsplit
      simp at hsplit
  | cons t us ih =>
      obtain ⟨hcut', hfree', hruns⟩ := h.not_runsInto hcut hfree
      intro xs t' u ys hsplit
      cases xs with
      | nil =>
          obtain ⟨rfl, rfl⟩ := List.cons.inj hsplit
          intro hm
          -- two neighbours that merge are one piece, and the tokens would not be the same
          have hinto := hm.runsInto (x := concat ys) id
          refine hruns hm.kind_left ?_
          simpa [concat] using hinto
      | cons x xs =>
          obtain ⟨rfl, rfl⟩ := List.cons.inj hsplit
          obtain ⟨last', loc', s', hus⟩ :=
            (show Drawn last loc s ([t] ++ (xs ++ t' :: u :: ys)) from h).append
          exact ih hus hcut' hfree' xs t' u ys rfl

end Joined

/-! ### The joined texts of a source -/

/-- The source has comments and nothing else between the two tokens. -/
def CommentsBetween (source : Text) (t u : Token) : Prop :=
  ∃ comments, comments ≠ [] ∧ (∀ p ∈ comments, IsComment p) ∧
    (source.drop t.stop).take (u.loc.offset - t.stop) = comments.flatten

section Source

variable {source : Text} {t u e : Token} {ts body xs ys : List Token}

/-- Between two neighbours that are no gaps lies a stretch without spaces. -/
theorem mem_stretchesFrom (ht : t.kind ≠ .whitespace) (hu : u.kind ≠ .whitespace) (start : Nat)
    (spaces : List Token) :
    ⟨t.stop, u.loc.offset, []⟩ ∈ stretchesFrom start spaces (xs ++ t :: u :: ys) := by
  induction xs generalizing start spaces with
  | nil => simp [stretchesFrom, ht, hu]
  | cons x xs ih =>
      rw [List.cons_append, stretchesFrom]
      split
      · exact ih _ _
      · exact List.mem_cons_of_mem _ (ih _ _)

/-- Two neighbours that do not touch, neither of them a space, have comments between them: blanks
would have left a space. -/
theorem Lies.commentsBetween (h : Lies .start source (xs ++ t :: u :: ys))
    (ht : t.kind ≠ .whitespace) (hu : u.kind ≠ .whitespace) (hlt : t.stop < u.loc.offset) :
    CommentsBetween source t u := by
  obtain ⟨-, parts, hgap⟩ := h.isGap (show Location.start = Location.start.after [] from rfl)
    (mem_stretchesFrom ht hu 0 [])
  rw [List.nil_append] at hgap
  dsimp only at hgap
  refine ⟨parts, ?_, ?_, hgap.text⟩
  · -- something stands between the two, since they do not touch
    rintro rfl
    obtain ⟨pre, rest, rfl, hloc, -⟩ := h.stands (t := u) (by simp)
    have hoffset : u.loc.offset = pre.length := by simp [hloc, Location.start]
    have hlength := congrArg List.length hgap.text
    simp only [List.length_take, List.length_drop, List.length_append, List.flatten_nil,
      List.length_nil] at hlength
    omega
  · -- no blanks, since these would leave a space
    intro p hp
    rcases hgap.each p hp with hblank | hcomment
    · exact absurd (hgap.ofBlank ⟨p, hp, hblank⟩) (by simp)
    · exact hcomment

/-- The tokens of a source are those drawn from it, and the end of the source. -/
theorem exists_drawn (hs : '\\' ∉ source) (h : tokenize source = .ok ts) :
    ∃ body stop, ts = body ++ [⟨.eof, [], stop⟩] ∧ Drawn none .start source body := by
  obtain ⟨hstuck, rfl⟩ := tokenize_eq_ok_iff.1 h
  exact ⟨_, _, rfl, hstuck, hs, rfl⟩

/-- Neighbours that merge do so without the end of the source, because it has no text. So the lemmas
about the tokens in front of it apply. -/
theorem exists_of_merges (he : e.value = []) (h : body ++ [e] = xs ++ t :: u :: ys)
    (hm : Merges t u (concat ys)) :
    ∃ zs, body = xs ++ t :: u :: zs ∧ concat zs = concat ys := by
  rcases List.eq_nil_or_concat ys with rfl | ⟨zs, x, rfl⟩
  · have hlast : e = u := by
      have := congrArg List.getLast? h
      simpa using this
    exact absurd (hlast ▸ he) hm.value_right.2
  · have happ : body ++ [e] = (xs ++ t :: u :: zs) ++ [x] := by simpa using h
    obtain ⟨rfl, hx⟩ := List.append_inj' happ rfl
    obtain rfl : e = x := by simpa using hx
    exact ⟨zs, rfl, by simp [concat, he]⟩

/-- Neighbours that merge do not touch in the source: side by side they would have been read
otherwise. -/
theorem Drawn.stop_lt (h : Drawn none .start source (xs ++ t :: u :: ys))
    (hm : Merges t u (concat ys)) : u.kind ≠ .whitespace ∧ t.stop < u.loc.offset := by
  obtain ⟨last, loc, s, hdrawn⟩ := h.append
  rcases hdrawn.cases with ⟨hk, -⟩ | ⟨gap, rest, rfl, -, ht, -, hus⟩
  · exact absurd hk hm.kind_left
  rcases hus.cases with ⟨-, hu, -⟩ | ⟨gap', rest', rfl, hloc, hu, -, hys⟩
  · exact absurd hu hm.value_right.1
  refine ⟨hu.kind_ne.1, ?_⟩
  have hgap : gap' ≠ [] := by
    rintro rfl
    exact not_merges_of_touching ht hu hys hm
  have hpos := List.length_pos_iff.2 hgap
  rw [hloc, stop, Location.offset_after, Location.offset_after]
  omega

/-- A gap among the tokens has the text of a space. -/
theorem Drawn.value_of_space (h : Drawn none .start source body) (ht : t ∈ body)
    (hk : t.kind = .whitespace) : t.value = [' '] := by
  obtain ⟨xs, ys, rfl⟩ := List.append_of_mem ht
  obtain ⟨last, loc, s, hdrawn⟩ := h.append
  rcases hdrawn.cases with ⟨-, hv, -⟩ | ⟨_, _, -, -, hread, -⟩
  · exact hv
  · exact absurd hk hread.kind_ne.1

/-- The texts read back if no neighbours merge: the pieces of the joined text are the tokens, and
none of them is a comment. -/
theorem Drawn.tokenize_concat (h : Drawn none .start source body)
    (hfree : ∀ xs t u ys, body = xs ++ t :: u :: ys → ¬Merges t u (concat ys)) :
    ∃ us loc, tokenize (concat body) = .ok (us ++ [⟨.eof, [], loc⟩]) ∧
      us.map unplaced = body.map unplaced := by
  have hcut := h.cut_concat hfree
  -- the pieces are those of the tokens, and none of these is a comment
  have hcomment : NoComment (concat body) := by
    intro w hw
    rw [hcut] at hw
    obtain ⟨t, -, ht⟩ := List.mem_map.1 hw
    rw [piece] at ht
    split at ht <;> cases ht
  refine ⟨ofPieces none .start (cut (concat body)).pieces, _,
    tokenize_eq_ok_iff.2 ⟨by rw [hcut], rfl⟩, ?_⟩
  rw [map_unplaced_ofPieces hcomment (by simp), hcut, List.map_map]
  refine List.map_congr_left fun t ht => ?_
  by_cases hk : t.kind = .whitespace
  · simp [piece, hk, Piece.token, space, unplaced, h.value_of_space ht hk]
  · simp [piece, hk, Piece.token, unplaced]

/-- No neighbours merge if the texts read back. Comments cannot come in: they would weigh something
that the tokens do not. -/
theorem Drawn.not_merges_of_tokenize (h : Drawn none .start source body) {us : List Token}
    (hus : tokenize (concat body) = .ok us)
    (hsame : us.map unplaced = (body ++ [e]).map unplaced) :
    ∀ xs t u ys, body = xs ++ t :: u :: ys → ¬Merges t u (concat ys) := by
  obtain ⟨hstuck, rfl⟩ := tokenize_eq_ok_iff.1 hus
  rw [List.map_append, List.map_append] at hsame
  obtain ⟨hsame, -⟩ := List.append_inj' hsame rfl
  have hconcat := congrArg concat hsame
  rw [concat_map_unplaced, concat_map_unplaced] at hconcat
  have hcomment := noComment_of_weight hstuck (Nat.le_of_eq (by rw [hconcat]))
  have hpieces := map_unplaced_ofPieces hcomment
    (show (none : Option Kind) = some .whitespace → _ by simp) .start
  exact h.not_merges (hpieces.symm.trans hsame) hcomment

/-- **The texts of tokens, read again.** In a source without a backslash, the texts of the tokens
read back as the same tokens just if no two neighbours merge. Neighbours that merge have comments
between them in the source, and nothing stands for these. -/
theorem tokenize_concat_iff (hs : '\\' ∉ source) (h : tokenize source = .ok ts) :
    ((∃ us, tokenize (concat ts) = .ok us ∧ us.map unplaced = ts.map unplaced) ↔
      ∀ xs t u ys, ts = xs ++ t :: u :: ys → ¬Merges t u (concat ys)) ∧
    ∀ xs t u ys, ts = xs ++ t :: u :: ys → Merges t u (concat ys) →
      CommentsBetween source t u := by
  have hlies := lies_of_tokenize h
  obtain ⟨body, stop, rfl, hdrawn⟩ := exists_drawn hs h
  have hconcat : concat (body ++ [⟨.eof, [], stop⟩]) = concat body := by simp [concat]
  rw [hconcat]
  -- the `eof` token has no text and merges with nothing, so all three parts are about the body
  refine ⟨⟨?_, ?_⟩, ?_⟩
  · rintro ⟨us, hus, hsame⟩ xs t u ys hsplit hm
    obtain ⟨zs, hbody, hzs⟩ := exists_of_merges rfl hsplit hm
    rw [← hzs] at hm
    exact hdrawn.not_merges_of_tokenize hus hsame xs t u zs hbody hm
  · intro hfree
    obtain ⟨us, loc, hus, hsame⟩ := hdrawn.tokenize_concat fun xs t u ys hbody hm =>
      hfree xs t u (ys ++ [⟨.eof, [], stop⟩]) (by simp [hbody]) (by simpa [concat] using hm)
    exact ⟨_, hus, by rw [List.map_append, List.map_append, hsame]; rfl⟩
  · intro xs t u ys hsplit hm
    rw [hsplit] at hlies
    obtain ⟨zs, rfl, hzs⟩ := exists_of_merges rfl hsplit hm
    rw [← hzs] at hm
    obtain ⟨hu, hlt⟩ := hdrawn.stop_lt hm
    exact hlies.commentsBetween hm.kind_left hu hlt

/-- The tokens of `@/**/a`, of which the first two are one keyword side by side. -/
def keywordTokens : List Token :=
  [⟨.delim, ['@'], ⟨0, 1, 1⟩⟩, ⟨.ident, ['a'], ⟨5, 1, 6⟩⟩, ⟨.eof, [], ⟨6, 1, 7⟩⟩]

/-- The sign `@` and a name that are one keyword once the comment between them is gone. -/
theorem tokenize_concat_iff_keyword :
    tokenize "@/**/a".toList = .ok keywordTokens ∧
      ¬∃ us, tokenize (concat keywordTokens) = .ok us ∧
        us.map unplaced = keywordTokens.map unplaced := by
  have h : tokenize "@/**/a".toList = .ok keywordTokens :=
    tokenize_eq_ok_iff.2 (by decide +kernel)
  have hiff := (tokenize_concat_iff (by decide) h).1
  exact ⟨h, fun hread => hiff.1 hread [] _ _ _ rfl (.keyword rfl rfl rfl)⟩

end Source

end CssHints.Token
