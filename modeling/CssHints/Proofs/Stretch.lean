import CssHints.Proofs.Align
import CssHints.Proofs.Lookahead
import CssHints.Proofs.RoundTrip

/-!
# `CssHints.Proofs.Stretch`: a stretch of a source on its own

A stretch of pieces in which all groups are closed has the same pieces on its own (`cut_squeezed`),
with each run of blanks as the single space that its token is. The pieces see less behind them than
in the source, which changes nothing (`next_lexeme_of_follows`); a bracket behind `url` has its
quote in the stretch, since the stretch closes the bracket.
-/

set_option autoImplicit false

namespace CssHints.Token

open Text (isDigit)

/-! ### Stretches of pieces -/

/-- A run of blanks as a single space; other pieces as they are. -/
def Piece.squeeze : Piece → Piece
  | .blanks _ => .blanks [' ']
  | .comment w => .comment w
  | .lexeme k v => .lexeme k v

/-- A run of blanks is the same token however long it is. -/
@[simp] theorem Piece.token_squeeze (p : Piece) : p.squeeze.token = p.token := by
  cases p <;> rfl

/-- The text of the pieces with each run of blanks as a single space. -/
def squeezed (ps : List Piece) : Text := ps.flatMap fun p => p.squeeze.text

/-- No pieces, no text. -/
@[simp] theorem squeezed_nil : squeezed [] = [] := rfl

/-- The squeezed text is put together piece by piece. -/
@[simp] theorem squeezed_cons (p : Piece) (ps : List Piece) :
    squeezed (p :: ps) = p.squeeze.text ++ squeezed ps := rfl

/-- The piece has the form of a piece that was read, and it is no comment. -/
def Piece.IsWhole : Piece → Prop
  | .blanks w => w ≠ [] ∧ ∀ c ∈ w, isBlank c = true
  | .comment _ => False
  | .lexeme _ v => Inked v

/-- The pieces of a source without comments have the form that `IsWhole` asks for. -/
theorem isWhole_of_mem_cut {s : Text} (hs : NoComment s) {p : Piece} (hp : p ∈ (cut s).pieces) :
    p.IsWhole := by
  obtain ⟨c, t, rest, hnext⟩ := next_of_mem_cut hp
  rcases piece_cases hs hp with ⟨w, rfl, hw⟩ | ⟨k, v, rfl, -, hv⟩
  · exact ⟨next_text_ne_nil hnext, hw⟩
  · exact hv

/-- Squeezed pieces are the text of their tokens, since the token of a run of blanks is a single
space. -/
theorem squeezed_eq_concat {ps : List Piece} (hps : ∀ p ∈ ps, p.IsWhole) :
    squeezed ps = concat (ps.map Piece.token) := by
  induction ps with
  | nil => rfl
  | cons p ps ih =>
      rw [squeezed_cons, List.map_cons, concat_cons,
        ih fun q hq => hps q (List.mem_cons_of_mem _ hq)]
      cases p with
      | blanks w => rfl
      | comment w => exact absurd (hps _ List.mem_cons_self) id
      | lexeme k v => rfl

/-- The squeezed pieces are what stands there in the source, cut off behind the pieces and with
other blanks. So no lexeme in front of them sees a difference. -/
theorem follows_squeezed {ps : List Piece} (hps : ∀ p ∈ ps, p.IsWhole) (x : Text) :
    Follows (ps.flatMap Piece.text ++ x) (squeezed ps) := by
  induction ps with
  | nil => exact .nil _
  | cons p ps ih =>
      have ih := ih fun q hq => hps q (List.mem_cons_of_mem _ hq)
      rw [List.flatMap_cons, List.append_assoc, squeezed_cons]
      cases p with
      | blanks w =>
          obtain ⟨hne, hw⟩ := hps _ List.mem_cons_self
          obtain ⟨b, w, rfl⟩ := List.exists_cons_of_ne_nil hne
          exact .blank _ _ (hw b List.mem_cons_self) (by decide)
      | comment w => exact absurd (hps _ List.mem_cons_self) id
      | lexeme k v => exact ih.append v

/-- Squeezing brings in no character but the space. -/
theorem not_mem_squeezed {ps : List Piece} {c : Char} (hc : c ≠ ' ')
    (h : c ∉ ps.flatMap Piece.text) : c ∉ squeezed ps := by
  induction ps with
  | nil => exact h
  | cons p ps ih =>
      rw [List.flatMap_cons, List.mem_append, not_or] at h
      rw [squeezed_cons, List.mem_append, not_or]
      refine ⟨?_, ih h.2⟩
      cases p with
      | blanks w => simpa [Piece.squeeze, Piece.text] using hc
      | comment w => exact h.1
      | lexeme k v => exact h.1

/-- Behind an open bracket the first thing that is no blank is in the stretch, if the stretch closes
the bracket. So whether that is a quote can be told from the stretch alone. -/
theorem startsQuoted_squeezed {ps : List Piece} (hps : ∀ p ∈ ps, p.IsWhole) {g : Kind}
    {gs : List Kind} (hclosed : Grammar.Closes (g :: gs) (ps.map Piece.token)) (x : Text) :
    startsQuoted (squeezed ps) = startsQuoted (ps.flatMap Piece.text ++ x) := by
  induction ps with
  | nil => cases hclosed
  | cons p ps ih =>
      have ih := ih fun q hq => hps q (List.mem_cons_of_mem _ hq)
      rw [List.flatMap_cons, List.append_assoc, squeezed_cons]
      cases p with
      | blanks w =>
          -- blanks are skipped on both sides, and the bracket is still open behind them
          obtain ⟨-, hw⟩ := hps _ List.mem_cons_self
          have hrest := hclosed.2.2.2.2
          have hdrop : ∀ {v : Text} (z : Text), (∀ c ∈ v, isBlank c = true) →
              startsQuoted (v ++ z) = startsQuoted z := by
            intro v z hv
            rw [startsQuoted, List.dropWhile_append_of_pos hv, startsQuoted]
          rw [show (Piece.blanks w).text = w from rfl, hdrop _ hw,
            show (Piece.blanks w).squeeze.text = [' '] from rfl, hdrop _ isBlank_of_mem_space]
          refine ih ?_
          rw [← Grammar.openAfter_of_noBracket
            (show Grammar.NoBracket (Piece.blanks w).token from ⟨rfl, rfl⟩) (g :: gs)]
          exact hrest
      | comment w => exact absurd (hps _ List.mem_cons_self) id
      | lexeme k v =>
          obtain ⟨c, v, rfl, hc⟩ := hps _ List.mem_cons_self
          simp [startsQuoted, Piece.squeeze, Piece.text, hc]

/-- A round bracket is a piece of its own, whatever follows. -/
theorem next_lparen (s : Text) : next '(' s = .ok (.lexeme .lparen ['('], s) := by
  rw [next_of_startsSign (startsSign_of_startsOnlySign (by decide) s),
    readSign_self (by simp) (by simp)]
  rfl

/-- A bracket in front of the pieces has its quote in sight: the stretch closes the bracket, so what
stands behind it is part of the stretch. -/
theorem quoteStays_squeezed {ps qs : List Piece} {x : Text} {groups : List Kind}
    (hcut : (cut (ps.flatMap Piece.text ++ x)).pieces = ps ++ qs) (hps : ∀ p ∈ ps, p.IsWhole)
    (hclosed : Grammar.Closes groups (ps.map Piece.token)) :
    QuoteStays (ps.flatMap Piece.text ++ x) (squeezed ps) := by
  intro r r' hr hr' hquoted
  cases ps with
  | nil => cases hr'
  | cons p ps =>
      obtain ⟨c, t, rest, htext, hnext, -⟩ := exists_next_of_cut hcut
      obtain ⟨rfl, rfl⟩ : '(' = c ∧ r = t := by simpa using hr.symm.trans htext
      rw [next_lparen] at hnext
      obtain ⟨rfl, rfl⟩ : Piece.lexeme .lparen ['('] = p ∧ r = rest := by simpa using hnext
      obtain rfl : ps.flatMap Piece.text ++ x = r := by simpa [Piece.text] using hr
      obtain rfl : squeezed ps = r' := by simpa [Piece.squeeze, Piece.text] using hr'
      rw [startsQuoted_squeezed (fun q hq => hps q (List.mem_cons_of_mem _ hq)) hclosed.2.2.2.2 x]
      exact hquoted

/-- A space in front of what is no blank is a piece of its own. -/
theorem next_space {s : Text} (hs : ∀ c ∈ s.head?, isBlank c = false) :
    next ' ' s = .ok (.blanks [' '], s) := by
  rw [next_of_isBlank (by decide)]
  cases s with
  | nil => rfl
  | cons c s => simp [hs c rfl]

/-- **Stretches of a source.** A stretch of pieces in which all groups are closed has the same
pieces on its own, with each run of blanks as a single space. The induction is on the pieces: each
sees behind it what it saw in the source, cut off behind the stretch. -/
theorem cut_squeezed {ps qs : List Piece} {x : Text} {groups : List Kind}
    (hcut : (cut (ps.flatMap Piece.text ++ x)).pieces = ps ++ qs)
    (hslash : '\\' ∉ ps.flatMap Piece.text ++ x) (hps : ∀ p ∈ ps, p.IsWhole)
    (hclosed : Grammar.Closes groups (ps.map Piece.token)) :
    cut (squeezed ps) = ⟨ps.map Piece.squeeze, none⟩ := by
  induction ps generalizing groups with
  | nil => exact cut_nil
  | cons p ps ih =>
      have htail : ∀ q ∈ ps, q.IsWhole := fun q hq => hps q (List.mem_cons_of_mem _ hq)
      have hfollows := follows_squeezed htail x
      obtain ⟨c, t, rest, htext, hnext, hrest⟩ := exists_next_of_cut hcut
      rw [List.flatMap_cons, List.append_assoc] at htext hslash
      -- the piece is the front of the text, and the further pieces are the rest
      obtain rfl : rest = ps.flatMap Piece.text ++ x :=
        List.append_cancel_left ((next_append hnext).trans htext.symm)
      have hpieces := congrArg Cut.pieces hrest
      have hslash' : '\\' ∉ ps.flatMap Piece.text ++ x :=
        fun hm => hslash (List.mem_append_right _ hm)
      have hcuts := ih hpieces hslash' htail hclosed.2.2.2.2
      cases p with
      | blanks w =>
          -- the blanks ended before what is no blank, and that comes first in the squeezed text too
          obtain ⟨v, -, -, -, hhead⟩ := blanks_of_next hnext
          have hspace := next_space (hfollows.not_isBlank hhead)
          show cut (' ' :: squeezed ps) = _
          rw [cut_cons_of_next hspace, hcuts]
          rfl
      | comment w => exact absurd (hps _ List.mem_cons_self) id
      | lexeme k v =>
          obtain ⟨d, v, rfl, -⟩ := hps _ List.mem_cons_self
          obtain ⟨rfl, rfl⟩ : d = c ∧ v ++ (ps.flatMap Piece.text ++ x) = t := by
            simpa [Piece.text] using htext
          have hsqueezed : '\\' ∉ squeezed (.lexeme k (d :: v) :: ps) := by
            refine not_mem_squeezed (by decide) fun hm => hslash ?_
            rw [← List.append_assoc, ← List.flatMap_cons]
            exact List.mem_append_left _ hm
          have hstay := next_lexeme_of_follows hnext hfollows
            (quoteStays_squeezed hpieces htail hclosed.2.2.2.2) hsqueezed
          show cut (d :: (v ++ squeezed ps)) = _
          rw [cut_cons_of_next hstay, hcuts]
          rfl

/-! ### The last character of a lexeme -/

/-- A stretch that was taken up to an end has that end as its last character, escaped characters in
between notwithstanding. -/
theorem getLast?_takeThrough {close : Char} {oneLine : Bool} {s body rest : Text}
    (h : takeThrough close oneLine s = some (body, rest)) : body.getLast? = some close := by
  fun_induction takeThrough close oneLine s generalizing body rest with
  | case1 => cases h
  | case2 =>
      cases h
      rfl
  | case3 => cases h
  | case4 d t hc ih =>
      obtain ⟨q, hq, he⟩ := Option.map_eq_some_iff.1 h
      cases he
      rw [List.getLast?_cons, List.getLast?_cons, ih hq]
      rfl
  | case5 => cases h
  | case6 c s hc hb hn ih =>
      obtain ⟨q, hq, he⟩ := Option.map_eq_some_iff.1 h
      cases he
      rw [List.getLast?_cons, ih hq]
      rfl

/-- A numeral has no blank in it: digits, signs, points and exponent marks are none. -/
theorem not_isBlank_of_mem_takeNumeral {s n z : Text} (h : takeNumeral s = (n, z))
    (hs : startsNumber s = true) {d : Char} (hd : d ∈ n) : isBlank d = false := by
  rcases mem_of_takeNumeral h hs hd with hdigit | hsign | rfl | he
  · exact not_isBlank_of isDigit_separator hdigit
  · exact not_isBlank_of isSign_separator hsign
  · decide
  · exact not_isBlank_of isNameStart_separator he.isNameStart

/-- A name without a backslash is a run of name characters. With one it could hold an escaped
blank. -/
theorem takeName_eq {s : Text} (h : '\\' ∉ s) :
    takeName s = (s.takeWhile isNameChar, s.dropWhile isNameChar) := by
  induction s with
  | nil => rfl
  | cons c s ih =>
      have hc : c ≠ '\\' := by
        rintro rfl
        exact h List.mem_cons_self
      by_cases hname : isNameChar c = true
      · rw [takeName_cons hname, ih fun hs => h (List.mem_cons_of_mem _ hs)]
        simp [hname]
      · rw [takeName.eq_def]
        cases s <;> simp [hname, hc]

/-- A name without a backslash has no blank in it. An escape could have brought one in. -/
theorem not_isBlank_of_mem_takeName {s n rest : Text} (hs : '\\' ∉ s)
    (h : takeName s = (n, rest)) {d : Char} (hd : d ∈ n) : isBlank d = false := by
  rw [takeName_eq hs] at h
  obtain rfl := congrArg Prod.fst h
  exact not_isBlank_of isNameChar_separator (List.all_eq_true.1 List.all_takeWhile d hd)

section LastCharacter

variable {c d : Char} {s v rest : Text} {k : Kind}

/-- A number with its unit or percent sign has no blank in it. So blanks that are changed are never
part of a number. -/
theorem not_isBlank_of_mem_readNumber (hs : '\\' ∉ s) (h : readNumber s = (.lexeme k v, rest))
    (hstart : startsNumber s = true) (hd : d ∈ v) : isBlank d = false := by
  obtain ⟨n, z, hnz, hcases⟩ := readNumber_cases h
  have hn : ∀ d ∈ n, isBlank d = false := fun d hd => not_isBlank_of_mem_takeNumeral hnz hstart hd
  rcases hcases with ⟨-, rfl, -⟩ | ⟨-, -, -, u, rfl, hunit⟩ | ⟨-, rfl, -⟩
  · rcases List.mem_append.1 hd with hd | hd
    · exact hn d hd
    · rw [List.mem_singleton.1 hd]
      decide
  · rcases List.mem_append.1 hd with hd | hd
    · exact hn d hd
    · refine not_isBlank_of_mem_takeName (fun hm => hs ?_) hunit hd
      rw [← append_of_takeNumeral hnz]
      exact List.mem_append_right _ hm
  · exact hn d hd

/-- A word ends with no blank: it is a name, or a `url(...)` with its bracket. -/
theorem getLast?_of_readWord (h : readWord s = .ok (.lexeme k v, rest)) (hs : '\\' ∉ s) :
    ∀ d ∈ v.getLast?, isBlank d = false := by
  intro d hd
  rcases readWord_cases h with ⟨-, hname, -⟩ | ⟨-, n, body, rfl, -, hurl⟩
  · exact not_isBlank_of_mem_takeName hs hname (List.mem_of_getLast? hd)
  · rw [List.getLast?_append, List.getLast?_cons, getLast?_takeThrough hurl.closed] at hd
    obtain rfl : ')' = d := by simpa using hd
    decide

/-- A lexeme ends with no blank. A string or a `url(...)` may have blanks in it, but ends with a
quote or a bracket. -/
theorem getLast?_of_next (h : next c s = .ok (.lexeme k v, rest)) (hslash : '\\' ∉ c :: s) :
    ∀ d ∈ v.getLast?, isBlank d = false := by
  have hs : '\\' ∉ s := fun hm => hslash (List.mem_cons_of_mem _ hm)
  have hc := not_isBlank_of_next h
  intro d hd
  -- a sign and a name
  have hname {n rest : Text} (hn : takeName s = (n, rest)) (hmem : d ∈ c :: n) :
      isBlank d = false := by
    rcases List.mem_cons.1 hmem with rfl | hmem
    · exact hc
    · exact not_isBlank_of_mem_takeName hs hn hmem
  rcases next_lexeme_cases h with ⟨-, -, body, rfl, hbody⟩ | ⟨hnumber, hread⟩ | ⟨-, -, hread⟩ |
    ⟨-, hread⟩
  · rw [List.getLast?_cons, getLast?_takeThrough hbody] at hd
    obtain rfl : c = d := by simpa using hd
    exact hc
  · exact not_isBlank_of_mem_readNumber hslash hread hnumber (List.mem_of_getLast? hd)
  · exact getLast?_of_readWord hread hslash d hd
  · rcases readSign_cases hread with ⟨-, -, -, n, rfl, hn⟩ | ⟨-, -, -, n, rfl, hn⟩ | ⟨-, rfl, -⟩
    · exact hname hn (List.mem_of_getLast? hd)
    · exact hname hn (List.mem_of_getLast? hd)
    · obtain rfl : c = d := by simpa using hd
      exact hc

end LastCharacter

end CssHints.Token
