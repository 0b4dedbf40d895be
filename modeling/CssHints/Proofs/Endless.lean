import CssHints.Proofs.Cover
import CssHints.Proofs.Parsed

/-!
# `CssHints.Proofs.Endless`: the sources that cannot be cut into tokens

A source fails to be tokenized for one reason only: behind complete pieces a string, a comment or a
`url(...)` starts that has no end. `Endless` says what that means without reference to a reader, by
the characters that would end the construct. A character counts if it is not escaped, and whether it
is can be told from the backslashes in front of it: an even number of them escape each other
(`Unescaped`).

`tokenize_eq_error_iff` is the principal equivalence. It rests on two facts about a single step:
reading fails just where something endless starts (`next_eq_error_iff`), and a lexeme that is read
from a source is a complete token, which reads the same on its own (`next_alone`). The second fact
holds of all tokens of a source, gaps included (`tokenize_value`).
-/

set_option autoImplicit false

namespace CssHints.Token

open Text (isDigit)

/-! ### Escapes -/

/-- The number of backslashes that the text ends with. -/
def slashesBehind (s : Text) : Nat := (s.reverse.takeWhile (· = '\\')).length

/-- What stands behind the text is not escaped by it: the backslashes at its end escape each
other. -/
def Unescaped (s : Text) : Prop := slashesBehind s % 2 = 0

instance (s : Text) : Decidable (Unescaped s) := inferInstanceAs (Decidable (_ = _))

/-- Nothing escapes what stands at the start. -/
theorem unescaped_nil : Unescaped [] := rfl

/-- A single backslash escapes what stands behind it. -/
theorem not_unescaped_backslash : ¬Unescaped ['\\'] := by decide

/-- A character that is no backslash has no bearing on what comes later, since the run of
backslashes in front of any later place does not reach it or ends at it. -/
theorem unescaped_cons {c : Char} (hc : c ≠ '\\') (s : Text) :
    Unescaped (c :: s) ↔ Unescaped s := by
  have hcount : slashesBehind (c :: s) = slashesBehind s := by
    rw [slashesBehind, List.reverse_cons, List.takeWhile_append]
    split
    · -- `s` is all backslashes, and `c` is where the run of them ends
      rename_i hall
      simp [hc, slashesBehind, hall]
    · rfl
  rw [Unescaped, hcount, Unescaped]

/-- A backslash and the character that it escapes have no bearing on what comes later. If the
character is a backslash too, the run of backslashes gains two, and its parity stays. -/
theorem unescaped_escape (d : Char) (s : Text) : Unescaped ('\\' :: d :: s) ↔ Unescaped s := by
  have hcount : slashesBehind ('\\' :: d :: s) % 2 = slashesBehind s % 2 := by
    rw [slashesBehind, List.reverse_cons, List.reverse_cons, List.append_assoc,
      List.takeWhile_append]
    split
    · -- the run reaches `d`, and goes on by two backslashes or by none
      rename_i hall
      by_cases hd : d = '\\'
      · simp [hd, slashesBehind, hall]
      · simp [hd, slashesBehind, hall]
    · rfl
  rw [Unescaped, hcount, Unescaped]

/-- The text holds a `close` that is not escaped. Within one line, no line feed that is not escaped
comes first. -/
def HasEnd (close : Char) (oneLine : Bool) (s : Text) : Prop :=
  ∃ before behind, s = before ++ close :: behind ∧ Unescaped before ∧
    (oneLine = true → ∀ line rest, before = line ++ '\n' :: rest → ¬Unescaped line)

section HasEnd

variable {close : Char} {oneLine : Bool}

/-- A character that is no end, no backslash and no end of the line can be left out at the start. It
changes neither whether a later character is escaped nor whether the line ends before it. -/
theorem hasEnd_cons {c : Char} (hclose : c ≠ close) (hslash : c ≠ '\\')
    (hline : ¬(oneLine = true ∧ c = '\n')) (s : Text) :
    HasEnd close oneLine (c :: s) ↔ HasEnd close oneLine s := by
  constructor
  · rintro ⟨before, behind, hs, hfree, hone⟩
    cases before with
    | nil => exact absurd (List.cons.inj hs).1 hclose
    | cons d before =>
        obtain ⟨rfl, hrest⟩ := List.cons.inj hs
        refine ⟨before, behind, hrest, (unescaped_cons hslash before).1 hfree, ?_⟩
        intro htrue line rest hbefore hun
        refine hone htrue (c :: line) rest (by rw [hbefore]; rfl) ?_
        exact (unescaped_cons hslash line).2 hun
  · rintro ⟨before, behind, rfl, hfree, hone⟩
    refine ⟨c :: before, behind, rfl, (unescaped_cons hslash before).2 hfree, ?_⟩
    intro htrue line rest hbefore hun
    cases line with
    -- a line feed at the start would be `c` itself
    | nil => exact hline ⟨htrue, (List.cons.inj hbefore).1⟩
    | cons d line =>
        obtain ⟨rfl, htail⟩ := List.cons.inj hbefore
        exact hone htrue line rest htail ((unescaped_cons hslash line).1 hun)

/-- A backslash with the character that it escapes can be left out at the start: neither of them is
an end, and an escaped line feed does not end the line. -/
theorem hasEnd_escape (hclose : close ≠ '\\') (d : Char) (s : Text) :
    HasEnd close oneLine ('\\' :: d :: s) ↔ HasEnd close oneLine s := by
  constructor
  · rintro ⟨before, behind, hs, hfree, hone⟩
    -- the end is neither the backslash nor the escaped character
    rcases before with - | ⟨a, - | ⟨b, before⟩⟩
    · exact absurd (List.cons.inj hs).1.symm hclose
    · obtain ⟨rfl, -⟩ := List.cons.inj hs
      exact absurd hfree not_unescaped_backslash
    · obtain ⟨rfl, rfl, hrest⟩ : '\\' = a ∧ d = b ∧ s = before ++ close :: behind := by
        simpa using hs
      refine ⟨before, behind, hrest, (unescaped_escape d before).1 hfree, ?_⟩
      intro htrue line rest hbefore hun
      refine hone htrue ('\\' :: d :: line) rest (by rw [hbefore]; rfl) ?_
      exact (unescaped_escape d line).2 hun
  · rintro ⟨before, behind, rfl, hfree, hone⟩
    refine ⟨'\\' :: d :: before, behind, rfl, (unescaped_escape d before).2 hfree, ?_⟩
    intro htrue line rest hbefore hun
    rcases line with - | ⟨a, - | ⟨b, line⟩⟩
    · exact absurd (List.cons.inj hbefore).1 (by decide)
    · obtain ⟨rfl, -⟩ := List.cons.inj hbefore
      exact not_unescaped_backslash hun
    · obtain ⟨rfl, rfl, htail⟩ : '\\' = a ∧ d = b ∧ before = line ++ '\n' :: rest := by
        simpa using hbefore
      exact hone htrue line rest htail ((unescaped_escape d line).1 hun)

/-- A stretch up to `close` can be taken just if there is such a character. The cases are those of
the function, and each takes one character or one escape off the text. -/
theorem takeThrough_eq_none_iff (hslash : close ≠ '\\') (s : Text) :
    takeThrough close oneLine s = none ↔ ¬HasEnd close oneLine s := by
  fun_induction takeThrough close oneLine s with
  | case1 => simp [HasEnd]
  | case2 s =>
      have : HasEnd close oneLine (close :: s) := ⟨[], s, rfl, unescaped_nil, by simp⟩
      simp [this]
  | case3 =>
      have : ¬HasEnd close oneLine ['\\'] := by
        rintro ⟨before, behind, hs, -⟩
        rcases before with - | ⟨a, before⟩
        · exact hslash (List.cons.inj hs).1.symm
        · exact absurd (List.cons.inj hs).2.symm (by simp)
      simp [this]
  | case4 d t hc ih => rw [Option.map_eq_none_iff, ih, hasEnd_escape hslash]
  | case5 c s hc hb hn =>
      -- the line ends here, with nothing in front that could escape the line feed
      have hone : oneLine = true ∧ c = '\n' := by simpa using hn
      have : ¬HasEnd close oneLine (c :: s) := by
        rintro ⟨before, behind, hs, -, hline⟩
        rcases before with - | ⟨a, before⟩
        · exact hc (List.cons.inj hs).1
        · obtain ⟨rfl, -⟩ := List.cons.inj hs
          exact hline hone.1 [] before (by rw [hone.2]; rfl) unescaped_nil
      simp [this]
  | case6 c s hc hb hn ih =>
      rw [Option.map_eq_none_iff, ih, hasEnd_cons hc hb (by simpa using hn)]

end HasEnd

/-- The body of a comment can be taken just if an end mark stands somewhere behind its start.
Nothing in a comment can hide the mark. -/
theorem takeComment_eq_none_iff (s : Text) : takeComment s = none ↔ ¬['*', '/'] <:+: s := by
  fun_induction takeComment s with
  | case1 => simp
  | case2 c s hc =>
      obtain ⟨rfl, hs⟩ := hc
      obtain ⟨t, rfl⟩ := List.head?_eq_some_iff.1 hs
      have : ['*', '/'] <:+: '*' :: '/' :: t := ⟨[], t, rfl⟩
      simp [this]
  | case3 c s hc ih =>
      rw [Option.map_eq_none_iff, ih, List.infix_cons_iff, not_or, iff_and_self]
      -- an end mark at the start would have been taken
      rintro - ⟨t, ht⟩
      obtain ⟨rfl, rfl⟩ : '*' = c ∧ '/' :: t = s := by simpa using ht
      exact hc ⟨rfl, rfl⟩

/-! ### What has no end -/

/-- The text starts with a construct that has no end, and `message` says which. -/
inductive Endless : (message : Text) → Text → Prop
  /-- No quote of the same form follows on the line. -/
  | string {q : Char} {s : Text} : isQuote q = true → ¬HasEnd q true s →
      Endless "Unterminated string literal" (q :: s)
  /-- No end mark of a comment follows. -/
  | comment {s : Text} : ¬['*', '/'] <:+: s → Endless "Unterminated comment" ('/' :: '*' :: s)
  /-- The argument has no quotes, and no bracket closes it. -/
  | url {u r l : Char} {s : Text} : u = 'u' ∨ u = 'U' → r = 'r' ∨ r = 'R' → l = 'l' ∨ l = 'L' →
      (∀ c ∈ (s.dropWhile isBlank).head?, isQuote c = false) → ¬HasEnd ')' false s →
      Endless "Unterminated url(" (u :: r :: l :: '(' :: s)

/-- An argument has no quotes if no quote is the first character behind its blanks. -/
theorem startsQuoted_eq_false_iff (s : Text) :
    startsQuoted s = false ↔ ∀ c ∈ (s.dropWhile isBlank).head?, isQuote c = false := by
  rw [startsQuoted]
  cases s.dropWhile isBlank <;> simp

/-- A name is `url` in some case if its three letters are, each for itself. No other character has a
small `u`, `r` or `l` as its lower form. -/
theorem lower_eq_url_iff {n : Text} : Text.lower n = "url".toList ↔
    ∃ u r l, n = [u, r, l] ∧ (u = 'u' ∨ u = 'U') ∧ (r = 'r' ∨ r = 'R') ∧ (l = 'l' ∨ l = 'L') := by
  constructor
  · intro h
    obtain ⟨u, r, l, rfl, hu, hr, hl⟩ : ∃ u r l, n = [u, r, l] ∧ Text.lowerChar u = 'u' ∧
        Text.lowerChar r = 'r' ∧ Text.lowerChar l = 'l' := by
      have hletters : n.map Text.lowerChar = ['u', 'r', 'l'] := h
      rcases n with - | ⟨u, - | ⟨r, - | ⟨l, n⟩⟩⟩
      · cases hletters
      · simp at hletters
      · simp at hletters
      · obtain ⟨hu, hr, hl, rfl⟩ : Text.lowerChar u = 'u' ∧ Text.lowerChar r = 'r' ∧
            Text.lowerChar l = 'l' ∧ n = [] := by simpa using hletters
        exact ⟨u, r, l, rfl, hu, hr, hl⟩
    -- a letter and the one 32 places before it
    have hcase {c d e : Char} (h : Text.lowerChar c = d) (hd : d ≠ 'k')
        (he : e.toNat + 32 = d.toNat) : c = d ∨ c = e := by
      rcases Text.lowerChar_cases c with ⟨-, hk⟩ | ⟨-, hnat⟩ | hsame
      · exact absurd (h.symm.trans hk) hd
      · rw [h] at hnat
        exact .inr (Char.toNat_inj.1 (by omega))
      · exact .inl (hsame.symm.trans h)
    exact ⟨u, r, l, rfl, hcase hu (by decide) rfl, hcase hr (by decide) rfl,
      hcase hl (by decide) rfl⟩
  · rintro ⟨u, r, l, rfl, hu, hr, hl⟩
    rcases hu with rfl | rfl <;> rcases hr with rfl | rfl <;> rcases hl with rfl | rfl <;> decide

/-! ### A step that fails -/

/-- A step fails only where something endless starts, and its error says what that is. Numbers and
single characters have an end everywhere. -/
theorem endless_of_next {c : Char} {s : Text} {f : Fault} (h : next c s = .error f) :
    Endless f.message (c :: s) := by
  rcases next_error_cases h with ⟨rfl, rfl, t, rfl, hnone⟩ | ⟨rfl, hquote, hnone⟩ | hread
  · exact .comment ((takeComment_eq_none_iff t).1 hnone)
  · exact .string hquote ((takeThrough_eq_none_iff (plain_of_isQuote hquote).2.2.1 s).1 hnone)
  · -- no number lacks an end, and of the words only those that open a `url(`
    obtain ⟨rfl, n, r, hname, ⟨hlower, r', hr, hquoted⟩, hnone⟩ := readWord_error_cases hread
    cases hr
    obtain ⟨u, r', l, rfl, hu, hr, hl⟩ := lower_eq_url_iff.1 hlower
    rw [← append_of_takeName hname]
    exact .url hu hr hl ((startsQuoted_eq_false_iff r).1 hquoted)
      ((takeThrough_eq_none_iff (by decide) r).1 hnone)

/-- Where something endless starts, a step fails with the error that says so. For a string and a
comment the first characters decide; for `url(` the tests in front of the one for words have to fail
first. -/
theorem Endless.exists_next {m rest : Text} (h : Endless m rest) :
    ∃ f c s, m = Fault.message f ∧ rest = c :: s ∧ next c s = .error f := by
  cases h with
  | @string q s hq hend =>
      refine ⟨.unterminatedString, q, s, rfl, rfl, ?_⟩
      exact next_of_takeThrough_none hq
        ((takeThrough_eq_none_iff (plain_of_isQuote hq).2.2.1 s).2 hend)
  | @comment s hend =>
      refine ⟨.unterminatedComment, '/', '*' :: s, rfl, rfl, ?_⟩
      exact next_of_takeComment_none ((takeComment_eq_none_iff s).2 hend)
  | @url u r l s hu hr hl hquote hend =>
      refine ⟨.unterminatedUrl, u, r :: l :: '(' :: s, rfl, rfl, ?_⟩
      have hletters : isNameStart u = true ∧ isNameChar r = true ∧ isNameChar l = true ∧
          isDigit u = false ∧ isSign u = false ∧ u ≠ '.' := by
        rcases hu with rfl | rfl <;> rcases hr with rfl | rfl <;> rcases hl with rfl | rfl <;>
          decide
      obtain ⟨hu₁, hr₁, hl₁, hdigit, hsign, hpoint⟩ := hletters
      have hnumber : startsNumber (u :: r :: l :: '(' :: s) = false := by
        simp [startsNumber, startsFraction, hdigit, hsign, hpoint]
      have hbracket : startsName ('(' :: s) = false := by
        have : isNameChar '(' = false := by decide
        cases s <;> simp [startsName, startsEscape, this]
      -- the name is the three letters, for the bracket ends it
      have hname : takeName (u :: r :: l :: '(' :: s) = ([u, r, l], '(' :: s) := by
        rw [takeName_cons (isNameChar_of_isNameStart hu₁), takeName_cons hr₁, takeName_cons hl₁,
          takeName_eq_nil hbracket]
      have hopens : OpensUrl [u, r, l] ('(' :: s) :=
        ⟨lower_eq_url_iff.2 ⟨u, r, l, rfl, hu, hr, hl⟩, s, rfl,
          (startsQuoted_eq_false_iff s).2 hquote⟩
      rw [next_of_startsIdent hnumber (by simp [startsIdent, hu₁]),
        readWord_endless hname hopens ((takeThrough_eq_none_iff (by decide) s).2 hend)]

/-- The message of an error tells which error it is. -/
theorem Fault.message_injective {f g : Fault} (h : f.message = g.message) : f = g := by
  cases f <;> cases g <;> first | rfl | exact absurd h (by decide +kernel)

/-- **A step fails** just where something endless starts, and says what it is. The faults and the
constructors of `Endless` have the same messages, so neither direction loses anything. -/
theorem next_eq_error_iff {c : Char} {s : Text} {f : Fault} :
    next c s = .error f ↔ Endless f.message (c :: s) := by
  refine ⟨endless_of_next, fun h => ?_⟩
  obtain ⟨g, d, t, hmessage, hrest, hnext⟩ := h.exists_next
  obtain ⟨rfl, rfl⟩ := List.cons.inj hrest
  rw [hnext, Fault.message_injective hmessage]

/-! ### Where reading stops -/

/-- The piece has an end: it is a run of blanks, a complete comment, or a token on its own. -/
def Piece.IsComplete : Piece → Prop
  | .blanks w => w ≠ [] ∧ ∀ c ∈ w, isBlank c = true
  | .comment w => IsComment w
  | .lexeme k v => IsSingle k v

/-- Each piece of a source has an end, whether or not the rest of the source can be read. -/
theorem isComplete_of_mem_cut {s : Text} {p : Piece} (hp : p ∈ (cut s).pieces) : p.IsComplete := by
  cases p with
  | blanks w => exact isRead_of_mem_cut hp
  | comment w => exact isRead_of_mem_cut hp
  | lexeme k v =>
      exact isSingle_of_mem_cut hp

/-- A single token is all that its text reads as, apart from the end of the source behind it. -/
theorem IsSingle.tokenize_eq {k : Kind} {s : Text} (h : IsSingle k s) :
    tokenize s = .ok [⟨k, s, .start⟩, ⟨.eof, [], .after .start s⟩] := by
  obtain ⟨hstuck, hpieces⟩ := words_eq_some_iff.1 h
  exact tokenize_eq_ok_iff.2 ⟨hstuck, by rw [← hpieces]; rfl⟩

/-- The text of a gap is a space, and that is a single gap. -/
theorem isSingle_space : IsSingle .whitespace [' '] :=
  words_eq_some_iff.2 (by decide +kernel)

/-- **Each token reads the same on its own**: the text of a token, taken out of its source, is that
one token and the end. What follows a token in its source has decided where the token ends, so this
says that the end of a text stops no token earlier. -/
theorem tokenize_value (source : Text) (ts : List Token) (h : tokenize source = .ok ts) (t : Token)
    (ht : t ∈ ts) (hkind : t.kind ≠ .eof) :
    tokenize t.value = .ok [⟨t.kind, t.value, .start⟩, ⟨.eof, [], .after .start t.value⟩] := by
  obtain ⟨-, rfl⟩ := tokenize_eq_ok_iff.1 h
  rcases List.mem_append.1 ht with hmem | hend
  · -- a gap has the text of a space; every other token is a piece of the source
    rcases mem_ofPieces hmem with ⟨loc, rfl⟩ | ⟨loc, k, v, rfl, hpiece⟩
    · exact isSingle_space.tokenize_eq
    · exact IsSingle.tokenize_eq (isComplete_of_mem_cut hpiece)
  · obtain rfl := List.mem_singleton.1 hend
    exact absurd rfl hkind

/-- The tokens of `1e٣x/**/url('a')`. The digit behind the exponent mark is an Arabic one, which
could start a name too, the comment leaves a space, and `url` is an identifier because of the quote
that follows it. -/
def mixedTokens : List Token :=
  [⟨.dimension, "1e\u0663x", .start⟩, ⟨.whitespace, " ", ⟨4, 1, 5⟩⟩, ⟨.ident, "url", ⟨8, 1, 9⟩⟩,
    ⟨.lparen, "(", ⟨11, 1, 12⟩⟩, ⟨.string, "'a'", ⟨12, 1, 13⟩⟩, ⟨.rparen, ")", ⟨15, 1, 16⟩⟩,
    ⟨.eof, [], ⟨16, 1, 17⟩⟩]

/-- A dimension and an identifier whose ends depend on what follows them. -/
theorem tokenize_value_mixed :
    tokenize "1e\u0663x/**/url('a')" = .ok mixedTokens ∧
      tokenize "1e\u0663x" = .ok [⟨.dimension, "1e\u0663x", .start⟩, ⟨.eof, [], ⟨4, 1, 5⟩⟩] ∧
      tokenize "url" = .ok [⟨.ident, "url", .start⟩, ⟨.eof, [], ⟨3, 1, 4⟩⟩] := by
  have h : tokenize "1e\u0663x/**/url('a')" = .ok mixedTokens :=
    tokenize_eq_ok_iff.2 (by decide +kernel)
  exact ⟨h,
    tokenize_value _ _ h ⟨.dimension, "1e\u0663x", .start⟩ (by simp [mixedTokens]) (by simp),
    tokenize_value _ _ h ⟨.ident, "url", ⟨8, 1, 9⟩⟩ (by simp [mixedTokens]) (by simp)⟩

/-- Where the pieces stop, a step fails. -/
theorem exists_next_of_stuck {s rest : Text} {f : Fault} (h : (cut s).stuck = some (f, rest)) :
    ∃ c t, rest = c :: t ∧ next c t = .error f := by
  fun_induction cut s with
  | case1 => cases h
  | case2 c t g hnext =>
      cases h
      exact ⟨c, t, rfl, hnext⟩
  | case3 c t p tail hnext ih => exact ih h

/-- The source is read up to `rest`, where the error `e` is raised. -/
structure StuckAt (source : Text) (e : LexError) (front : List Piece) (rest : Text) : Prop where
  source_eq : source = front.flatMap Piece.text ++ rest
  /-- What stands in front is what the source reads as, and all of it is complete. -/
  pieces : (cut source).pieces = front
  complete : ∀ p ∈ front, p.IsComplete
  /-- What starts there has no end. -/
  endless : Endless e.fault.message rest
  /-- The place of the error is where it starts. -/
  place : e.loc = Location.start.after (front.flatMap Piece.text)
  line : e.loc.line = 1 + (front.flatMap Piece.text).count '\n'
  column : ∃ k, IsLineStart (front.flatMap Piece.text) k ∧
    e.loc.column = (front.flatMap Piece.text).length - k + 1

/-- Where the pieces stop, something endless starts behind complete pieces, and the place of the
error is the place where it starts. -/
theorem stuckAt_of_stuck {source rest : Text} {f : Fault}
    (h : (cut source).stuck = some (f, rest)) :
    StuckAt source ⟨f, .after .start ((cut source).pieces.flatMap Piece.text)⟩ (cut source).pieces
      rest := by
  have happ := cut_append source
  rw [h] at happ
  obtain ⟨c, t, rfl, hnext⟩ := exists_next_of_stuck h
  refine ⟨happ.symm, rfl, fun p => isComplete_of_mem_cut, next_eq_error_iff.1 hnext, rfl, ?_, ?_⟩
  · rw [Location.line_after]
    rfl
  · exact exists_column _

/-- What is endless is where the pieces stop, since it is not empty and no piece starts there. The
error is determined by its message, so the two accounts of it agree. -/
theorem StuckAt.stuck {source rest : Text} {e : LexError} {front : List Piece}
    (h : StuckAt source e front rest) : (cut source).stuck = some (e.fault, rest) := by
  obtain ⟨f, c, t, hmessage, rfl, hnext⟩ := h.endless.exists_next
  have hleft : ((cut source).stuck.map Prod.snd).getD [] = c :: t := by
    have happ := cut_append source
    rw [h.pieces] at happ
    exact List.append_cancel_left (happ.trans h.source_eq)
  cases hstuck : (cut source).stuck with
  | none =>
      -- then the pieces are all of the source, but something is left
      rw [hstuck] at hleft
      cases hleft
  | some stuck =>
      obtain ⟨g, rest⟩ := stuck
      obtain ⟨d, u, rfl, hnext'⟩ := exists_next_of_stuck hstuck
      rw [hstuck] at hleft
      obtain ⟨rfl, rfl⟩ : d = c ∧ u = t := by simpa using hleft
      rw [hnext] at hnext'
      cases hnext'
      rw [Fault.message_injective hmessage]

/-- **Errors of the tokenizer.** One is raised just if something that has no end starts behind
complete pieces, and it points at that start. -/
theorem tokenize_eq_error_iff {source : Text} {e : LexError} :
    tokenize source = .error e ↔ ∃ front rest, StuckAt source e front rest := by
  constructor
  · intro h
    rw [tokenize] at h
    cases hstuck : (cut source).stuck with
    | none =>
        rw [hstuck] at h
        cases h
    | some stuck =>
        obtain ⟨f, rest⟩ := stuck
        rw [hstuck] at h
        cases h
        exact ⟨_, rest, stuckAt_of_stuck hstuck⟩
  · rintro ⟨front, rest, h⟩
    rw [tokenize, h.stuck]
    dsimp only
    rw [h.pieces, ← h.place]

end CssHints.Token
