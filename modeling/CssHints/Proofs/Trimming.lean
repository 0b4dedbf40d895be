import CssHints.Proofs.Cover
import CssHints.Proofs.Fidelity
import CssHints.Proofs.Plain

/-!
# `CssHints.Proofs.Trimming`: what trimming takes off a run of tokens

Selectors, values and preludes are texts of runs of tokens, trimmed at the two ends. To trim a text
is to take off blanks by character, and the tokenizer knows five blanks only. Two kinds of others
get into tokens: a blank outside the first 128 code points is a character of a name, and so is any
blank behind a backslash; five control characters stand for themselves.

A token with such a blank at one of its ends is frayed there (`FraysLeft`, `FraysRight`), and these
are all the ways to fray (`fraysLeft_of_next`, `fraysRight_of_next`). The text of a run is the run
without its outer gaps, token by token, unless the first or the last of the tokens that are left is
frayed on the outer side (`text_eq_concat_core_iff`). The texts in a tree are read off runs of
consecutive tokens, so this is what trimming does to each of them (`each_readOff`).
-/

set_option autoImplicit false

namespace CssHints.Text

/-- A number lies in a list of ranges if it lies in one of them. -/
theorem inRanges_eq_true {n : Nat} {rs : List (Nat × Nat)} :
    inRanges n rs = true ↔ ∃ r ∈ rs, r.1 ≤ n ∧ n ≤ r.2 := by
  simp [inRanges]

/-- A number lies in one only of two lists of ranges that do not meet. -/
theorem inRanges_eq_false {n : Nat} {rs qs : List (Nat × Nat)}
    (hapart : ∀ r ∈ rs, ∀ q ∈ qs, r.2 < q.1 ∨ q.2 < r.1) (h : inRanges n rs = true) :
    inRanges n qs = false := by
  obtain ⟨r, hr, hlo, hhi⟩ := inRanges_eq_true.1 h
  refine Bool.eq_false_iff.2 fun hq => ?_
  obtain ⟨q, hq, hlo', hhi'⟩ := inRanges_eq_true.1 hq
  have := hapart r hr q hq
  omega

/-- No digit is trimmed, of whatever script. -/
theorem isDigit_of_isTrimmed {c : Char} (h : isTrimmed c = true) : isDigit c = false := by
  have hwide : inRanges c.toNat digitRanges = false :=
    inRanges_eq_false (by decide +kernel) h
  have hlatin : inRanges c.toNat [(48, 57)] = false := inRanges_eq_false (by decide +kernel) h
  have hdigit : c.isDigit = false := by
    refine Bool.eq_false_iff.2 fun hd => ?_
    simp only [Char.isDigit, Bool.and_eq_true, decide_eq_true_eq, ge_iff_le,
      UInt32.le_iff_toNat_le] at hd
    rw [Bool.eq_false_iff] at hlatin
    exact hlatin (inRanges_eq_true.2 ⟨(48, 57), by simp, hd⟩)
  simp [isDigit, hdigit, hwide]

/-- Among the first 128 code points, the last one that is trimmed is the space. -/
theorem toNat_of_isTrimmed {c : Char} (h : isTrimmed c = true) : c.toNat ≤ 32 ∨ 0x7F < c.toNat := by
  simp [isTrimmed, inRanges, blankRanges] at h
  omega

/-- A text is left as it is just if it starts and ends with no blank. -/
theorem trim_eq_self_iff {s : Text} :
    trim s = s ↔ (∀ c ∈ s.head?, isTrimmed c = false) ∧ ∀ c ∈ s.getLast?, isTrimmed c = false := by
  constructor
  · intro h
    rw [← h]
    exact ⟨head?_trim s, getLast?_trim s⟩
  · rintro ⟨hhead, hlast⟩
    exact trim_eq_self hhead hlast

end CssHints.Text

namespace CssHints.Token

/-! ### Blanks inside tokens -/

/-- A blank that stands in names like a letter. -/
def isWideBlank (c : Char) : Bool := Text.isTrimmed c && 0x7F < c.toNat

/-- A control character that is trimmed, though no blank of a stylesheet. -/
def isControlBlank (c : Char) : Bool := c.toNat = 0x0B || (0x1C ≤ c.toNat && c.toNat ≤ 0x1F)

/-- The five control characters are trimmed. -/
theorem isTrimmed_of_isControlBlank {c : Char} (h : isControlBlank c = true) :
    Text.isTrimmed c = true := by
  simp [isControlBlank] at h
  simp [Text.isTrimmed, Text.inRanges, Text.blankRanges]
  omega

/-- What is trimmed is a blank of a stylesheet, or a blank of one of the two other kinds, which the
tokenizer takes for a character like any other. -/
theorem isTrimmed_cases {c : Char} (h : Text.isTrimmed c = true) :
    isBlank c = true ∨ isControlBlank c = true ∨ isWideBlank c = true := by
  by_cases hwide : 0x7F < c.toNat
  · exact .inr (.inr (by simp [isWideBlank, h, hwide]))
  by_cases hcontrol : isControlBlank c = true
  · exact .inr (.inl hcontrol)
  refine .inl ?_
  -- five of the code points up to the space are left
  have hn : c.toNat = 32 ∨ c.toNat = 9 ∨ c.toNat = 10 ∨ c.toNat = 13 ∨ c.toNat = 12 := by
    simp [Text.isTrimmed, Text.inRanges, Text.blankRanges] at h
    simp [isControlBlank] at hcontrol
    omega
  rw [← Char.ofNat_toNat c]
  rcases hn with hn | hn | hn | hn | hn <;> rw [hn] <;> decide

/-- A name character that is trimmed is no character in front of the hyphen, which is the first of
the name characters. -/
theorem toNat_of_isNameChar {c : Char} (h : isNameChar c = true) (ht : Text.isTrimmed c = true) :
    45 ≤ c.toNat := by
  delta isNameChar isNameStart Char.isAlpha Char.isUpper Char.isLower at h
  simp only [Text.isDigit_of_isTrimmed ht, Bool.or_eq_true, Bool.and_eq_true, decide_eq_true_eq,
    ge_iff_le, UInt32.le_iff_toNat_le, Bool.false_eq_true, or_false] at h
  rcases h with (((⟨hlo, -⟩ | ⟨hlo, -⟩) | rfl) | hwide) | rfl
  · exact Nat.le_trans (by decide) hlo
  · exact Nat.le_trans (by decide) hlo
  · decide
  · omega
  · decide

/-- A name character that is trimmed stands outside the first 128 code points. -/
theorem isWideBlank_of_isNameChar {c : Char} (h : isNameChar c = true)
    (ht : Text.isTrimmed c = true) : isWideBlank c = true := by
  have hlow := toNat_of_isNameChar h ht
  have hhigh := Text.toNat_of_isTrimmed ht
  have : 0x7F < c.toNat := by omega
  simp [isWideBlank, ht, this]

/-- A name ends with a name character or with an escape. The second case matters because any
character can be escaped, also one that is trimmed. -/
theorem getLast?_takeName (s : Text) : ∀ c ∈ (takeName s).1.getLast?,
    isNameChar c = true ∨ ['\\', c] <:+ (takeName s).1 := by
  fun_induction takeName s with
  | case1 => simp
  | case2 d s hd ih =>
      intro c hc
      cases hn : (takeName s).1 with
      | nil =>
          obtain rfl : d = c := by simpa [hn] using hc
          exact .inl hd
      | cons e n =>
          rw [hn] at hc ih
          rcases ih c (by simpa using hc) with hname | hescape
          · exact .inl hname
          · exact .inr (hescape.trans (List.suffix_cons d _))
  | case3 => simp
  -- an escape: the name ends with it, or with what is taken behind it
  | case4 d hd e t hescape ih =>
      intro c hc
      cases hn : (takeName t).1 with
      | nil =>
          obtain rfl : e = c := by simpa [hn] using hc
          rw [hescape.1]
          exact .inr (List.suffix_refl _)
      | cons f n =>
          rw [hn] at hc ih
          rcases ih c (by simpa using hc) with hname | hescape
          · exact .inl hname
          · exact .inr (hescape.trans ⟨[d, e], rfl⟩)
  | case5 => simp

/-! ### Frayed tokens -/

/-- The token is one control character that is trimmed. -/
def IsControl (t : Token) : Prop :=
  t.kind = .delim ∧ ∃ c, t.value = [c] ∧ isControlBlank c = true

/-- The classes of tokens that end with a name. -/
def nameKinds : List Kind := [.ident, .atKeyword, .hash, .dimension]

/-- Trimming takes something off the start of the token: an identifier starts with a blank, or the
token is a control character. -/
def FraysLeft (t : Token) : Prop :=
  (t.kind = .ident ∧ ∃ c ∈ t.value.head?, isWideBlank c = true) ∨ t.IsControl

/-- Trimming takes something off the end of the token: its name ends with a blank, outside the first
128 code points or behind a backslash, or the token is a control character. -/
def FraysRight (t : Token) : Prop :=
  (t.kind ∈ nameKinds ∧ ∃ c ∈ t.value.getLast?, Text.isTrimmed c = true ∧
    (isWideBlank c = true ∨ ['\\', c] <:+ t.value)) ∨ t.IsControl

/-- Trimming takes something off the start of a token that is frayed there. -/
theorem FraysLeft.isTrimmed {t : Token} (h : t.FraysLeft) :
    ∃ c ∈ t.value.head?, Text.isTrimmed c = true := by
  rcases h with ⟨-, c, hc, hwide⟩ | ⟨-, c, hv, hcontrol⟩
  · simp only [isWideBlank, Bool.and_eq_true] at hwide
    exact ⟨c, hc, hwide.1⟩
  · exact ⟨c, by simp [hv], isTrimmed_of_isControlBlank hcontrol⟩

/-- Trimming takes something off the end of a token that is frayed there. -/
theorem FraysRight.isTrimmed {t : Token} (h : t.FraysRight) :
    ∃ c ∈ t.value.getLast?, Text.isTrimmed c = true := by
  rcases h with ⟨-, c, hc, htrim, -⟩ | ⟨-, c, hv, hcontrol⟩
  · exact ⟨c, hc, htrim⟩
  · exact ⟨c, by simp [hv], isTrimmed_of_isControlBlank hcontrol⟩

/-- A character that stands for itself is trimmed only if it is a control character. A blank beyond
the first 128 code points would start a name. -/
theorem isControl_of_startsSign {c : Char} {s : Text} (h : StartsSign c s)
    (ht : Text.isTrimmed c = true) (loc : Location) : IsControl ⟨.ofChar c, [c], loc⟩ := by
  rcases isTrimmed_cases ht with hblank | hcontrol | hwide
  · rw [h.blank] at hblank
    cases hblank
  · refine ⟨?_, c, rfl, hcontrol⟩
    show Kind.ofChar c = .delim
    unfold Kind.ofChar
    split <;> first | rfl | exact absurd ht (by decide)
  · -- a name would have been read
    have hident := h.ident
    simp only [isWideBlank, Bool.and_eq_true] at hwide
    simp [startsIdent, isNameStart, hwide.2] at hident

/-- **The start of a lexeme.** If it is trimmed, the lexeme is frayed there. Of the readers only
that of words and that of single characters can start with such a character. -/
theorem fraysLeft_of_next {c : Char} {s v rest : Text} {k : Kind} (loc : Location)
    (h : next c s = .ok (.lexeme k v, rest)) (ht : Text.isTrimmed c = true) :
    FraysLeft ⟨k, v, loc⟩ := by
  have hne (d : Char) (hd : Text.isTrimmed d = false) : c ≠ d := by
    rintro rfl
    rw [ht] at hd
    cases hd
  have hhead : v.head? = some c := by
    obtain ⟨a, ha, -⟩ := exists_cons_of_next h
    exact congrArg List.head? ha
  rcases next_lexeme_cases h with ⟨hquote, -⟩ | ⟨hnumber, -⟩ | ⟨-, hident, hread⟩ | ⟨hsign, hread⟩
  · simp [isQuote, hne '\x22' (by decide), hne '\x27' (by decide)] at hquote
  · -- a number starts with a digit, a point or a sign
    simp [startsNumber, startsFraction, isSign, Text.isDigit_of_isTrimmed ht, hne '.' (by decide),
      hne '+' (by decide), hne '-' (by decide)] at hnumber
  · -- of the characters that start an identifier, those outside the first 128 code points are left
    have hwide : isWideBlank c = true := by
      refine isWideBlank_of_isNameChar ?_ ht
      have hstart : isNameStart c = true := by
        cases s <;> simpa [startsIdent, startsEscape, hne '\\' (by decide), hne '-' (by decide)]
          using hident
      simp [isNameChar, hstart]
    rcases readWord_cases hread with ⟨rfl, -⟩ | ⟨-, n, body, rfl, -, ⟨hurl, -, -⟩⟩
    · exact .inl ⟨rfl, c, hhead, hwide⟩
    · -- a letter of `url` is no blank, in whatever case
      cases n with
      | nil => cases hurl
      | cons d n =>
          obtain rfl : d = c := by simpa using hhead
          have hu : Text.lowerChar d = 'u' := (List.cons.inj hurl).1
          rw [lowerChar_of_isTrimmed ht] at hu
          exact absurd hu (hne 'u' (by decide))
  · -- neither of the two signs that start a name is a blank
    rcases readSign_cases hread with ⟨-, hc, -⟩ | ⟨-, hc, -⟩ | ⟨rfl, rfl, -⟩
    · exact absurd hc (hne '@' (by decide))
    · exact absurd hc (hne '#' (by decide))
    · exact .inr (isControl_of_startsSign hsign ht loc)

/-- No character of a numeral is trimmed. -/
theorem isTrimmed_of_mem_takeNumeral {s n z : Text} (h : takeNumeral s = (n, z))
    (hs : startsNumber s = true) : ∀ d ∈ n, Text.isTrimmed d = false := by
  intro d hd
  rcases mem_of_takeNumeral h hs hd with hdigit | hsign | rfl | he
  · refine Bool.eq_false_iff.2 fun ht => ?_
    rw [Text.isDigit_of_isTrimmed ht] at hdigit
    cases hdigit
  · rcases eq_of_isSign hsign with rfl | rfl <;> decide
  · decide
  · rcases he with rfl | rfl <;> decide

/-- A token that ends with a name is frayed if its last character is trimmed. -/
theorem fraysRight_of_takeName {k : Kind} (hk : k ∈ nameKinds) {a s n rest : Text} (loc : Location)
    (hn : takeName s = (n, rest)) (hne : n ≠ []) {d : Char} (hd : d ∈ (a ++ n).getLast?)
    (ht : Text.isTrimmed d = true) : FraysRight ⟨k, a ++ n, loc⟩ := by
  refine .inl ⟨hk, d, hd, ht, ?_⟩
  have hlast : d ∈ (takeName s).1.getLast? := by
    rw [hn]
    simpa [List.getLast?_append, List.getLast?_eq_some_getLast hne] using hd
  rcases getLast?_takeName s d hlast with hname | hescape
  · exact .inl (isWideBlank_of_isNameChar hname ht)
  · rw [hn] at hescape
    exact .inr (hescape.trans (List.suffix_append a n))

/-- **The end of a lexeme.** If it is trimmed, the lexeme is frayed there. What does not end with a
name ends with a quote, a bracket, a percent sign or a digit, or is a single character. -/
theorem fraysRight_of_next {c : Char} {s v rest : Text} {k : Kind} (loc : Location)
    (h : next c s = .ok (.lexeme k v, rest)) {d : Char} (hd : d ∈ v.getLast?)
    (ht : Text.isTrimmed d = true) : FraysRight ⟨k, v, loc⟩ := by
  have hne (e : Char) (he : Text.isTrimmed e = false) : d ≠ e := by
    rintro rfl
    rw [ht] at he
    cases he
  have hname {s n rest : Text} (hn : takeName s = (n, rest)) (hs : startsName s = true) :
      n ≠ [] := by
    have := takeName_ne_nil hs
    rwa [hn] at this
  rcases next_lexeme_cases h with ⟨hquote, -, body, rfl, hbody⟩ | ⟨hnumber, hread⟩ |
    ⟨-, hident, hread⟩ | ⟨hsign, hread⟩
  · -- a string ends with its quote
    rw [List.getLast?_cons, getLast?_takeThrough hbody] at hd
    obtain rfl : c = d := by simpa using hd
    simp [isQuote, hne '\x22' (by decide), hne '\x27' (by decide)] at hquote
  · obtain ⟨n, z, hn, hcases⟩ := readNumber_cases hread
    rcases hcases with ⟨-, rfl, -⟩ | ⟨rfl, -, hunit, u, rfl, hu⟩ | ⟨-, rfl, -⟩
    · exact absurd (by simpa using hd.symm) (hne '%' (by decide))
    · exact fraysRight_of_takeName (by decide) loc hu
        (hname hu (startsName_of_startsIdent hunit)) hd ht
    · have := isTrimmed_of_mem_takeNumeral hn hnumber d (List.mem_of_getLast? hd)
      rw [ht] at this
      cases this
  · rcases readWord_cases hread with ⟨rfl, hn, -⟩ | ⟨-, n, body, rfl, -, hurl⟩
    · exact @fraysRight_of_takeName _ (by decide) [] _ _ _ loc hn
        (hname hn (startsName_of_startsIdent hident)) _ hd ht
    · rw [List.getLast?_append, List.getLast?_cons, getLast?_takeThrough hurl.closed] at hd
      exact absurd (by simpa using hd.symm) (hne ')' (by decide))
  · rcases readSign_cases hread with ⟨rfl, -, hstart, n, rfl, hn⟩ | ⟨rfl, -, hstart, n, rfl, hn⟩ |
      ⟨rfl, rfl, -⟩
    · exact @fraysRight_of_takeName _ (by decide) [c] _ _ _ loc hn
        (hname hn (startsName_of_startsIdent hstart)) _ hd ht
    · exact @fraysRight_of_takeName _ (by decide) [c] _ _ _ loc hn (hname hn hstart) _ hd ht
    · obtain rfl : c = d := by simpa using hd
      exact .inr (isControl_of_startsSign hsign ht loc)

/-! ### Runs -/

section Runs

variable {source : Text} {all run : List Token}

/-- The ends of a token of a source that is no gap: there is a first and a last character, and the
token is frayed just where that one is trimmed. -/
theorem ends_of_mem_words (hwords : words source = some all) {t : Token} (ht : t ∈ all)
    (hk : t.kind ≠ .whitespace) :
    t.value ≠ [] ∧ (t.FraysLeft ↔ ∃ c ∈ t.value.head?, Text.isTrimmed c = true) ∧
      (t.FraysRight ↔ ∃ c ∈ t.value.getLast?, Text.isTrimmed c = true) := by
  obtain ⟨-, rfl⟩ := words_eq_some_iff.1 hwords
  rcases mem_ofPieces ht with ⟨loc, rfl⟩ | ⟨loc, k, v, rfl, hmem⟩
  · exact absurd rfl hk
  obtain ⟨c, s, rest, hnext⟩ := next_of_mem_cut hmem
  have hne : v ≠ [] := next_text_ne_nil hnext
  refine ⟨hne, ⟨FraysLeft.isTrimmed, ?_⟩, ⟨FraysRight.isTrimmed, ?_⟩⟩
  · rintro ⟨d, hd, htrim⟩
    obtain ⟨w, rfl⟩ : ∃ w, v = d :: w := List.head?_eq_some_iff.1 hd
    obtain ⟨rfl, -⟩ := List.cons.inj (show d :: (w ++ rest) = c :: s from next_append hnext)
    exact fraysLeft_of_next loc hnext htrim
  · rintro ⟨d, hd, htrim⟩
    exact fraysRight_of_next loc hnext hd htrim

/-- Behind its outer gaps the run starts with a token that is frayed on the left, or ends with one
that is frayed on the right. -/
def Frayed (run : List Token) : Prop :=
  (∃ t ∈ (core run).head?, t.FraysLeft) ∨ ∃ t ∈ (core run).getLast?, t.FraysRight

/-- **What trimming takes off.** Just if the run is not frayed, its text is the run without whole
gaps. -/
theorem text_eq_concat_core_iff (hwords : words source = some all) (hrun : run <:+: all) :
    text run = concat (core run) ↔ ¬Frayed run := by
  have hcore : ∀ t ∈ core run, t ∈ all := fun t ht => hrun.subset ((core_isInfix run).subset ht)
  rw [← text_core fun t ht => genuine_of_mem_words hwords t (hrun.subset ht), text,
    Text.trim_eq_self_iff, Frayed, not_or]
  refine and_congr ?_ ?_
  · -- the first character is the first of the first token
    cases hts : core run with
    | nil => simp
    | cons t ts =>
        obtain ⟨hne, hleft, -⟩ := ends_of_mem_words hwords (hcore t (by simp [hts]))
          (head?_core run t (by simp [hts]))
        obtain ⟨c, v, hv⟩ := List.exists_cons_of_ne_nil hne
        simp [hleft, hv]
  · rcases List.eq_nil_or_concat (core run) with hnil | ⟨ts, t, hts⟩
    · simp [hnil]
    · rw [List.concat_eq_append] at hts
      obtain ⟨hne, -, hright⟩ := ends_of_mem_words hwords (hcore t (by simp [hts]))
        (getLast?_core run t (by simp [hts]))
      have hlast := List.getLast?_eq_some_getLast hne
      simp [hts, hright, concat, List.getLast?_append, hlast]

-- the blank belongs to the identifier, and is taken off without the backslash in front of it
example : text [⟨.ident, ['c', '\\', ' '], .start⟩] = ['c', '\\'] := by decide

/-- The first run between commas is a front part, so that a token put before it stays one. -/
theorem isInfix_of_splitAtCommas {depth : Nat} {ts first : List Token} {others : List (List Token)}
    (h : splitAtCommas depth ts = first :: others) : first <+: ts ∧ ∀ r ∈ others, r <:+: ts := by
  induction ts generalizing depth first others with
  | nil =>
      cases h
      exact ⟨List.prefix_refl _, by simp⟩
  | cons t ts ih =>
      have htail : ts <:+: t :: ts := (List.suffix_cons t ts).isInfix
      rw [splitAtCommas] at h
      split at h
      · -- at a comma the first run ends, and what was the first run of the rest is one of the
        -- others
        obtain ⟨rfl, rfl⟩ := List.cons.inj h
        obtain ⟨first, others, hsplit⟩ := List.exists_cons_of_ne_nil (splitAtCommas_ne_nil 0 ts)
        obtain ⟨hfront, hbehind⟩ := ih hsplit
        refine ⟨List.nil_prefix, ?_⟩
        rw [hsplit]
        intro r hr
        rcases List.mem_cons.1 hr with rfl | hr
        · exact hfront.isInfix.trans htail
        · exact (hbehind r hr).trans htail
      · obtain ⟨run, runs, hsplit⟩ :=
          List.exists_cons_of_ne_nil (splitAtCommas_ne_nil (groupDepth depth t) ts)
        obtain ⟨hfront, hbehind⟩ := ih hsplit
        rw [hsplit] at h
        obtain ⟨rfl, rfl⟩ := List.cons.inj h
        exact ⟨List.cons_prefix_cons.2 ⟨rfl, hfront⟩, fun r hr => (hbehind r hr).trans htail⟩

/-- Each run between commas is a stretch of the tokens. -/
theorem isInfix_of_mem_splitAtCommas {depth : Nat} {ts : List Token}
    (h : run ∈ splitAtCommas depth ts) : run <:+: ts := by
  obtain ⟨first, others, hsplit⟩ := List.exists_cons_of_ne_nil (splitAtCommas_ne_nil depth ts)
  obtain ⟨hfront, hbehind⟩ := isInfix_of_splitAtCommas hsplit
  rw [hsplit] at h
  rcases List.mem_cons.1 h with rfl | h
  · exact hfront.isInfix
  · exact hbehind run h

end Runs

end CssHints.Token

namespace CssHints

open Token (words tokenize text concat core Frayed splitAtCommas splitSelectors)
open Grammar (atHead declared)

/-! ### The texts of a tree -/

/-- The text `s` was read off the run, which stands among the tokens `ts`: it consists of the tokens
between the outer gaps, each of them whole, unless the run is frayed. -/
structure Token.ReadOff (ts run : List Token) (s : Text) : Prop where
  inside : run <:+: ts
  text_eq : s = text run
  whole : s = concat (core run) ↔ ¬Frayed run

/-- The run behind the colon of a declaration holds the tokens of its value: gaps stand in front of
them, and gaps or a mark of importance behind. This leaves no choice but for the gaps. -/
def Token.HoldsValue (run value : List Token) (important : Bool) : Prop :=
  ∃ gap last, run = gap ++ (value ++ last) ∧ (∀ t ∈ gap, t.kind = .whitespace) ∧
    if important then MarksImportant last else ∀ t ∈ last, t.kind = .whitespace

/-- Each text of a tree was read off a run: selectors off the runs between the commas of a prelude,
a value off what stands behind the colon of its declaration, without a mark of importance, and a
prelude off all of its tokens. -/
def Parts.readOff (ts : List Token) : Parts where
  selectors ss := ∃ pre, pre <:+: ts ∧ ss = splitSelectors pre ∧
    ∀ run ∈ splitAtCommas 0 pre, Token.ReadOff ts run (text run)
  declaration d := ∃ property ∈ ts, ∃ run, run <:+: ts ∧ declared property.value run = [d] ∧
    ∃ value, Token.HoldsValue run value d.important ∧ Token.ReadOff ts value d.value
  block head := ∃ keyword ∈ ts, ∃ pre, head = atHead keyword pre ∧ Token.ReadOff ts pre head.prelude
  statement head :=
    ∃ keyword ∈ ts, ∃ pre, head = atHead keyword pre ∧ Token.ReadOff ts pre head.prelude

/-- The tokens of a value are a stretch of the run behind the colon. -/
theorem Token.HoldsValue.isInfix {run value : List Token} {important : Bool}
    (h : Token.HoldsValue run value important) : value <:+: run := by
  obtain ⟨gap, last, rfl, -⟩ := h
  exact ⟨gap, last, List.append_assoc _ _ _⟩

/-- A declaration has the text of the tokens that its run holds, and it is important just if there
is a mark behind them. -/
theorem Token.exists_value_of_declared {property : Text} {run : List Token} {d : Declaration}
    (hd : d ∈ declared property run) :
    declared property run = [d] ∧
      ∃ value, Token.HoldsValue run value d.important ∧ d.value = text value := by
  rw [declared] at hd ⊢
  split at hd
  · cases hd
  · rename_i hne
    obtain rfl := List.mem_singleton.1 hd
    refine ⟨if_neg hne, ?_⟩
    rcases splitImportant_cases run with ⟨g, value, g', hsplit, hg, hg', hs⟩ |
      ⟨g, value, mark, hsplit, hg, hmark, hs⟩
    · rw [hs]
      exact ⟨value, ⟨g, g', hsplit, hg, hg'⟩, rfl⟩
    · rw [hs]
      exact ⟨value, ⟨g, mark, hsplit, hg, hmark⟩, rfl⟩

/-- **Trimming and tokens.** Each selector, value and prelude in the tree of a source is made up of
whole consecutive tokens, with nothing taken off but whole gaps, just if the run that it was read
off is not frayed. -/
theorem each_readOff {source : Text} {ts : List Token} {sheet : Stylesheet}
    (htokens : tokenize source = .ok ts) (h : Stylesheet.ofSource source = .ok sheet) :
    Stylesheet.Each (Parts.readOff ts) sheet := by
  have hwords : words source = some ts.dropLast := by rw [words, htokens]
  have hfront : ts.dropLast <+: ts := List.dropLast_prefix ts
  -- whatever stretch of the tokens a text is read off, trimming does to it what is said of a run
  have hread {run : List Token} (hrun : run <:+: ts.dropLast) : Token.ReadOff ts run (text run) :=
    ⟨hrun.trans hfront.isInfix, rfl, Token.text_eq_concat_core_iff hwords hrun⟩
  refine each_of_ofSource hwords h ⟨?_, ?_, ?_, ?_⟩
  · intro pre _ hpre _
    refine ⟨pre, hpre.trans hfront.isInfix, rfl, ?_⟩
    exact fun run hrun => hread ((Token.isInfix_of_mem_splitAtCommas hrun).trans hpre)
  · intro property hproperty _ run hrun _ d hd
    obtain ⟨hdeclared, value, hvalue, htext⟩ := Token.exists_value_of_declared hd
    refine ⟨property, hfront.subset hproperty, run, hrun.trans hfront.isInfix, hdeclared, value,
      hvalue, ?_⟩
    rw [htext]
    exact hread (hvalue.isInfix.trans hrun)
  · exact fun keyword hkeyword _ pre hpre _ =>
      ⟨keyword, hfront.subset hkeyword, pre, rfl, hread hpre⟩
  · exact fun keyword hkeyword _ pre hpre _ =>
      ⟨keyword, hfront.subset hkeyword, pre, rfl, hread hpre⟩

/-- The tokens of a rule whose value is one identifier that ends with an escaped blank. -/
def escapedBlankTokens : List Token :=
  [⟨.ident, ['a'], ⟨0, 1, 1⟩⟩, ⟨.lbrace, ['\x7b'], ⟨1, 1, 2⟩⟩, ⟨.ident, ['b'], ⟨2, 1, 3⟩⟩,
    ⟨.colon, [':'], ⟨3, 1, 4⟩⟩, ⟨.ident, ['c', '\\', ' '], ⟨4, 1, 5⟩⟩,
    ⟨.rbrace, ['\x7d'], ⟨7, 1, 8⟩⟩, ⟨.eof, [], ⟨8, 1, 9⟩⟩]

/-- The value ends with an escaped blank, which is taken off. What is left is the text of no run of
consecutive tokens: only one token has the backslash, and the blank comes with it. -/
theorem each_readOff_escapedBlank :
    tokenize ['a', '\x7b', 'b', ':', 'c', '\\', ' ', '\x7d'] = .ok escapedBlankTokens ∧
      Stylesheet.ofSource ['a', '\x7b', 'b', ':', 'c', '\\', ' ', '\x7d'] =
        .ok [.rule ⟨[['a']], [⟨['b'], ['c', '\\'], false⟩]⟩] ∧
      Stylesheet.Each (Parts.readOff escapedBlankTokens)
        [.rule ⟨[['a']], [⟨['b'], ['c', '\\'], false⟩]⟩] ∧
      ∀ run, run <:+: escapedBlankTokens → concat run ≠ ['c', '\\'] := by
  have htokens : tokenize ['a', '\x7b', 'b', ':', 'c', '\\', ' ', '\x7d'] =
      .ok escapedBlankTokens := Token.tokenize_eq_ok_iff.2 (by decide +kernel)
  refine ⟨htokens, ofSource_escapedBlank, each_readOff htokens ofSource_escapedBlank, ?_⟩
  intro run hrun hconcat
  have hmem : '\\' ∈ concat run := by simp [hconcat]
  obtain ⟨t, ht, hslash⟩ := List.mem_flatMap.1 hmem
  have hblank : ∀ t ∈ escapedBlankTokens, '\\' ∈ t.value → ' ' ∈ t.value := by decide
  have hspace : ' ' ∈ concat run := List.mem_flatMap.2 ⟨t, ht, hblank t (hrun.subset ht) hslash⟩
  simp [hconcat] at hspace

end CssHints
