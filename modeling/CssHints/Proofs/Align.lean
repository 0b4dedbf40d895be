import CssHints.Proofs.ReadBack
import CssHints.Proofs.Seam

/-!
# `CssHints.Proofs.Align`: tokens against the text they were cut from

A written text is known as a row of parts with signs between them, and its tokens are known as
runs with marks between them. This module says when a sign and a mark are the same character, and
so the run before the mark was cut from the part before the sign.

The places are compared by `ink`, the characters that trimming never takes off. Tokens keep the ink
of their text (`Cuts.ink_concat`). So a run with as much ink as a part ends where the part ends,
if what follows is ink on both sides (`append_inj_of_ink`). Then the part alone has the tokens of
the run, and its end is no place for an escape (`Cuts.split`): the pieces have a seam there, and
`cut_of_append_separator` applies.
-/

set_option autoImplicit false

namespace CssHints.Token

/-! ### Ink -/

/-- The characters of a text that trimming never takes off. -/
def ink (s : Text) : Text := s.filter fun c => !Text.isTrimmed c

/-- The empty text has no ink. -/
@[simp] theorem ink_nil : ink [] = [] := rfl

/-- Ink in a row is ink. -/
@[simp] theorem ink_append (s t : Text) : ink (s ++ t) = ink s ++ ink t := List.filter_append ..

/-- A character that is never trimmed is ink. -/
theorem ink_cons_of_not_isTrimmed {c : Char} (hc : Text.isTrimmed c = false) (s : Text) :
    ink (c :: s) = c :: ink s := by
  simp [ink, hc]

/-- A text of characters that are trimmed has no ink. -/
theorem ink_eq_nil {s : Text} (hs : ∀ c ∈ s, Text.isTrimmed c = true) : ink s = [] := by
  rw [ink, List.filter_eq_nil_iff]
  intro c hc
  simp [hs c hc]

/-- Blanks have no ink. -/
theorem ink_blanks {w : Text} (hw : ∀ c ∈ w, isBlank c = true) : ink w = [] :=
  ink_eq_nil fun c hc => isTrimmed_of_isBlank (hw c hc)

/-- Trimming takes off no ink. -/
@[simp] theorem ink_trim (s : Text) : ink (Text.trim s) = ink s := by
  obtain ⟨a, b, hs, ha, hb⟩ := Text.exists_blanks_trim s
  have h := congrArg ink hs
  rw [ink_append, ink_append, ink_eq_nil ha, ink_eq_nil hb, List.nil_append, List.append_nil] at h
  exact h.symm

/-- The text of a run has the ink of its tokens. -/
@[simp] theorem ink_text (ts : List Token) : ink (text ts) = ink (concat ts) := ink_trim _

/-- Gaps have no ink. -/
theorem ink_spaces {ts : List Token} (hts : ∀ t ∈ ts, Genuine t)
    (hk : ∀ t ∈ ts, t.kind = .whitespace) : ink (concat ts) = [] :=
  ink_eq_nil (isTrimmed_of_mem_concat hts hk)

/-- Two front parts of a text with as much ink are the same, if ink follows both. Without the
condition on what follows, one of them could hold more blanks at its end. -/
theorem append_inj_of_ink {a b x y : Text} {c d : Char} (hc : Text.isTrimmed c = false)
    (hd : Text.isTrimmed d = false) (hink : (ink a).length = (ink b).length)
    (h : a ++ c :: x = b ++ d :: y) : a = b ∧ c = d ∧ x = y := by
  induction a generalizing b with
  -- the shorter part ends where the longer one has more ink
  | nil =>
      cases b with
      | nil => simpa using h
      | cons e b =>
          obtain ⟨rfl, -⟩ : c = e ∧ x = b ++ d :: y := by simpa using h
          rw [ink_cons_of_not_isTrimmed hc] at hink
          simp at hink
  | cons e a ih =>
      cases b with
      | nil =>
          obtain ⟨rfl, -⟩ : e = d ∧ a ++ c :: x = y := by simpa using h
          rw [ink_cons_of_not_isTrimmed hd] at hink
          simp at hink
      | cons f b =>
          obtain ⟨rfl, hrest⟩ : e = f ∧ a ++ c :: x = b ++ d :: y := by simpa using h
          have hlen : (ink a).length = (ink b).length := by
            by_cases he : Text.isTrimmed e = true
            · simpa [ink, he] using hink
            · simpa [ink, he] using hink
          obtain ⟨rfl, hsign, htail⟩ := ih hlen hrest
          exact ⟨rfl, hsign, htail⟩

/-! ### The text of tokens -/

/-- The pieces behind a place of a text are those of the text from there on. The tokenizer keeps no
state between pieces, so a source can be taken up at any seam. -/
theorem exists_cut_of_append {s : Text} {ps qs : List Piece} (h : (cut s).pieces = ps ++ qs) :
    ∃ r, s = ps.flatMap Piece.text ++ r ∧ cut r = ⟨qs, (cut s).stuck⟩ := by
  induction ps generalizing s with
  | nil =>
      refine ⟨s, rfl, ?_⟩
      rw [List.nil_append] at h
      rw [← h]
  | cons p ps ih =>
      obtain ⟨c, t, rest, rfl, hnext, hrest⟩ := exists_next_of_cut h
      obtain ⟨r, hr, hcut⟩ := ih (congrArg Cut.pieces hrest)
      refine ⟨r, ?_, ?_⟩
      · rw [List.flatMap_cons, List.append_assoc, ← hr, next_append hnext]
      · rw [hcut, hrest]

/-- Without comments a piece is a run of blanks or a lexeme that starts with no blank. So the ink of
a text shows where a piece starts. -/
theorem piece_cases {s : Text} {p : Piece} (hs : NoComment s) (hp : p ∈ (cut s).pieces) :
    (∃ w, p = .blanks w ∧ ∀ c ∈ w, isBlank c = true) ∨
    ∃ k v, p = .lexeme k v ∧ k ≠ .whitespace ∧ Inked v := by
  obtain ⟨c, t, rest, hnext⟩ := next_of_mem_cut hp
  cases p with
  | blanks w =>
      obtain ⟨v, rfl, -, hw, -⟩ := blanks_of_next hnext
      exact .inl ⟨_, rfl, hw⟩
  | comment w => exact absurd hp (hs _)
  | lexeme k v =>
      obtain ⟨a, ha, -⟩ := exists_cons_of_next hnext
      exact .inr ⟨k, v, rfl, (kind_of_mem_cut hp).1, c, a, ha, not_isBlank_of_next hnext⟩

/-- The tokens of a text can be split only where the text can: each token is one piece, so a split
of the tokens is a split of the pieces. -/
theorem Cuts.exists_append {s : Text} {ts us : List Token} (h : Cuts s (ts ++ us)) :
    ∃ ps r, s = ps.flatMap Piece.text ++ r ∧ (cut s).pieces = ps ++ (cut r).pieces ∧
      ps.map Piece.token = ts ∧ Cuts r us := by
  obtain ⟨ps, qs, hpieces, hps, hqs⟩ := List.map_eq_append_iff.1 h.tokens
  obtain ⟨r, hr, hcut⟩ := exists_cut_of_append hpieces
  refine ⟨ps, r, hr, by rw [hcut, hpieces], hps, ⟨by rw [hcut, h.stuck], ?_, by rw [hcut, hqs]⟩⟩
  intro w hw
  rw [hcut] at hw
  refine h.noComment w ?_
  rw [hpieces]
  exact List.mem_append_right _ hw

/-- The pieces of tokens have the ink of the tokens. A run of blanks and the space that stands for
it have none, and a lexeme is its own text. -/
theorem ink_flatMap_text {s : Text} (hs : NoComment s) {ps : List Piece}
    (hps : ∀ p ∈ ps, p ∈ (cut s).pieces) :
    ink (ps.flatMap Piece.text) = ink (concat (ps.map Piece.token)) := by
  induction ps with
  | nil => rfl
  | cons p ps ih =>
      rw [List.flatMap_cons, List.map_cons, concat_cons, ink_append, ink_append,
        ih fun q hq => hps q (List.mem_cons_of_mem _ hq)]
      rcases piece_cases hs (hps p List.mem_cons_self) with ⟨w, rfl, hw⟩ | ⟨k, v, rfl, -⟩
      · rw [show ink (Piece.blanks w).text = [] from ink_blanks hw]
        rfl
      · rfl

/-- Tokens keep the ink of their text. -/
theorem Cuts.ink_concat {s : Text} {ts : List Token} (h : Cuts s ts) : ink (concat ts) = ink s := by
  rw [← h.tokens, ← ink_flatMap_text h.noComment fun _ hp => hp, flatMap_text_cut h.stuck]

/-- The first token of a text was cut from its start. -/
theorem Cuts.exists_cons {s : Text} {t : Token} {ts : List Token} (h : Cuts s (t :: ts)) :
    ∃ p r, s = p.text ++ r ∧ p ∈ (cut s).pieces ∧ p.token = t ∧ Cuts r ts := by
  have hsplit : Cuts s ([t] ++ ts) := h
  obtain ⟨ps, r, hs, hpieces, hps, hr⟩ := hsplit.exists_append
  obtain ⟨p, rfl, rfl⟩ := List.map_eq_singleton_iff.1 hps
  refine ⟨p, r, by simpa using hs, ?_, rfl, hr⟩
  rw [hpieces]
  exact List.mem_cons_self

/-- A text whose first token is no gap starts with that token. -/
theorem Cuts.exists_lexeme {s : Text} {t : Token} {ts : List Token} (h : Cuts s (t :: ts))
    (ht : t.kind ≠ .whitespace) : ∃ r, s = t.value ++ r ∧ Cuts r ts := by
  obtain ⟨p, r, hs, hp, rfl, hr⟩ := h.exists_cons
  rcases piece_cases h.noComment hp with ⟨w, rfl, -⟩ | ⟨k, v, rfl, -⟩
  · exact absurd rfl ht
  · exact ⟨r, hs, hr⟩

/-- A token that is no gap starts with no blank. -/
theorem Cuts.inked_of_mem {s : Text} {ts : List Token} (h : Cuts s ts) {t : Token} (ht : t ∈ ts)
    (hk : t.kind ≠ .whitespace) : Inked t.value := by
  rw [← h.tokens] at ht
  obtain ⟨p, hp, rfl⟩ := List.mem_map.1 ht
  rcases piece_cases h.noComment hp with ⟨w, rfl, -⟩ | ⟨k, v, rfl, -, hv⟩
  · exact absurd rfl hk
  · exact hv

/-! ### Blanks and signs -/

/-- The first token of a text that starts with no blank is no gap. -/
theorem Cuts.head_ne_whitespace {s : Text} {ts : List Token} (h : Cuts s ts) (hs : Inked s) :
    ∀ t ∈ ts.head?, t.kind ≠ .whitespace := by
  obtain ⟨us, hwords, rfl⟩ := h.exists_words
  intro t ht
  rw [List.head?_map] at ht
  obtain ⟨u, hu, rfl⟩ := Option.map_eq_some_iff.1 ht
  exact Token.head_ne_whitespace hwords h.noComment hs u hu

/-- The gap at the start of the tokens was cut from the blanks at the start of the text. So the
tokens without it are those of the text without the blanks. -/
theorem Cuts.skipSpace {w a : Text} {ts : List Token} (h : Cuts (w ++ a) ts)
    (hw : ∀ c ∈ w, isBlank c = true) (ha : Inked a) : Cuts a (Parser.skipSpace ts) := by
  by_cases hne : w = []
  · subst hne
    rw [skipSpace_eq_self (h.head_ne_whitespace ha)]
    exact h
  · obtain ⟨c, y, rfl, hc⟩ := ha
    -- the blanks are one piece, and its token is the gap that is skipped
    have hcut := cut_blanks hw hne hc y
    obtain ⟨hstuck, hcomment, htokens⟩ := h
    rw [NoComment] at hcomment
    rw [hcut] at hstuck hcomment htokens
    have hrest : Cuts (c :: y) ((cut (c :: y)).pieces.map Piece.token) :=
      ⟨hstuck, fun v hv => hcomment v (List.mem_cons_of_mem _ hv), rfl⟩
    have hskip : Parser.skipSpace ts =
        Parser.skipSpace ((cut (c :: y)).pieces.map Piece.token) := by
      rw [← htokens]
      rfl
    rw [hskip, skipSpace_eq_self (hrest.head_ne_whitespace ⟨c, y, rfl, hc⟩)]
    exact hrest

/-- The token of a mark at the start of a text. -/
theorem Cuts.of_mark {d : Char} (hd : isMark d = true) {b : Text} {ts : List Token}
    (h : Cuts (d :: b) ts) : ∃ us, ts = ofMark d :: us ∧ Cuts b us := by
  have hcut := cut_cons_of_next (next_mark hd b)
  obtain ⟨hstuck, hcomment, htokens⟩ := h
  rw [NoComment] at hcomment
  rw [hcut] at hstuck hcomment htokens
  refine ⟨_, htokens.symm, hstuck, ?_, rfl⟩
  intro w hw
  exact hcomment w (List.mem_cons_of_mem _ hw)

/-- A run with as much ink as the text before a sign was cut from that text, if a mark stands behind
the run. So the sign is the mark, the text alone has the tokens of the run, and it does not
dangle. -/
theorem Cuts.split {a b : Text} {d : Char} {run rest : List Token} {mark : Token}
    (h : Cuts (a ++ d :: b) (run ++ mark :: rest)) (hd : isMark d = true)
    (hdink : Text.isTrimmed d = false) {c : Char}
    (hmark : mark.value = [c]) (hc : Text.isTrimmed c = false)
    (hink : (ink (concat run)).length = (ink a).length) :
    Cuts a run ∧ ¬Dangling a ∧ mark = ofMark d ∧ Cuts b rest := by
  obtain ⟨ps, r, hs, hpieces, rfl, hr⟩ := h.exists_append
  -- a gap has a blank as its text, and the mark has ink
  have hk : mark.kind ≠ .whitespace := by
    obtain ⟨p, -, -, hp, rfl, -⟩ := hr.exists_cons
    rcases piece_cases hr.noComment hp with ⟨w, rfl, -⟩ | ⟨k, v, rfl, hk, -⟩
    · obtain rfl : ' ' = c := by simpa [Piece.token, space] using hmark
      exact absurd hc (by decide)
    · exact hk
  obtain ⟨r', rfl, -⟩ := hr.exists_lexeme hk
  rw [hmark] at hs hr hpieces
  -- the run ends at the sign, since the two have as much ink before them
  rw [← ink_flatMap_text h.noComment fun p hp => by rw [hpieces]; exact List.mem_append_left _ hp]
    at hink
  obtain ⟨ha, rfl, rfl⟩ := append_inj_of_ink hdink hc hink.symm hs
  obtain ⟨hcut, hdangling⟩ := cut_of_append_separator (isSeparator_of_isMark hd)
    (isBlank_of_isMark hd) (isQuote_of_isMark hd) hpieces ha.symm
  refine ⟨⟨by rw [hcut], ?_, by rw [hcut]⟩, hdangling, ?_⟩
  · intro w hw
    rw [hcut] at hw
    refine h.noComment w ?_
    rw [hpieces]
    exact List.mem_append_left _ hw
  · obtain ⟨us, hus, hb⟩ := hr.of_mark hd
    obtain ⟨rfl, rfl⟩ : mark = ofMark d ∧ rest = us := by simpa using hus
    exact ⟨rfl, hb⟩

end CssHints.Token
