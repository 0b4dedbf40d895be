import CssHints.Proofs.ReadBack

/-!
# `CssHints.Proofs.RoundTrip`: trees that can be written and read back

A tree is `RenderSafe` if each of its texts is fit to be written, each looked at alone: names and
properties are single tokens, and selectors, values and preludes are `Clean`. No layout takes part
in this. `ofSource_render_of_renderSafe` says that both layouts write such a tree so that it reads
as itself.

What is left to show after `CssHints.Proofs.ReadBack` is that a clean text keeps its tokens beside
the signs that the layouts put next to it: the mark of importance (`Clean.cuts_important`), commas
and blanks (`cuts_selectorText`).
-/

set_option autoImplicit false

namespace CssHints

open Token (words text unplaced concat isMark isBlank NoComment weight Cuts Chunk gapOf ofMark
  splitAtCommas splitSelectors groupDepth Genuine)
open Grammar (ClosedRun Closes openAfter)
open CssHints.Parser (splitImportant)

/-! ### Safe texts -/

/-- The text is trimmed and not empty, and it is the text of its own tokens `ts`, which are a
closed run that does not end with a backslash. -/
structure Token.Clean (s : Text) (ts : List Token) : Prop extends Token.ReadsAs s ts where
  ne_nil : s ≠ []
  trimmed : Text.trim s = s
  concat_eq : concat ts = s

/-- No comma stands outside groups, with `depth` groups open at the start. -/
def Token.CommaFree (depth : Nat) : List Token → Prop
  | [] => True
  | t :: ts => ¬(t.kind = .comma ∧ depth = 0) ∧ CommaFree (groupDepth depth t) ts

/-- The tokens end with a mark of importance. -/
def Token.EndsImportant (ts : List Token) : Prop :=
  ∃ front bang gap word, ts = front ++ bang :: (gap ++ [word]) ∧
    (bang.kind = .delim ∧ bang.value = ['!']) ∧ (∀ t ∈ gap, t.kind = .whitespace) ∧
    (word.kind = .ident ∧ Text.lower word.value = "important".toList)

/-- The head of an at-rule is a name that is a single token, and a clean prelude or none. -/
def AtHead.Safe (head : AtHead) : Prop :=
  Token.IsSingle .atKeyword ('@' :: head.name) ∧
    (head.prelude = [] ∨ ∃ ts, Token.Clean head.prelude ts)

/-- The texts of a tree that can be written. -/
def safe : Parts where
  selectors ss :=
    (∀ s ∈ ss, ∃ ts, Token.Clean s ts ∧ Token.CommaFree 0 ts) ∧
      ∀ s ∈ ss.head?, ∀ ts, words s = some ts → ∀ t ∈ ts.head?, t.kind ≠ .atKeyword
  declaration d :=
    Token.IsSingle .ident d.property ∧
      ∃ ts, Token.Clean d.value ts ∧ (d.important = false → ¬Token.EndsImportant ts)
  block := AtHead.Safe
  statement := AtHead.Safe

/-- The tree can be written and read back: its nodes have the forms of the grammar, and its texts
are safe. -/
def Stylesheet.RenderSafe (sheet : Stylesheet) : Prop :=
  Stylesheet.Fits 0 sheet ∧ Stylesheet.Each safe sheet

/-! ### Clean texts beside the signs of a layout -/

namespace Token

/-- A clean text holds no comment, since a comment would be missing from the text of its tokens. -/
theorem Clean.noComment {s : Text} {ts : List Token} (h : Clean s ts) : NoComment s :=
  noComment_of_words h.words_eq (Nat.le_of_eq (by rw [h.concat_eq]))

/-- A clean text is cut into its tokens. -/
theorem Clean.cuts {s : Text} {ts : List Token} (h : Clean s ts) : Cuts s (ts.map unplaced) :=
  cuts_of_words h.words_eq h.noComment

/-- A clean text is what its own tokens are read as. -/
theorem Clean.text_eq {s : Text} {ts : List Token} (h : Clean s ts) : text ts = s := by
  rw [text, h.concat_eq, h.trimmed]

/-- A clean text can be cut, and its last piece reaches for nothing behind it. -/
theorem Clean.solid {s : Text} {ts : List Token} (h : Clean s ts) : Solid s :=
  solid_of_words h.words_eq h.noComment h.last

/-- A clean text starts with no blank. -/
theorem Clean.inked {s : Text} {ts : List Token} (h : Clean s ts) : Inked s := by
  have hne : text ts ≠ [] := by
    rw [h.text_eq]
    exact h.ne_nil
  rw [← h.text_eq]
  exact inked_text hne

/-- The last piece of a trimmed text is not a run of blanks, or the text would end with one. So
blanks behind the text are a piece of their own. -/
theorem getLast?_ne_blanks {s : Text} (hs : Text.trim s = s) (hstuck : (cut s).stuck = none) :
    ∀ w, (cut s).pieces.getLast? ≠ some (.blanks w) := by
  intro w hw
  have happ := cut_append s
  rw [hstuck] at happ
  obtain ⟨ps, hps⟩ := List.getLast?_eq_some_iff.1 hw
  obtain ⟨c, t, rest, hnext⟩ := next_of_mem_cut (s := s) (List.mem_of_getLast? hw)
  obtain ⟨v, rfl, -, hall, -⟩ := blanks_of_next hnext
  have hne : c :: v ≠ [] := List.cons_ne_nil c v
  have hlast : s.getLast? = some ((c :: v).getLast hne) := by
    rw [← happ, hps]
    simp [Piece.text, List.getLast?_append, List.getLast?_eq_some_getLast hne]
  have hink := Text.getLast?_trim s _ (by rw [hs]; exact hlast)
  rw [isTrimmed_of_isBlank (hall _ (List.getLast_mem hne))] at hink
  cases hink

/-- Blanks behind a clean text leave a gap and nothing else: they run into no piece of the text. -/
theorem Clean.cuts_blanks {s : Text} {ts : List Token} (h : Clean s ts) {w : Text}
    (hw : ∀ c ∈ w, isBlank c = true) : Cuts (s ++ w) (ts.map unplaced ++ gapOf w) := by
  cases w with
  | nil => simpa [gapOf] using h.cuts
  | cons d w =>
      have hcuts := Token.cuts_blanks hw
      have hcut := cut_append_separator (isSeparator_of_isBlank (hw d List.mem_cons_self)) w
        h.solid.stuck h.solid.dangling (fun _ => getLast?_ne_blanks h.trimmed h.solid.stuck)
      refine ⟨by rw [hcut, hcuts.stuck], ?_, ?_⟩
      · intro v hv
        rw [hcut] at hv
        rcases List.mem_append.1 hv with hv | hv
        · exact h.noComment v hv
        · exact hcuts.noComment v hv
      · rw [hcut, List.map_append, hcuts.tokens, h.cuts.tokens]

/-- A clean text, blanks and a mark are a chunk, with the tokens of the text, a gap for the blanks
and the mark. -/
theorem Clean.chunk_gap {s : Text} {ts : List Token} (h : Clean s ts) {w : Text}
    (hw : ∀ c ∈ w, isBlank c = true) {d : Char} (hd : isMark d = true) :
    Chunk (s ++ (w ++ [d])) (ts.map unplaced ++ (gapOf w ++ [ofMark d])) := by
  -- without blanks the mark stands at the text itself, which is another seam
  by_cases hne : w = []
  · subst hne
    simpa [gapOf] using chunk_of_words h.words_eq h.noComment h.last hd
  · refine ⟨_, h.solid.gap (getLast?_ne_blanks h.trimmed h.solid.stuck) hw hne
      (isBlank_of_isMark hd) (sealed_mark hd), ?_, ?_⟩
    · intro v hv
      rcases List.mem_append.1 hv with hv | hv
      · exact h.noComment v hv
      · simp at hv
    · rw [List.map_append, h.cuts.tokens]
      simp [gapOf, hne, Piece.token, ofMark]

/-- A run that closes all groups may be followed by a closed run. -/
theorem closes_append {groups : List Kind} {ts us : List Token} (hts : Closes groups ts)
    (hus : ClosedRun us) : Closes groups (ts ++ us) := by
  induction ts generalizing groups with
  | nil =>
      have : groups = [] := hts
      rw [this]
      exact hus
  | cons t ts ih =>
      obtain ⟨h₁, h₂, h₃, h₄, hrest⟩ := hts
      exact ⟨h₁, h₂, h₃, h₄, ih hrest⟩

/-- A gap behind tokens is trimmed off their text. -/
theorem text_append_gapOf (ts : List Token) (w : Text) : text (ts ++ gapOf w) = text ts := by
  unfold gapOf
  split
  · rw [List.append_nil]
  · rw [text, concat_append]
    exact Text.trim_append_blank (by decide) _

/-- A gap is no backslash, so with a gap behind them tokens still do not end with one. -/
theorem last_append_gapOf (ts : List Token)
    (h : ∀ t ∈ ts.getLast?, ¬(t.kind = .delim ∧ t.value = ['\\'])) (w : Text) :
    ∀ t ∈ (ts ++ gapOf w).getLast?, ¬(t.kind = .delim ∧ t.value = ['\\']) := by
  intro t ht
  unfold gapOf at ht
  split at ht
  · rw [List.append_nil] at ht
    exact h t ht
  · rw [List.getLast?_concat] at ht
    cases ht
    simp [space]

/-- The tokens of a clean text do not end with a backslash, at whatever place they are. -/
theorem Clean.last_unplaced {s : Text} {ts : List Token} (h : Clean s ts) :
    ∀ t ∈ (ts.map unplaced).getLast?, ¬(t.kind = .delim ∧ t.value = ['\\']) := by
  intro t ht
  rw [List.getLast?_map] at ht
  obtain ⟨u, hu, rfl⟩ := Option.map_eq_some_iff.1 ht
  exact h.last u hu

/-! ### Values -/

/-- The tokens of a clean text start with no gap. -/
theorem Clean.head_ne_whitespace {s : Text} {ts : List Token} (h : Clean s ts) :
    ∀ t ∈ ts.head?, t.kind ≠ .whitespace :=
  Token.head_ne_whitespace h.words_eq h.noComment h.inked

/-- A clean text has tokens. -/
theorem Clean.tokens_ne_nil {s : Text} {ts : List Token} (h : Clean s ts) : ts ≠ [] := by
  rintro rfl
  exact h.ne_nil h.concat_eq.symm

/-- The tokens of a clean text end with no gap, because the text ends with no blank. The texts of
the tokens make up the text itself. -/
theorem Clean.getLast?_ne_whitespace {s : Text} {ts : List Token} (h : Clean s ts) :
    ∀ t ∈ ts.getLast?, t.kind ≠ .whitespace := by
  intro t ht hk
  have hv := (genuine_of_mem_words h.words_eq t (List.mem_of_getLast? ht)).space_value hk
  obtain ⟨front, rfl⟩ := List.getLast?_eq_some_iff.1 ht
  have hs : s = concat front ++ [' '] := by
    rw [← h.concat_eq, concat_append, concat_cons, hv]
    rfl
  have hink := Text.getLast?_trim s ' ' (by rw [h.trimmed, hs]; simp)
  exact absurd hink (by decide)

/-- Tokens that end with no gap stay as they are when gaps are taken off the end. -/
theorem skipSpaceRight_append {ts : List Token} {t : Token} (h : t.kind ≠ .whitespace) :
    Parser.skipSpaceRight (ts ++ [t]) = ts ++ [t] := by
  simp [Parser.skipSpaceRight, Parser.skipSpace, h]

/-- A mark of importance behind a value is taken off, and the text of the value is left. The value
may end with gaps, which are trimmed off its text. -/
theorem splitImportant_append_mark {ts : List Token} (hne : ts ≠ [])
    (hhead : ∀ t ∈ ts.head?, t.kind ≠ .whitespace) {bang word : Token}
    (hbang : bang.kind = .delim ∧ bang.value = ['!'])
    (hword : word.kind = .ident ∧ Text.lower word.value = "important".toList) :
    splitImportant (ts ++ [bang] ++ [word]) = (text ts, true) := by
  obtain ⟨t, ts, rfl⟩ := List.exists_cons_of_ne_nil hne
  have hskip : ∀ us, Parser.skipSpace (t :: ts ++ us) = t :: ts ++ us := fun us =>
    skipSpace_eq_self (by simpa using hhead)
  simp only [splitImportant]
  rw [List.append_assoc, hskip, ← List.append_assoc,
    skipSpaceRight_append (by rw [hword.1]; decide)]
  simp only [List.reverse_append, List.reverse_singleton, List.singleton_append]
  rw [if_pos hword]
  -- with the word gone, the sign is the last token, and it is no gap
  have hinner :
      (Parser.skipSpaceRight (Parser.skipSpace (bang :: (t :: ts).reverse).reverse)).reverse
        = bang :: (t :: ts).reverse := by
    rw [List.reverse_cons, List.reverse_reverse, hskip,
      skipSpaceRight_append (by rw [hbang.1]; decide), List.reverse_append]
    rfl
  simp only [hinner]
  rw [if_pos hbang, List.reverse_reverse]

/-- A value that does not end with a mark of importance is the whole text, since a clean text has no
gaps at its ends that could be taken off. -/
theorem Clean.splitImportant_eq {s : Text} {ts : List Token} (h : Clean s ts)
    (hend : ¬EndsImportant ts) : splitImportant ts = (s, false) := by
  have hgenuine := genuine_of_mem_words h.words_eq
  rcases splitImportant_cases ts with
    ⟨g, value, g', rfl, hg, hg', hs⟩ |
    ⟨g, value, mark, rfl, hg, ⟨bang, gap, word, gap', rfl, hbang, hgap, hword, hgap'⟩, hs⟩
  · have htext := text_gaps value (fun t ht => hgenuine t (by simp [ht])) hg
      (fun t ht => hgenuine t (by simp [ht])) hg'
    rw [hs, ← htext, h.text_eq]
  · -- nothing stands behind the mark, since a clean text ends with no gap
    have hnil : gap' = [] := by
      rcases List.eq_nil_or_concat gap' with rfl | ⟨front, t, rfl⟩
      · rfl
      · refine absurd (hgap' t (by simp)) (h.getLast?_ne_whitespace t ?_)
        rw [List.concat_eq_append, ← List.cons_append, ← List.append_assoc, ← List.cons_append,
          ← List.append_assoc, ← List.append_assoc, List.getLast?_concat]
        rfl
    subst hnil
    exact absurd ⟨g ++ value, bang, gap, word, by simp, hbang, hgap, hword⟩ hend

/-- The word of the mark of importance is one identifier. -/
theorem cuts_important :
    Cuts "important".toList [⟨.ident, "important".toList, .start⟩] := by
  have hword : "important".toList = 'i' :: ['m', 'p', 'o', 'r', 't', 'a', 'n', 't'] := rfl
  have hcut : cut "important".toList = ⟨[.lexeme .ident "important".toList], none⟩ := by
    rw [hword, cut_cons_of_next (show next 'i' _ = .ok (.lexeme .ident _, []) from rfl), cut_nil]
    rfl
  refine ⟨by rw [hcut], ?_, by rw [hcut]; rfl⟩
  rw [NoComment, hcut]
  simp

/-- A value keeps its tokens in front of the mark that a layout puts behind it. The exclamation mark
runs into nothing, and it separates the value from the word. -/
theorem Clean.cuts_append_important {s : Text} {ts : List Token} (h : Clean s ts)
    (layout : Layout) :
    Cuts (s ++ (layout.gap ++ "!important".toList))
      (ts.map unplaced ++ gapOf layout.gap ++ [ofMark '!'] ++
        [⟨.ident, "important".toList, .start⟩]) := by
  have hchunk := h.chunk_gap (isBlank_of_mem_gap layout) (d := '!') (by decide)
  have hcuts := hchunk.append_cuts cuts_important
  have htext : s ++ (layout.gap ++ ['!']) ++ "important".toList
      = s ++ (layout.gap ++ "!important".toList) := by simp
  rw [htext] at hcuts
  rw [List.append_assoc (ts.map unplaced)]
  exact hcuts

end Token

open Token (Clean CommaFree EndsImportant ReadsAs)

/-- A safe declaration reads as itself in either layout. Without a mark its value is written alone;
with one, the mark that is written behind it is taken off again. -/
theorem faithful_declaration {d : Declaration} (h : safe.declaration d) (layout : Layout) :
    (faithful layout).declaration d := by
  obtain ⟨-, ts, hclean, hmark⟩ := h
  show ∃ us, ReadsAs (d.valueText layout) us ∧ splitImportant us = (d.value, d.important)
  rw [Declaration.valueText]
  cases hd : d.important with
  | false =>
      rw [if_neg (by simp), List.append_nil]
      exact ⟨ts, hclean.toReadsAs, hclean.splitImportant_eq (hmark hd)⟩
  | true =>
      rw [if_pos rfl]
      -- the mark of importance adds a sign and a word, which open no group
      have hclosed : ClosedRun (ts.map unplaced ++ gapOf layout.gap ++ [ofMark '!'] ++
          [⟨.ident, "important".toList, .start⟩]) :=
        Token.closes_append (Token.closes_append (Token.closes_append
          ((Grammar.closedRun_map_unplaced ts).2 hclean.closed) (Token.closedRun_gap _))
          (by decide)) (by decide)
      obtain ⟨us, hus, hmap⟩ := (hclean.cuts_append_important layout).readsAs hclosed (by simp)
      refine ⟨us, hus, ?_⟩
      rw [← Parser.splitImportant_map_unplaced, hmap, Token.splitImportant_append_mark]
      · rw [Token.text_append_gapOf, Token.text_map_unplaced, hclean.text_eq]
      · simp [hclean.tokens_ne_nil]
      · obtain ⟨t, ts, rfl⟩ := List.exists_cons_of_ne_nil hclean.tokens_ne_nil
        simpa using hclean.head_ne_whitespace
      · decide
      · exact ⟨rfl, by decide⟩

/-- The safe head of an at-rule reads as itself, with any blanks behind it. -/
theorem faithful_head {head : AtHead} (h : head.Safe) {tail : Text}
    (htail : ∀ c ∈ tail, isBlank c = true) : head.Faithful tail := by
  rcases h.2 with hnil | ⟨ts, hclean⟩
  · obtain ⟨us, hus, hmap⟩ := (Token.cuts_blanks htail).readsAs (Token.closedRun_gap tail)
      (Token.last_append_gapOf [] (by simp) tail)
    refine ⟨us, by rwa [hnil], ?_⟩
    rw [hnil, ← Token.text_map_unplaced, hmap]
    exact Token.text_append_gapOf [] tail
  · have hclosed : ClosedRun (ts.map unplaced ++ gapOf tail) :=
      Token.closes_append ((Grammar.closedRun_map_unplaced ts).2 hclean.closed)
        (Token.closedRun_gap tail)
    obtain ⟨us, hus, hmap⟩ := (hclean.cuts_blanks htail).readsAs hclosed
      (Token.last_append_gapOf _ hclean.last_unplaced tail)
    refine ⟨us, hus, ?_⟩
    rw [← Token.text_map_unplaced, hmap, Token.text_append_gapOf, Token.text_map_unplaced,
      hclean.text_eq]

/-! ### Selectors -/

namespace Token

/-- Brackets that close all groups are at least as many as the brackets that are counted, so the
count is zero behind a closed run. The count takes any closing bracket for the end of a group, and
so it is never above the number of groups that are open. -/
theorem foldl_groupDepth_eq_zero {groups : List Kind} {ts : List Token} (h : Closes groups ts)
    {depth : Nat} (hdepth : depth ≤ groups.length) : ts.foldl groupDepth depth = 0 := by
  induction ts generalizing groups depth with
  | nil =>
      have hg : groups = [] := h
      rw [hg] at hdepth
      simpa using hdepth
  | cons t ts ih =>
      obtain ⟨-, -, -, -, hrest⟩ := h
      rw [List.foldl_cons]
      refine ih hrest ?_
      unfold groupDepth openAfter
      split
      · simpa using hdepth
      · cases groups with
        | nil =>
            have hzero : depth = 0 := by simpa using hdepth
            subst hzero
            split <;> simp
        | cons g gs =>
            rw [List.length_cons] at hdepth
            dsimp only
            split
            · split
              · omega
              · rw [List.length_cons]
                omega
            · rename_i hcloser
              rw [if_neg ?_]
              · exact hdepth
              · -- what closes a group is a closing bracket
                intro hg
                cases hk : g <;> rw [hk] at hg <;> simp [Kind.closer?] at hg <;>
                  simp [Kind.isCloser, ← hg] at hcloser

/-- Tokens without a comma outside groups go to the first run. -/
theorem splitAtCommas_append {depth : Nat} {ts : List Token} (h : CommaFree depth ts)
    (us : List Token) {run : List Token} {runs : List (List Token)}
    (hus : splitAtCommas (ts.foldl groupDepth depth) us = run :: runs) :
    splitAtCommas depth (ts ++ us) = (ts ++ run) :: runs := by
  induction ts generalizing depth with
  | nil => exact hus
  | cons t ts ih =>
      rw [List.cons_append, splitAtCommas, if_neg h.1, ih h.2 hus]
      rfl

/-- Whether a comma stands outside groups does not depend on places. -/
theorem commaFree_map_unplaced {depth : Nat} {ts : List Token} :
    CommaFree depth (ts.map unplaced) ↔ CommaFree depth ts := by
  induction ts generalizing depth with
  | nil => rfl
  | cons t ts ih => exact and_congr_right fun _ => ih

/-- A selector up to its comma is the first selector, and the others are those behind the comma. -/
theorem splitSelectors_append_comma {ts : List Token} (hclosed : ClosedRun ts)
    (hcomma : CommaFree 0 ts) (hne : text ts ≠ []) {comma : Token} (hk : comma.kind = .comma)
    (us : List Token) : splitSelectors (ts ++ comma :: us) = text ts :: splitSelectors us := by
  have hsplit : splitAtCommas 0 (ts ++ comma :: us) = (ts ++ []) :: splitAtCommas 0 us := by
    refine splitAtCommas_append hcomma _ ?_
    rw [foldl_groupDepth_eq_zero hclosed (Nat.zero_le _), splitAtCommas, if_pos ⟨hk, rfl⟩]
  rw [splitSelectors, hsplit, List.append_nil, List.map_cons, List.filter_cons_of_pos (by simpa),
    splitSelectors]

/-- The last selector, with a gap behind it, is the only selector of its tokens. -/
theorem splitSelectors_append_gapOf {ts : List Token} (hclosed : ClosedRun ts)
    (hcomma : CommaFree 0 ts) (hne : text ts ≠ []) (w : Text) :
    splitSelectors (ts ++ gapOf w) = [text ts] := by
  have hgap : splitAtCommas 0 (gapOf w) = [gapOf w] := by
    unfold gapOf
    split <;> rfl
  have hsplit : splitAtCommas 0 (ts ++ gapOf w) = [ts ++ gapOf w] := by
    refine splitAtCommas_append hcomma _ ?_
    rw [foldl_groupDepth_eq_zero hclosed (Nat.zero_le _), hgap]
  rw [splitSelectors, hsplit, List.map_singleton, text_append_gapOf,
    List.filter_cons_of_pos (by simpa), List.filter_nil]

/-- A gap in front of tokens changes none of their selectors, since it is trimmed off the first. -/
theorem splitSelectors_gapOf (w : Text) (ts : List Token) :
    splitSelectors (gapOf w ++ ts) = splitSelectors ts := by
  unfold gapOf
  split
  · rfl
  · obtain ⟨run, runs, hruns⟩ := List.exists_cons_of_ne_nil (splitAtCommas_ne_nil 0 ts)
    have hspace : splitAtCommas 0 ([space .start] ++ ts) = (space .start :: run) :: runs := by
      have hdepth : groupDepth 0 (space .start) = 0 := rfl
      rw [List.singleton_append, splitAtCommas, if_neg (by simp [space]), hdepth, hruns]
    have htext : text (space .start :: run) = text run := text_gapOf [' '] run
    rw [splitSelectors, hspace, List.map_cons, htext, splitSelectors, hruns, List.map_cons]

/-- Blanks in front of a text that starts with no blank leave a gap and change nothing else. -/
theorem Cuts.indent {a w : Text} {ts : List Token} (h : Cuts a ts) (ha : Inked a)
    (hw : ∀ c ∈ w, isBlank c = true) : Cuts (w ++ a) (gapOf w ++ ts) := by
  by_cases hne : w = []
  · subst hne
    exact h
  obtain ⟨c, y, rfl, hc⟩ := ha
  have hcut := cut_blanks hw hne hc y
  refine ⟨by rw [hcut, h.stuck], ?_, ?_⟩
  · intro v hv
    rw [hcut] at hv
    exact h.noComment v (by simpa using hv)
  · rw [hcut, List.map_cons, h.tokens]
    simp [gapOf, hne, Piece.token]

/-- Selectors keep their tokens beside commas and blanks. The induction is on the selectors: each
one but the last is a chunk with its comma. -/
theorem cuts_selectorText (layout : Layout) {s : Text} {ss : List Text}
    (h : ∀ u ∈ s :: ss, ∃ ts, Clean u ts ∧ CommaFree 0 ts) :
    ∃ vs, Cuts (layout.selectorText (s :: ss)) vs ∧ ClosedRun vs ∧
      (∀ t ∈ vs.getLast?, ¬(t.kind = .delim ∧ t.value = ['\\'])) ∧
      splitSelectors vs = s :: ss ∧
      ∃ ts, words s = some ts ∧ vs.head? = ts.head?.map unplaced := by
  induction ss generalizing s with
  | nil =>
      obtain ⟨ts, hclean, hcomma⟩ := h s (by simp)
      have hclosed := (Grammar.closedRun_map_unplaced ts).2 hclean.closed
      have htext : text (ts.map unplaced) = s := by rw [text_map_unplaced, hclean.text_eq]
      refine ⟨_, ?_, closes_append hclosed (closedRun_gap layout.gap), ?_, ?_, ts,
        hclean.words_eq, ?_⟩
      · rw [Layout.selectorText, join_singleton]
        exact hclean.cuts_blanks (isBlank_of_mem_gap layout)
      · exact last_append_gapOf _ hclean.last_unplaced _
      · rw [splitSelectors_append_gapOf hclosed (commaFree_map_unplaced.2 hcomma)
          (by rw [htext]; exact hclean.ne_nil), htext]
      · obtain ⟨t, us, rfl⟩ := List.exists_cons_of_ne_nil hclean.tokens_ne_nil
        rfl
  | cons s' ss ih =>
      obtain ⟨ts, hclean, hcomma⟩ := h s (by simp)
      obtain ⟨vs, hcuts, hvs, hlast, hsplit, -⟩ := ih fun u hu => h u (List.mem_cons_of_mem _ hu)
      have hclosed := (Grammar.closedRun_map_unplaced ts).2 hclean.closed
      have htext : text (ts.map unplaced) = s := by rw [text_map_unplaced, hclean.text_eq]
      have hink : Inked (layout.selectorText (s' :: ss)) := by
        rw [← hsplit]
        exact inked_splitSelectors (by rw [hsplit]; simp)
      -- the comma seals the selector, so the others are cut as they are alone, behind a gap
      have hchunk := chunk_of_words hclean.words_eq hclean.noComment hclean.last (d := ',')
        (by decide)
      have hne : vs ≠ [] := by
        rintro rfl
        exact absurd hsplit
          (by simp [splitSelectors, splitAtCommas, text, Text.trim, Text.trimRight])
      refine ⟨ts.map unplaced ++ ofMark ',' :: (gapOf layout.gap ++ vs), ?_, ?_, ?_, ?_, ts,
        hclean.words_eq, ?_⟩
      · have hall := hchunk.append_cuts (hcuts.indent hink (isBlank_of_mem_gap layout))
        rw [Layout.selectorText, join_cons_cons]
        simpa [Layout.selectorText] using hall
      · have hcommaRun : ClosedRun [ofMark ','] := by decide
        exact closes_append hclosed (closes_append hcommaRun (closedRun_gapOf hvs))
      · intro t ht
        obtain ⟨front, u, rfl⟩ := (List.eq_nil_or_concat vs).resolve_left hne
        rw [List.concat_eq_append, ← List.append_assoc, ← List.cons_append, ← List.append_assoc,
          List.getLast?_concat] at ht
        exact hlast t (by rw [List.concat_eq_append, List.getLast?_concat]; exact ht)
      · rw [splitSelectors_append_comma hclosed (commaFree_map_unplaced.2 hcomma)
          (by rw [htext]; exact hclean.ne_nil) rfl, htext, splitSelectors_gapOf, hsplit]
      · obtain ⟨t, us, rfl⟩ := List.exists_cons_of_ne_nil hclean.tokens_ne_nil
        rfl

end Token

/-- Safe selectors read as themselves in either layout, and what is written for them starts with no
keyword, so it is not taken for an at-rule. -/
theorem faithful_selectors {ss : List Text} (h : safe.selectors ss) (layout : Layout) :
    (faithful layout).selectors ss := by
  show ∃ us, ReadsAs (layout.selectorText ss) us ∧ splitSelectors us = ss ∧
    ∀ t ∈ us.head?, t.kind ≠ .atKeyword
  cases ss with
  | nil =>
      -- no selectors at all are written as a gap
      have hcuts := Token.cuts_blanks (Token.isBlank_of_mem_gap layout)
      obtain ⟨us, hus, hmap⟩ := hcuts.readsAs (Token.closedRun_gap _)
        (Token.last_append_gapOf [] (by simp) _)
      have hsplit := Token.splitSelectors_gapOf layout.gap []
      rw [List.append_nil] at hsplit
      refine ⟨us, hus, ?_, ?_⟩
      · rw [← Token.splitSelectors_map_unplaced, hmap, hsplit]
        rfl
      · intro t ht
        have hk := Token.kind_of_mem_gapOf (w := layout.gap) t.unplaced (by
          rw [← hmap]
          exact List.mem_map_of_mem (List.mem_of_head? ht))
        rw [← Token.kind_unplaced, hk]
        decide
  | cons s ss =>
      obtain ⟨vs, hcuts, hclosed, hlast, hsplit, ts, hwords, hhead⟩ :=
        Token.cuts_selectorText layout h.1
      obtain ⟨us, hus, hmap⟩ := hcuts.readsAs hclosed hlast
      refine ⟨us, hus, ?_, ?_⟩
      · rw [← Token.splitSelectors_map_unplaced, hmap, hsplit]
      · intro t ht
        rw [← hmap, List.head?_map, ht] at hhead
        obtain ⟨u, hu, he⟩ := Option.map_eq_some_iff.1 hhead.symm
        have hk := congrArg Token.kind he
        rw [Token.kind_unplaced, Token.kind_unplaced] at hk
        rw [← hk]
        exact h.2 s rfl ts hwords u hu

/-! ### Whole trees -/

/-- What one property of parts gives the other, it gives it at any depth. -/
structure Parts.Implies (p q : Parts) : Prop where
  selectors : ∀ ss, p.selectors ss → q.selectors ss
  declaration : ∀ d, p.declaration d → q.declaration d
  block : ∀ head, p.block head → q.block head
  statement : ∀ head, p.statement head → q.statement head

mutual

/-- What holds of the parts of a node may be replaced by what follows from it. -/
theorem Node.Each.imp {p q : Parts} (h : p.Implies q) : (n : Node) → n.Each p → n.Each q
  | .rule _, hn => ⟨h.selectors _ hn.1, fun d hd => h.declaration d (hn.2 d hd)⟩
  | .block _ children _, hn =>
    ⟨h.block _ hn.1, fun d hd => h.declaration d (hn.2.1 d hd),
      Stylesheet.Each.imp h children hn.2.2⟩
  | .statement _, hn => h.statement _ hn
  | .stray _, _ => trivial

/-- What holds of the parts of a tree may be replaced by what follows from it. -/
theorem Stylesheet.Each.imp {p q : Parts} (h : p.Implies q) :
    (ns : List Node) → Stylesheet.Each p ns → Stylesheet.Each q ns
  | [], _ => trivial
  | n :: ns, hns => ⟨Node.Each.imp h n hns.1, Stylesheet.Each.imp h ns hns.2⟩

end

/-- Safe parts are well formed: names and properties are single tokens, and values are not empty. -/
theorem safe_implies_wellFormed : safe.Implies wellFormed where
  selectors _ _ := trivial
  declaration _ h := ⟨h.1, h.2.elim fun _ hts => hts.1.ne_nil⟩
  block _ h := h.1
  statement _ h := h.1

/-- Safe parts read as themselves in each layout. -/
theorem safe_implies_faithful (layout : Layout) : safe.Implies (faithful layout) where
  selectors _ h := faithful_selectors h layout
  declaration _ h := faithful_declaration h layout
  block _ h := faithful_head h (Token.isBlank_of_mem_gap layout)
  statement _ h := faithful_head h (by simp)

/-- **Reading undoes writing.** A tree that is safe can be written in each layout, and the text
reads as the tree itself. -/
theorem ofSource_render_of_renderSafe (sheet : Stylesheet) (layout : Layout)
    (h : sheet.RenderSafe) :
    ∃ s, sheet.render? layout = .ok s ∧ Stylesheet.ofSource s = .ok sheet := by
  refine ⟨sheet.render layout, Stylesheet.render?_of_fits h.1 layout, ?_⟩
  exact ofSource_render h.1 (Stylesheet.Each.imp safe_implies_wellFormed sheet h.2)
    (Stylesheet.Each.imp (safe_implies_faithful layout) sheet h.2)

/-- A single token is a clean text, unless it is a sign of its own, a bracket or has blanks at its
ends. -/
theorem Token.IsSingle.clean {k : Kind} {s : Text} (h : IsSingle k s) (hne : s ≠ [])
    (htrim : Text.trim s = s) (hclosed : ClosedRun [⟨k, s, .start⟩]) (hk : k ≠ .delim) :
    Clean s [⟨k, s, .start⟩] where
  words_eq := h
  closed := hclosed
  last t ht hbad := by
    obtain rfl : (⟨k, s, .start⟩ : Token) = t := by simpa using ht
    exact hk hbad.1
  ne_nil := hne
  trimmed := htrim
  concat_eq := by simp

/-- The selector `a(b,c)`, whose comma is in a group. It is read as six tokens, and stays one
selector. -/
theorem Token.clean_group :
    Clean "a(b,c)" [⟨.ident, "a", ⟨0, 1, 1⟩⟩, ⟨.lparen, "(", ⟨1, 1, 2⟩⟩, ⟨.ident, "b", ⟨2, 1, 3⟩⟩,
      ⟨.comma, ",", ⟨3, 1, 4⟩⟩, ⟨.ident, "c", ⟨4, 1, 5⟩⟩, ⟨.rparen, ")", ⟨5, 1, 6⟩⟩] where
  words_eq := by
    have hcut : cut ['a', '(', 'b', ',', 'c', ')'] =
        ⟨[.lexeme .ident ['a'], .lexeme .lparen ['('], .lexeme .ident ['b'], .lexeme .comma [','],
          .lexeme .ident ['c'], .lexeme .rparen [')']], none⟩ := by
      rw [cut_cons_of_next (show next 'a' _ = .ok (.lexeme .ident ['a'], _) from rfl),
        cut_cons_of_next (show next '(' _ = .ok (.lexeme .lparen ['('], _) from rfl),
        cut_cons_of_next (show next 'b' _ = .ok (.lexeme .ident ['b'], _) from rfl),
        cut_cons_of_next (show next ',' _ = .ok (.lexeme .comma [','], _) from rfl),
        cut_cons_of_next (show next 'c' _ = .ok (.lexeme .ident ['c'], _) from rfl),
        cut_cons_of_next (show next ')' _ = .ok (.lexeme .rparen [')'], _) from rfl), cut_nil]
    show words ['a', '(', 'b', ',', 'c', ')'] = _
    rw [words_eq_some_iff, hcut]
    exact ⟨rfl, rfl⟩
  closed := by decide
  last := by decide
  ne_nil := by decide
  trimmed := by decide
  concat_eq := by decide

/-- An import, and a rule below an at-rule with a comma in its first selector, are safe. The tree
has each kind of node that is written and both kinds of values. -/
theorem Stylesheet.renderSafe_media :
    Stylesheet.RenderSafe [.statement ⟨"import", "x"⟩,
      .block ⟨"media", "x"⟩ [.rule ⟨["a(b,c)", "x"], [⟨"x", "x", true⟩, ⟨"x", "a(b,c)", false⟩]⟩]
        []] := by
  have hx : Token.IsSingle .ident "x" :=
    Token.isSingle_of_next (show Token.next 'x' [] = _ from rfl)
  have hmedia : Token.IsSingle .atKeyword ('@' :: "media".toList) :=
    Token.isSingle_of_next (show Token.next '@' ['m', 'e', 'd', 'i', 'a'] = _ from rfl)
  have himport : Token.IsSingle .atKeyword ('@' :: "import".toList) :=
    Token.isSingle_of_next (show Token.next '@' ['i', 'm', 'p', 'o', 'r', 't'] = _ from rfl)
  have hclean : Clean "x" [⟨.ident, "x", .start⟩] :=
    hx.clean (by decide) (by decide) (by decide) (by decide)
  have hgroup := Token.clean_group
  have hfits : AtRule.isStatement (AtRule.baseName "import".toList) = true := by decide
  refine ⟨⟨hfits, ⟨.inl ⟨by decide, by decide, rfl, by simp [Stylesheet.Fits, Node.Fits]⟩,
    trivial⟩⟩, ⟨himport, .inr ⟨_, hclean⟩⟩, ⟨⟨hmedia, .inr ⟨_, hclean⟩⟩, by simp, ?_, trivial⟩,
    trivial⟩
  refine ⟨⟨?_, ?_⟩, ?_⟩
  · intro s hs
    rcases List.mem_cons.1 hs with rfl | hs
    · exact ⟨_, hgroup, by simp [CommaFree, Token.groupDepth, Kind.isOpener, Kind.closer?,
        Kind.isCloser]⟩
    · rw [List.mem_singleton.1 hs]
      exact ⟨_, hclean, by simp [CommaFree]⟩
  · -- the first selector starts with a letter, so it is not taken for an at-rule
    intro s hs ts hwords t ht
    cases hs
    rw [hgroup.words_eq] at hwords
    cases hwords
    cases ht
    decide
  · intro d hd
    rcases List.mem_cons.1 hd with rfl | hd
    · exact ⟨hx, _, hclean, by simp⟩
    · rw [List.mem_singleton.1 hd]
      refine ⟨hx, _, hgroup, ?_⟩
      -- a mark of importance ends with a word, this value with a bracket
      rintro - ⟨front, bang, gap, word, he, -, -, hword⟩
      have hlast := congrArg List.getLast? he
      rw [← List.cons_append, ← List.append_assoc, List.getLast?_concat] at hlast
      cases hlast
      exact absurd hword.1 (by decide)

/-- The hypothesis holds of a tree that uses most of the forms there are. -/
theorem ofSource_render_of_renderSafe_media :
    ∃ s, Stylesheet.render? [.statement ⟨"import", "x"⟩,
        .block ⟨"media", "x"⟩
          [.rule ⟨["a(b,c)", "x"], [⟨"x", "x", true⟩, ⟨"x", "a(b,c)", false⟩]⟩] []] .compact
        = .ok s ∧
      Stylesheet.ofSource s = .ok [.statement ⟨"import", "x"⟩,
        .block ⟨"media", "x"⟩
          [.rule ⟨["a(b,c)", "x"], [⟨"x", "x", true⟩, ⟨"x", "a(b,c)", false⟩]⟩] []] :=
  ofSource_render_of_renderSafe _ .compact Stylesheet.renderSafe_media

end CssHints
