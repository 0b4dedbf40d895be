import CssHints.Proofs.RunText
import CssHints.Stylesheet.Printer

/-!
# `CssHints.Proofs.ReadBack`: when a written tree reads as itself

A written tree puts names, values, selectors and preludes side by side with the signs of the
layout. The tree reads back as itself if each of these texts does so in its own place:

* `Node.Fits`: each node is of a form that the grammar has at its depth;
* `wellFormed`: names and properties are single tokens, and no value is empty;
* `faithful L`: a value with its mark, the selectors of a rule and a prelude read as themselves, in
  the spelling that the layout `L` gives them.

The written text is a row of chunks (`Chunk`), and the tokens of a chunk are the same wherever it
stands. So each declaration, rule and at-rule adds its own tokens in front of those that follow,
and a derivation of the grammar is built along the tree (`exists_chunk_node`,
`exists_chunk_nodes`). `ofSource_render` is the result for a whole stylesheet.
-/

set_option autoImplicit false

namespace CssHints

open Token (words text unplaced isMark isBlank NoComment weight)
open Grammar (ClosedRun Decls RuleList)

/-! ### Trees and their texts -/

/-- The blank that only the spaced layout has. -/
def Layout.gap : Layout → Text
  | .spaced => [' ']
  | .compact => []

/-- The value of a declaration as it is written, with its mark of importance. -/
def Declaration.valueText (layout : Layout) (d : Declaration) : Text :=
  d.value ++ if d.important then layout.gap ++ "!important".toList else []

/-- What is written before the block of a rule. -/
def Layout.selectorText (layout : Layout) (selectors : List Text) : Text :=
  Text.join (',' :: layout.gap) selectors ++ layout.gap

/-- The text is a single token of class `k`. -/
def Token.IsSingle (k : Kind) (s : Text) : Prop := words s = some [⟨k, s, .start⟩]

/-- The text reads as the run `ts`, and a sign of the layout may follow it. -/
structure Token.ReadsAs (s : Text) (ts : List Token) : Prop where
  words_eq : words s = some ts
  closed : ClosedRun ts
  /-- A backslash at the end would make an escape of the sign that follows. -/
  last : ∀ t ∈ ts.getLast?, ¬(t.kind = .delim ∧ t.value = ['\\'])

/-- A property of each text in a tree, by the part that it plays. -/
structure Parts where
  selectors : List Text → Prop
  declaration : Declaration → Prop
  /-- The head of an at-rule with a block. -/
  block : AtHead → Prop
  /-- The head of an at-rule that ends with a semicolon. -/
  statement : AtHead → Prop

mutual

/-- The property holds of each part of the node, at any depth. -/
def Node.Each (p : Parts) : Node → Prop
  | .rule r => p.selectors r.selectors ∧ ∀ d ∈ r.decls, p.declaration d
  | .block head children decls =>
    p.block head ∧ (∀ d ∈ decls, p.declaration d) ∧ Stylesheet.Each p children
  | .statement head => p.statement head
  | .stray _ => True

/-- The property holds of each part of the nodes, at any depth. -/
def Stylesheet.Each (p : Parts) : List Node → Prop
  | [] => True
  | n :: ns => n.Each p ∧ Stylesheet.Each p ns

end

mutual

/-- The node has a form that the grammar gives, inside `d` at-rules that hold rules. -/
def Node.Fits (d : Nat) : Node → Prop
  | .rule r => r.selectors ≠ []
  | .block head children decls =>
    AtRule.holdsRules (AtRule.baseName head.name) = true ∧ d < AtRule.maxDepth ∧ decls = [] ∧
        Stylesheet.Fits (d + 1) children ∨
      AtRule.declarationNames.contains (AtRule.baseName head.name) = true ∧ children = []
  | .statement head => AtRule.isStatement (AtRule.baseName head.name) = true
  | .stray _ => False

/-- Each of the nodes has a form that the grammar gives, inside `d` at-rules that hold rules. -/
def Stylesheet.Fits (d : Nat) : List Node → Prop
  | [] => True
  | n :: ns => n.Fits d ∧ Stylesheet.Fits d ns

end

/-- Names and properties are single tokens, and values are not empty. -/
def wellFormed : Parts where
  selectors _ := True
  declaration d := Token.IsSingle .ident d.property ∧ d.value ≠ []
  block head := Token.IsSingle .atKeyword ('@' :: head.name)
  statement head := Token.IsSingle .atKeyword ('@' :: head.name)

/-- The prelude reads as itself, with `tail` behind it. -/
def AtHead.Faithful (tail : Text) (head : AtHead) : Prop :=
  ∃ ts, Token.ReadsAs (head.prelude ++ tail) ts ∧ text ts = head.prelude

/-- Values, selectors and preludes read as themselves in the spelling of the layout. -/
def faithful (layout : Layout) : Parts where
  selectors ss :=
    ∃ ts, Token.ReadsAs (layout.selectorText ss) ts ∧ Token.splitSelectors ts = ss ∧
      ∀ t ∈ ts.head?, t.kind ≠ .atKeyword
  declaration d :=
    ∃ ts, Token.ReadsAs (d.valueText layout) ts ∧
      Parser.splitImportant ts = (d.value, d.important)
  block := AtHead.Faithful layout.gap
  statement := AtHead.Faithful []

/-! ### Chunks -/

namespace Token

/-- The text has the tokens `ts`, at no particular place, and what follows keeps its own. -/
def Chunk (a : Text) (ts : List Token) : Prop :=
  ∃ ps, Sealed a ps ∧ (∀ w, Piece.comment w ∉ ps) ∧ ps.map Piece.token = ts

/-- The empty text is a chunk. -/
theorem Chunk.nil : Chunk [] [] := ⟨[], .nil, by simp, rfl⟩

/-- Two chunks in a row are a chunk, with the tokens of both. -/
theorem Chunk.append {a b : Text} {ts us : List Token} (ha : Chunk a ts) (hb : Chunk b us) :
    Chunk (a ++ b) (ts ++ us) := by
  obtain ⟨ps, hps, hcomment, rfl⟩ := ha
  obtain ⟨qs, hqs, hcomment', rfl⟩ := hb
  refine ⟨ps ++ qs, hps.append hqs, ?_, List.map_append⟩
  intro w hw
  rcases List.mem_append.1 hw with hw | hw
  · exact hcomment w hw
  · exact hcomment' w hw

/-- The token of a mark. -/
def ofMark (d : Char) : Token := ⟨.ofChar d, [d], .start⟩

/-- The token of the gap that blanks leave. -/
def gapOf (w : Text) : List Token := if w = [] then [] else [space .start]

/-- What blanks leave is a gap. -/
theorem kind_of_mem_gapOf {w : Text} : ∀ t ∈ gapOf w, t.kind = .whitespace := by
  intro t ht
  unfold gapOf at ht
  split at ht
  · cases ht
  · rw [List.mem_singleton.1 ht]
    rfl

/-- A mark by itself is a chunk. -/
theorem chunk_mark {d : Char} (hd : isMark d = true) : Chunk [d] [ofMark d] :=
  ⟨_, sealed_mark hd, by simp, rfl⟩

/-- The text starts, and with no blank. -/
def Inked (a : Text) : Prop := ∃ c y, a = c :: y ∧ isBlank c = false

/-- What starts with no blank still does so with more text behind it. -/
theorem Inked.append {a : Text} (ha : Inked a) (b : Text) : Inked (a ++ b) := by
  obtain ⟨c, y, rfl, hc⟩ := ha
  exact ⟨c, y ++ b, rfl, hc⟩

/-- Blanks in front of a chunk leave a gap. The chunk must not start with a blank itself, since
blanks that meet leave one gap only. -/
theorem Chunk.indent {w : Text} (hw : ∀ c ∈ w, isBlank c = true) {a : Text} (ha : Inked a)
    {ts : List Token} (h : Chunk a ts) : Chunk (w ++ a) (gapOf w ++ ts) := by
  by_cases hne : w = []
  · subst hne
    exact h
  obtain ⟨c, y, rfl, hc⟩ := ha
  obtain ⟨ps, hps, hcomment, rfl⟩ := h
  refine ⟨.blanks w :: ps, .indent hw hne hc hps, by simpa using hcomment, ?_⟩
  simp [gapOf, hne, Piece.token]

/-- The whole text has the tokens `ts`, at no particular place, and no comment among them. -/
structure Cuts (s : Text) (ts : List Token) : Prop where
  stuck : (cut s).stuck = none
  noComment : NoComment s
  tokens : (cut s).pieces.map Piece.token = ts

/-- The tokens of a text without comments, with their places taken off. -/
theorem cuts_of_words {s : Text} {ts : List Token} (h : words s = some ts) (hs : NoComment s) :
    Cuts s (ts.map unplaced) :=
  ⟨(words_eq_some_iff.1 h).1, hs, (words_map_unplaced h hs).symm⟩

/-- Tokens without places are those of the text with their places taken off. -/
theorem Cuts.exists_words {s : Text} {ts : List Token} (h : Cuts s ts) :
    ∃ us, words s = some us ∧ us.map unplaced = ts := by
  refine ⟨_, words_eq_some_iff.2 ⟨h.stuck, rfl⟩, ?_⟩
  rw [map_unplaced_ofPieces h.noComment (by simp), h.tokens]

/-- Tokens without places tell whether a text reads as a run. -/
theorem Cuts.readsAs {s : Text} {vs : List Token} (h : Cuts s vs) (hclosed : ClosedRun vs)
    (hlast : ∀ t ∈ vs.getLast?, ¬(t.kind = .delim ∧ t.value = ['\\'])) :
    ∃ us, ReadsAs s us ∧ us.map unplaced = vs := by
  obtain ⟨us, hwords, rfl⟩ := h.exists_words
  refine ⟨us, ⟨hwords, by simpa using hclosed, ?_⟩, rfl⟩
  intro t ht
  exact hlast t.unplaced (by rw [List.getLast?_map, ht]; rfl)

/-- A text keeps its tokens behind a chunk. Nothing is asked of the text: that its pieces do not
depend on what follows is what makes the first one a chunk. -/
theorem Chunk.append_cuts {a b : Text} {ts us : List Token} (ha : Chunk a ts) (hb : Cuts b us) :
    Cuts (a ++ b) (ts ++ us) := by
  obtain ⟨ps, hps, hcomment, rfl⟩ := ha
  have hab := hps b
  refine ⟨?_, ?_, ?_⟩
  · rw [hab, hb.stuck]
  · intro w hw
    rw [hab] at hw
    rcases List.mem_append.1 hw with hw | hw
    · exact hcomment w hw
    · exact hb.noComment w hw
  · rw [hab, List.map_append, hb.tokens]

/-- A blank text is one gap, or nothing if it is empty. Layouts put such texts between the parts
they write. -/
theorem cuts_blanks {w : Text} (hw : ∀ c ∈ w, isBlank c = true) : Cuts w (gapOf w) := by
  cases w with
  | nil =>
      refine ⟨by rw [cut_nil], ?_, by rw [cut_nil]; rfl⟩
      rw [NoComment, cut_nil]
      simp
  | cons c w =>
      have hall : ∀ x ∈ w, isBlank x = true := fun x hx => hw x (List.mem_cons_of_mem _ hx)
      have hnext : next c w = .ok (.blanks (c :: w), []) := by
        have htake : (w ++ []).takeWhile isBlank = w ++ [] := List.takeWhile_append_of_pos hall
        have hdrop : (w ++ []).dropWhile isBlank = [] := List.dropWhile_append_of_pos hall
        rw [List.append_nil] at htake hdrop
        rw [next_of_isBlank (hw c List.mem_cons_self), htake, hdrop]
      have hcut := cut_cons_of_next hnext
      rw [cut_nil] at hcut
      refine ⟨by rw [hcut], ?_, by rw [hcut]; rfl⟩
      rw [NoComment, hcut]
      simp

/-- A text without comments whose last token is no lone backslash is solid. The last token is that
of the last piece. -/
theorem solid_of_words {s : Text} {ts : List Token} (h : words s = some ts) (hs : NoComment s)
    (hlast : ∀ t ∈ ts.getLast?, ¬(t.kind = .delim ∧ t.value = ['\\'])) : Solid s := by
  refine ⟨(words_eq_some_iff.1 h).1, ?_⟩
  intro hd
  have hmap := congrArg List.getLast? (words_map_unplaced h hs)
  rw [List.getLast?_map, List.getLast?_map, hd] at hmap
  obtain ⟨t, ht, he⟩ := Option.map_eq_some_iff.1 hmap
  have hk := congrArg kind he
  have hv := congrArg value he
  exact hlast t ht ⟨hk, hv⟩

/-- A text that reads as a run is a chunk together with the mark behind it. It must not end with a
lone backslash, which would escape the mark. -/
theorem chunk_of_words {s : Text} {ts : List Token} (h : words s = some ts) (hs : NoComment s)
    (hlast : ∀ t ∈ ts.getLast?, ¬(t.kind = .delim ∧ t.value = ['\\'])) {d : Char}
    (hd : isMark d = true) : Chunk (s ++ [d]) (ts.map unplaced ++ [ofMark d]) := by
  refine ⟨_, (solid_of_words h hs hlast).mark hd, ?_, ?_⟩
  · intro w hw
    rcases List.mem_append.1 hw with hw | hw
    · exact hs w hw
    · simp at hw
  · rw [List.map_append, ← words_map_unplaced h hs]
    rfl

/-! ### Texts without comments

What is read from a text weighs as much as the text, so there is no comment in it. -/

/-- What is read from a text weighs as much as the text, so there is no comment in it. -/
theorem noComment_of_words {s : Text} {ts : List Token} (h : words s = some ts)
    (hw : weight s ≤ weight (concat ts)) : NoComment s := by
  obtain ⟨hstuck, rfl⟩ := words_eq_some_iff.1 h
  exact noComment_of_weight hstuck hw

/-- A text that is a single token has no comment. -/
theorem IsSingle.noComment {k : Kind} {s : Text} (h : IsSingle k s) : NoComment s :=
  noComment_of_words h (by simp)

/-- The blank of the layout weighs nothing. -/
theorem weight_gap (layout : Layout) : weight layout.gap = 0 := by
  cases layout <;> rfl

/-- The blank of the layout is a blank. -/
theorem isBlank_of_mem_gap (layout : Layout) : ∀ c ∈ layout.gap, isBlank c = true := by
  cases layout <;> simp [Layout.gap, isBlank]

/-- A value that reads as itself, with its mark, has no comment. It weighs as much as the run that
was read from it, which a comment would not be part of. -/
theorem noComment_value {layout : Layout} {d : Declaration} {ts : List Token}
    (h : words (d.valueText layout) = some ts)
    (hs : Parser.splitImportant ts = (d.value, d.important)) : NoComment (d.valueText layout) := by
  refine noComment_of_words h ?_
  rw [← weight_splitImportant (genuine_of_mem_words h), hs, Declaration.valueText, weight_append]
  have hmark : weight "!important".toList = 10 := by decide
  split
  · refine Nat.le_of_eq ?_
    rw [weight_append, weight_gap, hmark, Nat.zero_add]
  · simp

/-- Selectors that read as themselves have no comment. -/
theorem noComment_selectors {layout : Layout} {ss : List Text} {ts : List Token}
    (h : words (layout.selectorText ss) = some ts) (hs : splitSelectors ts = ss) (hne : ss ≠ []) :
    NoComment (layout.selectorText ss) := by
  refine noComment_of_words h ?_
  have hsep : weight (',' :: layout.gap) = 1 := by cases layout <;> decide
  subst hs
  rw [Layout.selectorText, weight_append, weight_gap]
  exact weight_join_splitSelectors (genuine_of_mem_words h) hsep hne

/-- A prelude that reads as itself has no comment. -/
theorem noComment_prelude {tail : Text} (htail : ∀ c ∈ tail, isBlank c = true) {head : AtHead}
    {ts : List Token} (h : words (head.prelude ++ tail) = some ts)
    (hs : text ts = head.prelude) : NoComment (head.prelude ++ tail) := by
  refine noComment_of_words h ?_
  rw [weight_append, weight_eq_zero htail, ← hs, weight_text]
  omega

/-! ### Where texts start -/

/-- The text of a run starts with no blank, since it is trimmed. -/
theorem inked_text {ts : List Token} (h : text ts ≠ []) : Inked (text ts) := by
  obtain ⟨c, y, he⟩ := List.exists_cons_of_ne_nil h
  refine ⟨c, y, he, ?_⟩
  have hc := Text.head?_trim (concat ts) c (by rw [← text, he]; rfl)
  cases hb : isBlank c with
  | false => rfl
  | true => rw [isTrimmed_of_isBlank hb] at hc; cases hc

/-- A value starts with no blank. -/
theorem inked_of_splitImportant {ts : List Token} {v : Text} {important : Bool}
    (h : Parser.splitImportant ts = (v, important)) (hv : v ≠ []) : Inked v := by
  rcases splitImportant_cases ts with ⟨g, value, g', -, -, -, hs⟩ | ⟨g, value, mark, -, -, -, hs⟩
  all_goals
    rw [h, Prod.mk.injEq] at hs
    obtain ⟨rfl, -⟩ := hs
    exact inked_text hv

/-- A selector is the text of a part of the run, and it is not empty. -/
theorem mem_splitSelectors {ts : List Token} {s : Text} (h : s ∈ splitSelectors ts) :
    s ≠ [] ∧ ∃ run ∈ splitAtCommas 0 ts, text run = s := by
  obtain ⟨hmem, hne⟩ := List.mem_filter.1 h
  refine ⟨by simpa using hne, ?_⟩
  simpa using hmem

/-- The selectors of a rule start with no blank, so the blanks in front of a written rule stay a gap
of their own. -/
theorem inked_splitSelectors {ts : List Token} {layout : Layout} (h : splitSelectors ts ≠ []) :
    Inked (layout.selectorText (splitSelectors ts)) := by
  obtain ⟨s, ss, hss⟩ := List.exists_cons_of_ne_nil h
  have hmem : s ∈ splitSelectors ts := by
    rw [hss]
    exact List.mem_cons_self
  obtain ⟨hne, run, -, hrun⟩ := mem_splitSelectors hmem
  -- the first selector is not empty, and it is trimmed, so it starts with ink
  have hs : Inked s := by
    rw [← hrun] at hne ⊢
    exact inked_text hne
  rw [hss, Layout.selectorText]
  cases ss with
  | nil =>
      rw [join_singleton]
      exact hs.append _
  | cons t ss =>
      rw [join_cons_cons]
      exact (hs.append _).append _

/-- The first token of a text that starts with no blank and has no comment is no gap: its first
piece is a lexeme. -/
theorem head_ne_whitespace {s : Text} {ts : List Token} (h : words s = some ts)
    (hs : NoComment s) (hink : Inked s) : ∀ t ∈ ts.head?, t.kind ≠ .whitespace := by
  obtain ⟨c, y, he, hc⟩ := hink
  intro t ht hk
  have hmap := congrArg List.head? (words_map_unplaced h hs)
  rw [List.head?_map, List.head?_map, ht] at hmap
  obtain ⟨p, hp, hpt⟩ := Option.map_eq_some_iff.1 hmap.symm
  have hpk : p.token.kind = .whitespace := by
    rw [hpt]
    exact hk
  have hmem : p ∈ (cut s).pieces := List.mem_of_head? hp
  subst he
  cases hn : next c y with
  | error f =>
      rw [cut, hn] at hp
      cases hp
  | ok q =>
      obtain ⟨q, rest⟩ := q
      rw [cut_cons_of_next hn] at hp
      obtain rfl : q = p := by simpa using hp
      -- the first piece is neither blanks nor a comment, so it is a lexeme
      cases q with
      | blanks w =>
          rw [(of_next_blanks hn).1] at hc
          cases hc
      | comment w => exact hs _ hmem
      | lexeme k v => exact (kind_of_mem_cut hmem).1 hpk

/-! ### Gaps in front of a run -/

/-- A gap in front leaves a run closed. -/
theorem closedRun_gapOf {w : Text} {ts : List Token} (h : ClosedRun ts) :
    ClosedRun (gapOf w ++ ts) := by
  unfold gapOf
  split
  · exact h
  · exact ⟨by simp [space], by simp [space], by simp [space], by simp [space], h⟩

/-- A gap by itself is a closed run. -/
theorem closedRun_gap (w : Text) : ClosedRun (gapOf w) := by
  have h : ClosedRun (gapOf w ++ []) := closedRun_gapOf rfl
  rwa [List.append_nil] at h

/-- A gap in front makes no difference to a value. -/
theorem splitImportant_gapOf (w : Text) (ts : List Token) :
    Parser.splitImportant (gapOf w ++ ts) = Parser.splitImportant ts := by
  unfold gapOf
  split
  · rfl
  · have hskip : Parser.skipSpace ([space .start] ++ ts) = Parser.skipSpace ts := rfl
    rw [Parser.splitImportant, Parser.splitImportant, hskip]

/-- A gap in front makes no difference to the text of a run. -/
theorem text_gapOf (w : Text) (ts : List Token) : text (gapOf w ++ ts) = text ts := by
  unfold gapOf
  split
  · rfl
  · exact Text.trim_cons_blank (by decide) _

end Token

namespace Grammar

/-- Gaps in front of a block of declarations add nothing. -/
theorem Decls.gaps {g ts : List Token} (hg : ∀ t ∈ g, t.kind = .whitespace)
    {ds : List Declaration} (h : Decls ts ds) : Decls (g ++ ts) ds := by
  induction g with
  | nil => exact h
  | cons t g ih =>
      exact .gap (.inl (hg t List.mem_cons_self)) (ih fun u hu => hg u (List.mem_cons_of_mem _ hu))

/-- Gaps in front of a list of rules add nothing. -/
theorem RuleList.gaps {d : Nat} {g ts : List Token} (hg : ∀ t ∈ g, t.kind = .whitespace)
    {ns : List Node} (h : RuleList d ts ns) : RuleList d (g ++ ts) ns := by
  induction g with
  | nil => exact h
  | cons t g ih =>
      exact .gap (.inl (hg t List.mem_cons_self)) (ih fun u hu => hg u (List.mem_cons_of_mem _ hu))

end Grammar

/-! ### Single tokens -/

/-- A text that is one lexeme as a whole is a single token. -/
theorem Token.isSingle_of_next {c : Char} {s : Text} {k : Kind}
    (h : next c s = .ok (.lexeme k (c :: s), [])) : IsSingle k (c :: s) := by
  rw [IsSingle, words_eq_some_iff, cut_cons_of_next h, cut_nil]
  exact ⟨rfl, rfl⟩

/-! ### Declarations -/

open Token (Chunk gapOf ofMark)

/-- A written declaration in one formula for both layouts. -/
theorem Declaration.render_eq (layout : Layout) (d : Declaration) :
    d.render layout = d.property ++ (':' :: (layout.gap ++ d.valueText layout)) := by
  cases layout <;> cases hd : d.important <;>
    simp [Declaration.render, Declaration.valueText, Layout.gap, hd]

/-- The first character of a single lexeme is no blank, or the text would be read as a gap. -/
theorem Token.IsSingle.inked {k : Kind} {s : Text} (h : IsSingle k s)
    (hk : k ≠ .whitespace) : Inked s := by
  have hpieces := words_map_unplaced h h.noComment
  cases hs : s with
  | nil =>
      rw [hs, cut_nil] at hpieces
      cases hpieces
  | cons c y =>
      refine ⟨c, y, rfl, ?_⟩
      cases hn : next c y with
      | error f =>
          rw [hs, cut, hn] at hpieces
          cases hpieces
      | ok q =>
          obtain ⟨p, rest⟩ := q
          rw [hs, cut_cons_of_next hn, List.map_cons] at hpieces
          have hhead := congrArg List.head? hpieces
          simp only [List.map_cons, List.head?_cons, Option.some.injEq] at hhead
          -- blanks and comments would be read as a space
          cases p with
          | blanks w => exact absurd (congrArg kind hhead) hk
          | comment w => exact absurd (congrArg kind hhead) hk
          | lexeme k v => exact not_isBlank_of_next hn

/-- A single token with a mark behind it is a chunk. It is not a lone backslash, since that is a
delimiter. -/
theorem Token.IsSingle.chunk {k : Kind} {s : Text} (h : IsSingle k s) (hk : k ≠ .delim) {d : Char}
    (hd : isMark d = true) : Chunk (s ++ [d]) [⟨k, s, .start⟩, ofMark d] := by
  refine chunk_of_words h h.noComment ?_ hd
  intro t ht
  obtain rfl : (⟨k, s, .start⟩ : Token) = t := by simpa using ht
  exact fun hbad => hk hbad.1

/-- A written declaration with the blanks before it adds one declaration to a block. Its chunk is
the property up to the colon and the value up to the semicolon, and its tokens are a declaration of
the grammar whose value reads as it was. -/
theorem exists_chunk_declaration {layout : Layout} {d : Declaration}
    (hwf : wellFormed.declaration d) (hf : (faithful layout).declaration d) {w : Text}
    (hw : ∀ c ∈ w, isBlank c = true) :
    ∃ ts, Chunk (w ++ (d.render layout ++ [';'])) ts ∧
      ∀ rest ds, Decls rest ds → Decls (ts ++ rest) (d :: ds) := by
  obtain ⟨hproperty, hvalue⟩ := hwf
  obtain ⟨run, ⟨hwords, hclosed, hlast⟩, hsplit⟩ := hf
  have hcomment := Token.noComment_value hwords hsplit
  have hink : Token.Inked (d.valueText layout) :=
    (Token.inked_of_splitImportant hsplit hvalue).append _
  -- the property up to the colon, then the value up to the semicolon
  have hname := hproperty.chunk (by decide) (d := ':') (by decide)
  have hrun := Token.chunk_of_words hwords hcomment hlast (d := ';') (by decide)
  have hboth := hname.append (hrun.indent (Token.isBlank_of_mem_gap layout) (hink.append _))
  have hchunk := hboth.indent hw (((hproperty.inked (by decide)).append _).append _)
  have htext : d.render layout ++ [';']
      = d.property ++ [':'] ++ (layout.gap ++ (d.valueText layout ++ [';'])) := by
    rw [Declaration.render_eq]
    simp
  rw [htext]
  refine ⟨_, hchunk, ?_⟩
  intro rest ds hrest
  have hsemi : Decls (ofMark ';' :: rest) ds := .gap (.inr rfl) hrest
  have hdecl := @Decls.declaration ⟨.ident, d.property, .start⟩ (ofMark ':') []
    (gapOf layout.gap ++ run.map unplaced) (ofMark ';' :: rest) ds rfl (by simp) rfl
    (Token.closedRun_gapOf (by simpa using hclosed)) (by simp [ofMark, Kind.ofChar]) hsemi
  -- the gap of the layout and the places of the tokens play no part in what is declared
  have hd : Grammar.declared d.property (gapOf layout.gap ++ run.map unplaced) = [d] := by
    rw [Grammar.declared, Token.splitImportant_gapOf, Parser.splitImportant_map_unplaced,
      hsplit, if_neg hvalue]
  rw [show (⟨.ident, d.property, .start⟩ : Token).value = d.property from rfl, hd] at hdecl
  have hgaps := hdecl.gaps (Token.kind_of_mem_gapOf (w := w))
  simpa using hgaps

/-- Written declarations add to a block in their order. Each ends with a semicolon, so it is a
chunk, and the next one is read as on its own. -/
theorem exists_chunk_declarations {layout : Layout} {ds : List Declaration}
    (hwf : ∀ d ∈ ds, wellFormed.declaration d) (hf : ∀ d ∈ ds, (faithful layout).declaration d)
    {w : Text} (hw : ∀ c ∈ w, isBlank c = true) :
    ∃ ts, Chunk (ds.flatMap fun d => w ++ (d.render layout ++ [';'])) ts ∧
      ∀ rest ds', Decls rest ds' → Decls (ts ++ rest) (ds ++ ds') := by
  induction ds with
  | nil => exact ⟨[], .nil, fun _ _ h => h⟩
  | cons d ds ih =>
      obtain ⟨ts, hts, hadd⟩ := exists_chunk_declaration (hwf d (by simp)) (hf d (by simp)) hw
      obtain ⟨us, hus, hadds⟩ := ih (fun e he => hwf e (List.mem_cons_of_mem _ he))
        (fun e he => hf e (List.mem_cons_of_mem _ he))
      refine ⟨ts ++ us, hts.append hus, ?_⟩
      intro rest ds' hrest
      rw [List.append_assoc]
      exact hadd _ _ (hadds _ _ hrest)

/-! ### Rules -/

/-- Texts joined by a separator, with one more in front, are the texts with a separator in front of
each. -/
theorem append_join (sep : Text) {ss : List Text} (hss : ss ≠ []) :
    sep ++ Text.join sep ss = ss.flatMap (sep ++ ·) := by
  induction ss with
  | nil => exact absurd rfl hss
  | cons s ss ih =>
      cases ss with
      | nil => simp
      | cons t ss =>
          rw [Token.join_cons_cons, List.flatMap_cons, ← ih (by simp)]
          simp

/-- The blank before the closing brace of a rule. -/
def Layout.closing (layout : Layout) (ds : List Declaration) : Text :=
  if ds = [] then [] else layout.gap

/-- The blank before a closing brace is a blank. -/
theorem isBlank_of_mem_closing (layout : Layout) (ds : List Declaration) :
    ∀ c ∈ layout.closing ds, isBlank c = true := by
  unfold Layout.closing
  split
  · simp
  · exact Token.isBlank_of_mem_gap layout

/-- A written rule in one formula for both layouts, with each blank in front of what follows it. -/
theorem Rule.render_eq (layout : Layout) (r : Rule) :
    r.render layout = layout.selectorText r.selectors ++ ['\x7b'] ++
      ((r.decls.flatMap fun d => layout.gap ++ (d.render layout ++ [';'])) ++
        (layout.closing r.decls ++ ['\x7d'])) := by
  cases layout with
  | compact =>
      simp [Rule.render, Layout.selectorText, Layout.closing, Layout.gap, List.flatMap]
  | spaced =>
      by_cases hd : r.decls = []
      · simp [Rule.render, Layout.selectorText, Layout.closing, Layout.gap, hd]
      · have hne : (r.decls.map fun d => d.render .spaced ++ [';']) ≠ [] := by simpa using hd
        have hjoin := append_join [' '] hne
        rw [List.flatMap_map] at hjoin
        simp only [Rule.render, Layout.selectorText, Layout.closing, Layout.gap, hd,
          List.map_eq_nil_iff, if_false, ← hjoin]
        simp

/-- A written rule with the blanks before it adds one rule to a list, at any depth. It is made up of
three chunks, the selectors up to the brace, the declarations, and the closing brace, each of which
reads as on its own. -/
theorem exists_chunk_rule {layout : Layout} {r : Rule} (hne : r.selectors ≠ [])
    (hwf : (Node.rule r).Each wellFormed) (hf : (Node.rule r).Each (faithful layout)) {w : Text}
    (hw : ∀ c ∈ w, isBlank c = true) (k : Nat) :
    ∃ ts, Chunk (w ++ r.render layout) ts ∧
      ∀ rest ns, RuleList k rest ns → RuleList k (ts ++ rest) (.rule r :: ns) := by
  obtain ⟨⟨run, ⟨hwords, hclosed, hlast⟩, hsplit, hat⟩, hfd⟩ := hf
  have hcomment := Token.noComment_selectors hwords hsplit hne
  have hink : Token.Inked (layout.selectorText r.selectors) := by
    rw [← hsplit] at hne ⊢
    exact Token.inked_splitSelectors hne
  have hspace := Token.head_ne_whitespace hwords hcomment hink
  -- the selectors up to the brace, the declarations, and the closing brace
  have hhead := Token.chunk_of_words hwords hcomment hlast (d := '\x7b') (by decide)
  obtain ⟨ts, hts, hadd⟩ := exists_chunk_declarations hwf.2 hfd (Token.isBlank_of_mem_gap layout)
  have hend := (Token.chunk_mark (d := '\x7d') (by decide)).indent
    (isBlank_of_mem_closing layout r.decls) ⟨_, _, rfl, by decide⟩
  have hchunk := (hhead.append (hts.append hend)).indent hw ((hink.append _).append _)
  rw [Rule.render_eq]
  refine ⟨_, hchunk, ?_⟩
  intro rest ns hrest
  have hbody : Decls (ts ++ gapOf (layout.closing r.decls)) r.decls := by
    have hgap := Decls.nil.gaps (Token.kind_of_mem_gapOf (w := layout.closing r.decls))
    simpa using hadd _ _ hgap
  have hrule := @RuleList.rule k (run.map unplaced) _ rest (ofMark '\x7b') (ofMark '\x7d') _ ns
    (by simpa using hclosed)
    (by
      intro t ht
      rw [List.head?_map] at ht
      obtain ⟨u, hu, rfl⟩ := Option.map_eq_some_iff.1 ht
      exact ⟨hspace u hu, hat u hu⟩)
    (by simpa [hsplit] using hne) rfl hbody rfl hrest
  rw [Token.splitSelectors_map_unplaced, hsplit] at hrule
  have hgaps := hrule.gaps (Token.kind_of_mem_gapOf (w := w))
  simpa using hgaps

/-! ### Heads of at-rules -/

namespace Token

/-- A single token is a single piece. -/
theorem IsSingle.cut_pieces {k : Kind} {s : Text} (h : IsSingle k s) (hk : k ≠ .whitespace) :
    (cut s).pieces = [.lexeme k s] := by
  have hmap := words_map_unplaced h h.noComment
  obtain ⟨p, hp, htoken⟩ := List.map_eq_singleton_iff.1 hmap.symm
  rw [hp]
  cases p with
  | blanks w => exact absurd (congrArg kind htoken).symm hk
  | comment w => exact absurd (congrArg kind htoken).symm hk
  | lexeme k' s' =>
      have hkind : k' = k := congrArg kind htoken
      have hvalue : s' = s := congrArg value htoken
      rw [hkind, hvalue]

/-- A single token, blanks, and a further chunk are a chunk. A sign is excluded, since a lone
backslash would escape the first blank. -/
theorem IsSingle.chunk_gap {k : Kind} {s : Text} (h : IsSingle k s) (hk : k ≠ .delim)
    (hspace : k ≠ .whitespace) {w : Text} (hw : ∀ c ∈ w, isBlank c = true) (hne : w ≠ [])
    {a : Text} (ha : Inked a) {ts : List Token} (hts : Chunk a ts) :
    Chunk (s ++ (w ++ a)) (⟨k, s, .start⟩ :: space .start :: ts) := by
  obtain ⟨c, y, rfl, hc⟩ := ha
  obtain ⟨ps, hps, hcomment, rfl⟩ := hts
  have hpieces := h.cut_pieces hspace
  have hsolid : Solid s := by
    refine ⟨(words_eq_some_iff.1 h).1, ?_⟩
    rw [Dangling, hpieces]
    simpa using fun hd => absurd hd hk
  refine ⟨_, hsolid.gap (by simp [hpieces]) hw hne hc hps, ?_, ?_⟩
  · simpa [hpieces] using hcomment
  · simp [hpieces, Piece.token]

end Token

/-- The token in front of an at-rule. -/
def AtHead.keyword (head : AtHead) : Token := ⟨.atKeyword, '@' :: head.name, .start⟩

/-- The head of an at-rule up to the mark behind it, with the blanks before it. A prelude is written
behind one blank; without a prelude the mark follows, in the spaced layout behind a blank. -/
theorem exists_chunk_head {head : AtHead} {tail w : Text}
    (hname : Token.IsSingle .atKeyword ('@' :: head.name)) (hf : head.Faithful tail)
    (htail : ∀ c ∈ tail, isBlank c = true) (hw : ∀ c ∈ w, isBlank c = true) {d : Char}
    (hd : isMark d = true) :
    ∃ pre, Chunk (w ++ (head.render ++ (tail ++ [d])))
        (gapOf w ++ (head.keyword :: (pre ++ [ofMark d]))) ∧
      ClosedRun pre ∧ Grammar.atHead head.keyword pre = head := by
  obtain ⟨run, ⟨hwords, hclosed, hlast⟩, htext⟩ := hf
  have hink : Token.Inked ('@' :: head.name) := hname.inked (by decide)
  have hmark : Token.Inked [d] := ⟨d, [], rfl, Token.isBlank_of_isMark hd⟩
  by_cases hp : head.prelude = []
  · -- only the blanks of the tail stand between the name and the mark
    have hhead : Grammar.atHead head.keyword (gapOf tail) = head := by
      have := Token.text_gapOf tail []
      rw [List.append_nil] at this
      rw [Grammar.atHead, this]
      show AtHead.mk head.name [] = head
      rw [← hp]
    rw [show head.render = '@' :: head.name from by simp [AtHead.render, hp]]
    refine ⟨gapOf tail, Chunk.indent hw (hink.append _) ?_, Token.closedRun_gap tail, hhead⟩
    by_cases ht : tail = []
    · subst ht
      exact hname.chunk (by decide) hd
    · rw [show gapOf tail = [Token.space .start] from by simp [gapOf, ht]]
      exact hname.chunk_gap (by decide) (by decide) htail ht hmark (Token.chunk_mark hd)
  · have hcomment := Token.noComment_prelude htail hwords htext
    have hprelude : Token.Inked head.prelude := by
      rw [← htext] at hp ⊢
      exact Token.inked_text hp
    have hrun := Token.chunk_of_words hwords hcomment hlast hd
    have hall := hname.chunk_gap (by decide) (by decide) Token.isBlank_of_mem_space (by decide)
      ((hprelude.append _).append _) hrun
    have hrender : head.render ++ (tail ++ [d])
        = '@' :: head.name ++ ([' '] ++ (head.prelude ++ tail ++ [d])) := by
      simp [AtHead.render, hp]
    rw [hrender]
    refine ⟨gapOf [' '] ++ run.map unplaced, ?_, ?_, ?_⟩
    · have hindent := hall.indent hw (hink.append _)
      simpa [gapOf, AtHead.keyword] using hindent
    · exact Token.closedRun_gapOf (by simpa using hclosed)
    · rw [Grammar.atHead, Token.text_gapOf, Token.text_map_unplaced, htext]
      rfl

/-! ### Nodes

A line ends with a line feed in the spaced layout. The blanks before a line count as part of it
here, so the line feed is put in front of the next line. -/

/-- What ends a line. -/
def Layout.lead : Layout → Text
  | .spaced => ['\n']
  | .compact => []

/-- What ends a line is blank. -/
theorem isBlank_of_mem_lead (layout : Layout) : ∀ c ∈ layout.lead, isBlank c = true := by
  cases layout <;> simp [Layout.lead, isBlank]

/-- An indentation is blank. -/
theorem isBlank_of_mem_indent (layout : Layout) (depth : Nat) :
    ∀ c ∈ layout.indent depth, isBlank c = true := by
  intro c hc
  cases layout with
  | spaced =>
      rw [List.eq_of_mem_replicate hc]
      decide
  | compact => cases hc

/-- Blanks in a row are blanks. -/
theorem isBlank_of_mem_append {v w : Text} (hv : ∀ c ∈ v, isBlank c = true)
    (hw : ∀ c ∈ w, isBlank c = true) : ∀ c ∈ v ++ w, isBlank c = true := by
  intro c hc
  rcases List.mem_append.1 hc with hc | hc
  · exact hv c hc
  · exact hw c hc

/-- A block starts with the blank of the layout and a brace. -/
theorem Layout.blockStart_eq (layout : Layout) : layout.blockStart = layout.gap ++ ['\x7b'] := by
  cases layout <;> rfl

mutual

/-- A written node with the blanks before it adds itself to a list. The induction is on the tree,
with `exists_chunk_nodes` for the children. The depth of the indentation and the depth in the
grammar are counted apart. -/
theorem exists_chunk_node (layout : Layout) (depth : Nat) {d : Nat} :
    (n : Node) → n.Fits d → n.Each wellFormed → n.Each (faithful layout) →
    ∀ w : Text, (∀ c ∈ w, isBlank c = true) →
    ∃ l ls ts, n.lines layout depth = l :: ls ∧
      Chunk (w ++ (l ++ ls.flatMap (layout.lead ++ ·))) ts ∧
      ∀ rest ns, RuleList d rest ns → RuleList d (ts ++ rest) (n :: ns)
  | .rule r, hfit, hwf, hf, w, hw => by
      have hblank := isBlank_of_mem_append hw (isBlank_of_mem_indent layout depth)
      obtain ⟨ts, hts, hadd⟩ := exists_chunk_rule hfit hwf hf hblank d
      exact ⟨_, [], ts, rfl, by simpa using hts, hadd⟩
  | .statement head, hfit, hwf, hf, w, hw => by
      have hblank := isBlank_of_mem_append hw (isBlank_of_mem_indent layout depth)
      obtain ⟨pre, hpre, hclosed, hhead⟩ :=
        exists_chunk_head hwf hf (by simp) hblank (d := ';') (by decide)
      refine ⟨_, [], _, rfl, by simpa using hpre, ?_⟩
      intro rest ns hrest
      have hnode := @RuleList.statement d head.keyword (ofMark ';') pre rest ns rfl hfit hclosed
        rfl hrest
      rw [hhead] at hnode
      simpa using hnode.gaps (Token.kind_of_mem_gapOf (w := w ++ layout.indent depth))
  | .block head children decls, hfit, hwf, hf, w, hw => by
      obtain ⟨hname, hwfd, hwfc⟩ := hwf
      obtain ⟨hprelude, hfd, hfc⟩ := hf
      have hblank := isBlank_of_mem_append hw (isBlank_of_mem_indent layout depth)
      have hinner := isBlank_of_mem_append (isBlank_of_mem_lead layout)
        (isBlank_of_mem_indent layout (depth + 1))
      have houter := isBlank_of_mem_append (isBlank_of_mem_lead layout)
        (isBlank_of_mem_indent layout depth)
      obtain ⟨pre, hpre, hclosed, hhead⟩ := exists_chunk_head hname hprelude
        (Token.isBlank_of_mem_gap layout) hblank (d := '\x7b') (by decide)
      obtain ⟨ts, hts, hadd⟩ := exists_chunk_declarations hwfd hfd hinner
      have hend := (Token.chunk_mark (d := '\x7d') (by decide)).indent houter
        ⟨_, _, rfl, by decide⟩
      have hgap := Token.kind_of_mem_gapOf (w := layout.lead ++ layout.indent depth)
      rcases hfit with ⟨hholds, hdepth, hds, hfit⟩ | ⟨hdeclares, hcs⟩
      · -- an at-rule that holds rules: the chunks of its children stand in its block
        subst hds
        obtain ⟨us, hus, hadds⟩ :=
          exists_chunk_nodes layout (depth + 1) children hfit hwfc hfc
        refine ⟨_, _, gapOf (w ++ layout.indent depth) ++
          (head.keyword :: (pre ++ [ofMark '\x7b'])) ++
          (us ++ (gapOf (layout.lead ++ layout.indent depth) ++ [ofMark '\x7d'])), rfl, ?_, ?_⟩
        · have hchunk := hpre.append (hus.append hend)
          simpa [Layout.blockStart_eq] using hchunk
        · intro rest ns hrest
          have hbody := hadds _ _ (RuleList.nil.gaps hgap)
          have hnode := @RuleList.ruleBlock d head.keyword (ofMark '\x7b') (ofMark '\x7d') pre _
            rest _ ns rfl hholds hdepth hclosed rfl hbody rfl hrest
          rw [hhead] at hnode
          simpa using hnode.gaps (Token.kind_of_mem_gapOf (w := w ++ layout.indent depth))
      · -- an at-rule that holds declarations
        subst hcs
        refine ⟨_, _, gapOf (w ++ layout.indent depth) ++
          (head.keyword :: (pre ++ [ofMark '\x7b'])) ++
          (ts ++ (gapOf (layout.lead ++ layout.indent depth) ++ [ofMark '\x7d'])), rfl, ?_, ?_⟩
        · have hchunk := hpre.append (hts.append hend)
          simpa [Layout.blockStart_eq, Stylesheet.lines, List.flatMap_map] using hchunk
        · intro rest ns hrest
          have hbody := hadd _ _ (Decls.nil.gaps hgap)
          have hnode := @RuleList.declBlock d head.keyword (ofMark '\x7b') (ofMark '\x7d') pre _
            rest _ ns rfl hdeclares hclosed rfl hbody rfl hrest
          rw [hhead] at hnode
          simpa using hnode.gaps (Token.kind_of_mem_gapOf (w := w ++ layout.indent depth))
  | .stray _, hfit, _, _, _, _ => False.elim hfit

/-- Written nodes, each line behind what ends the line before it, add themselves to a list. The
statement is about any nodes behind them, which makes it an induction. -/
theorem exists_chunk_nodes (layout : Layout) (depth : Nat) {d : Nat} :
    (ns : List Node) → Stylesheet.Fits d ns → Stylesheet.Each wellFormed ns →
    Stylesheet.Each (faithful layout) ns →
    ∃ ts, Chunk ((Stylesheet.lines layout depth ns).flatMap (layout.lead ++ ·)) ts ∧
      ∀ rest ns', RuleList d rest ns' → RuleList d (ts ++ rest) (ns ++ ns')
  | [], _, _, _ => ⟨[], .nil, fun _ _ h => h⟩
  | n :: ns, hfit, hwf, hf => by
      obtain ⟨l, ls, ts, hlines, hts, hadd⟩ := exists_chunk_node layout depth n hfit.1 hwf.1 hf.1
        layout.lead (isBlank_of_mem_lead layout)
      obtain ⟨us, hus, hadds⟩ := exists_chunk_nodes layout depth ns hfit.2 hwf.2 hf.2
      refine ⟨ts ++ us, ?_, ?_⟩
      · have hchunk := hts.append hus
        simpa [Stylesheet.lines, hlines] using hchunk
      · intro rest ns' hrest
        rw [List.append_assoc]
        exact hadd _ _ (hadds _ _ hrest)

end

/-! ### Stylesheets -/

/-- A source gives a tree just if its tokens derive the tree. This replaces the parser by the
grammar in all that follows, and the tokenizer by the words of the source. -/
theorem ofSource_eq_ok_iff {s : Text} {sheet : Stylesheet} :
    Stylesheet.ofSource s = .ok sheet ↔ ∃ ts, words s = some ts ∧ RuleList 0 ts sheet := by
  constructor
  · intro h
    rw [Stylesheet.ofSource, Stylesheet.read] at h
    cases ht : Token.tokenize s with
    | error e => simp [ht] at h
    | ok ts =>
        rw [ht] at h
        -- a source that can be cut has the `eof` token at the end of its tokens
        obtain ⟨us, eof, rfl, heof⟩ : ∃ us eof, ts = us ++ [eof] ∧ eof.kind = .eof := by
          cases hstuck : (Token.cut s).stuck with
          | some f => simp [Token.tokenize, hstuck] at ht
          | none =>
              simp only [Token.tokenize, hstuck, Except.ok.injEq] at ht
              exact ⟨_, _, ht.symm, rfl⟩
        have hwords : words s = some us := by simp [words, ht]
        refine ⟨us, hwords, Grammar.ruleList_of_parse heof
          (Token.kind_ne_eof_of_mem_words hwords) ?_⟩
        dsimp only at h
        cases hp : (Stylesheet.parse (us ++ [eof])).result with
        | error e => rw [hp] at h; cases h
        | ok t => rw [hp] at h; cases h; rfl
  · rintro ⟨ts, hwords, hlist⟩
    obtain ⟨hstuck, hts⟩ := Token.words_eq_some_iff.1 hwords
    rw [Stylesheet.ofSource, Stylesheet.read, Token.tokenize]
    simp only [hstuck, ← hts]
    rw [Grammar.parse_of_ruleList rfl (Token.kind_ne_eof_of_mem_words hwords) hlist]
    rfl

/-- A written stylesheet is the row of its lines, each with what ends it. -/
theorem Stylesheet.render_eq (sheet : Stylesheet) (layout : Layout) :
    sheet.render layout = (Stylesheet.lines layout 0 sheet).flatMap (· ++ layout.lead) := by
  cases layout with
  | spaced => rfl
  | compact => simp [Stylesheet.render, Layout.lead, List.flatMap]

/-- What ends a line may be put in front of the next line, except for the last one. -/
theorem flatMap_append_lead (w l : Text) (ls : List Text) :
    (l :: ls).flatMap (· ++ w) = l ++ ls.flatMap (w ++ ·) ++ w := by
  induction ls generalizing l with
  | nil => simp
  | cons m ls ih =>
      rw [List.flatMap_cons, ih m]
      simp

/-- A tree whose parts read as themselves in the spelling of the layout reads as itself. The lines
of its nodes are chunks, so they can be read one after the other, and the last line is followed by
blanks only. -/
theorem ofSource_render {sheet : Stylesheet} {layout : Layout} (hfit : Stylesheet.Fits 0 sheet)
    (hwf : Stylesheet.Each wellFormed sheet) (hf : Stylesheet.Each (faithful layout) sheet) :
    Stylesheet.ofSource (sheet.render layout) = .ok sheet := by
  rw [ofSource_eq_ok_iff, Stylesheet.render_eq]
  cases sheet with
  | nil =>
      refine ⟨[], ?_, .nil⟩
      rw [Stylesheet.lines, Token.words_eq_some_iff, List.flatMap_nil, Token.cut_nil]
      exact ⟨rfl, rfl⟩
  | cons n ns =>
      -- no line stands before the first node, so nothing is put in front of it
      obtain ⟨l, ls, ts, hlines, hts, hadd⟩ :=
        exists_chunk_node layout 0 n hfit.1 hwf.1 hf.1 [] (by simp)
      obtain ⟨us, hus, hadds⟩ := exists_chunk_nodes layout 0 ns hfit.2 hwf.2 hf.2
      obtain ⟨vs, hwords, hvs⟩ := ((hts.append hus).append_cuts
        (Token.cuts_blanks (isBlank_of_mem_lead layout))).exists_words
      have htext : (Stylesheet.lines layout 0 (n :: ns)).flatMap (· ++ layout.lead)
          = [] ++ (l ++ ls.flatMap (layout.lead ++ ·)) ++
            (Stylesheet.lines layout 0 ns).flatMap (layout.lead ++ ·) ++ layout.lead := by
        rw [Stylesheet.lines, hlines, List.cons_append, flatMap_append_lead]
        simp
      rw [htext]
      refine ⟨vs, hwords, RuleList.of_unplaced ?_ hvs⟩
      rw [List.append_assoc]
      have hrest := hadds _ _ (RuleList.nil.gaps (Token.kind_of_mem_gapOf (w := layout.lead)))
      simpa using hadd _ _ hrest

mutual

/-- A node of the grammar holds no stray text. -/
theorem Node.stray?_of_fits {d : Nat} : (n : Node) → n.Fits d → n.stray? = none
  | .rule _, _ => rfl
  | .block _ children _, h => by
      rw [Node.stray?]
      rcases h with ⟨-, -, -, h⟩ | ⟨-, rfl⟩
      · exact Stylesheet.stray?_of_fits children h
      · rfl
  | .statement _, _ => rfl
  | .stray _, h => False.elim h

/-- Nodes of the grammar hold no stray text. -/
theorem Stylesheet.stray?_of_fits {d : Nat} :
    (ns : List Node) → Stylesheet.Fits d ns → Stylesheet.stray? ns = none
  | [], _ => rfl
  | n :: ns, h => by
      rw [Stylesheet.stray?, Node.stray?_of_fits n h.1, Stylesheet.stray?_of_fits ns h.2]
      rfl

end

/-- A tree of the grammar can be written. -/
theorem Stylesheet.render?_of_fits {sheet : Stylesheet} (h : Stylesheet.Fits 0 sheet)
    (layout : Layout) : sheet.render? layout = .ok (sheet.render layout) := by
  rw [Stylesheet.render?, Stylesheet.stray?_of_fits sheet h]

end CssHints
