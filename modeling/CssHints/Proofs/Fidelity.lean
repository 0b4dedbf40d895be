import CssHints.Proofs.Align
import CssHints.Proofs.Items

/-!
# `CssHints.Proofs.Fidelity`: the trees that survive being written

A tree that was read from a source is not always read back from its written form: a value that
ends with a backslash makes an escape of the semicolon behind it. `CssHints.Proofs.ReadBack` has a
condition on the texts of the tree under which all goes well (`faithful`). This module shows that
the condition is exact: if the written tree reads as itself, then each of its texts reads as itself
in its own place (`faithful_of_ofSource_render`).

The written form might be read as the same tree by accident, with the parts of the tree found at
other places of the text. Two measures exclude that.

* `weight`: the tokens of the written form weigh as much as its items and no item weighs more than
  the tokens it is read from. So there are no comments, no dropped declarations and no empty
  selectors in it.
* `ink`: an item that is read has the ink of the item that was written. So the items stand at the
  same places, one after the other (`Item.holds_of_reads`).
-/

set_option autoImplicit false

namespace CssHints

open Token (words text concat unplaced isMark isBlank weight weight_append ink ink_append Genuine
  Cuts Dangling Inked ReadsAs splitSelectors splitAtCommas)
open Grammar (ClosedRun IsGap)

/-! ### The ink of what is read -/

namespace Token

/-- All that weighs is ink, so a text weighs as much as its ink. -/
theorem weight_ink (s : Text) : weight (ink s) = weight s := by
  rw [weight, ink, List.countP_filter, weight]
  congr 1
  funext c
  cases hc : Text.isTrimmed c <;> simp [weighs, hc]

/-- Tokens keep the weight of their text, if there is no comment in it, since they keep its ink. -/
theorem Cuts.weight_concat {s : Text} {ts : List Token} (h : Cuts s ts) :
    weight (concat ts) = weight s := by
  rw [← weight_ink, h.ink_concat, weight_ink]

/-- The ink of a joined list is that of its texts, joined with the ink of the separator. Both
layouts separate selectors with the same ink. -/
theorem ink_join (sep : Text) (ss : List Text) :
    ink (Text.join sep ss) = Text.join (ink sep) (ss.map ink) := by
  induction ss with
  | nil => rfl
  | cons s ss ih =>
      cases ss with
      | nil => simp
      | cons t ss =>
          rw [List.map_cons] at ih
          rw [List.map_cons, List.map_cons, join_cons_cons, join_cons_cons, ink_append, ink_append,
            ih]

/-- The runs between commas are put together again by commas. The commas inside of groups were not
taken away, so the ones that were are exactly those between the runs. -/
theorem join_splitAtCommas {ts : List Token} (hts : ∀ t ∈ ts, Genuine t) (depth : Nat) :
    Text.join [','] ((splitAtCommas depth ts).map concat) = concat ts := by
  induction ts generalizing depth with
  | nil => rfl
  | cons t ts ih =>
      have ih := ih fun u hu => hts u (List.mem_cons_of_mem _ hu)
      rw [splitAtCommas]
      split
      · rename_i hcomma
        -- a comma outside of groups: it is taken out, and put back when the runs are joined
        have hv : t.value = [','] :=
          (hts t List.mem_cons_self).value_eq (d := ',') hcomma.1 (by decide)
        have ih := ih 0
        obtain ⟨run, runs, hruns⟩ := List.exists_cons_of_ne_nil (splitAtCommas_ne_nil 0 ts)
        rw [hruns, List.map_cons] at ih
        rw [hruns, List.map_cons, List.map_cons, join_cons_cons, ih, concat_cons, hv]
        rfl
      · have ih := ih (groupDepth depth t)
        obtain ⟨run, runs, hruns⟩ :=
          List.exists_cons_of_ne_nil (splitAtCommas_ne_nil (groupDepth depth t) ts)
        rw [hruns] at ih ⊢
        dsimp only
        rw [concat_cons, ← ih]
        cases runs with
        | nil => simp
        | cons run' runs => simp [join_cons_cons]

/-- Texts that are left out take some weight with them, so a selection that weighs as much as the
whole is the whole. -/
theorem filter_eq_self_of_weights_le {p : Text → Bool} {ss : List Text}
    (h : weights ss ≤ weights (ss.filter p)) : ss.filter p = ss := by
  induction ss with
  | nil => rfl
  | cons s ss ih =>
      have hle := weights_filter_le p ss
      rw [List.filter_cons] at h ⊢
      split at h
      · rename_i hp
        rw [if_pos hp, ih (by simpa using h)]
      · rw [weights_cons] at h
        omega

/-- Selectors that weigh as much as the run they are read from have its ink: then none was left out,
and the commas between them are those of the run. -/
theorem ink_join_splitSelectors {ts : List Token} (hts : ∀ t ∈ ts, Genuine t) {sep : Text}
    (hweight : weight sep = 1) (hink : ink sep = [',']) (hne : splitSelectors ts ≠ [])
    (h : weight (concat ts) ≤ weight (Text.join sep (splitSelectors ts))) :
    ink (Text.join sep (splitSelectors ts)) = ink (concat ts) := by
  -- no selector was left out, so the selectors are all the runs between commas
  have hkept : splitSelectors ts = (splitAtCommas 0 ts).map text := by
    refine filter_eq_self_of_weights_le ?_
    rw [weights_map_text, weights_splitAtCommas hts 0]
    have hjoin := weight_join hweight hne
    rw [splitSelectors] at hjoin h
    omega
  have htexts :
      ((splitAtCommas 0 ts).map text).map ink = ((splitAtCommas 0 ts).map concat).map ink := by
    simp
  have hcomma : ink [','] = [','] := by decide
  rw [hkept, ink_join, hink, htexts, ← join_splitAtCommas hts 0, ink_join, hcomma]

/-- A character and its lower form are both blanks or both not. Hence writing a name in lower case
leaves the blanks of a text where they are. -/
theorem isTrimmed_lowerChar (c : Char) :
    Text.isTrimmed (Text.lowerChar c) = Text.isTrimmed c := by
  cases hc : Text.isTrimmed c with
  | true => rw [lowerChar_of_isTrimmed hc, hc]
  | false =>
      by_cases hsemi : c = ';'
      · subst hsemi
        decide
      · -- apart from semicolons, what is no blank weighs, and the lower form keeps the weight
        have hw := weighs_lowerChar c
        rw [show weighs c = true by simp [weighs, hc, hsemi]] at hw
        simp only [weighs, Bool.and_eq_true, Bool.not_eq_true'] at hw
        exact hw.1

/-- A text in lower case has as much ink as the text itself. -/
theorem length_ink_lower (s : Text) : (ink (Text.lower s)).length = (ink s).length := by
  rw [ink, Text.lower, List.filter_map, List.length_map, ink]
  congr 2
  funext c
  simp [isTrimmed_lowerChar]

/-- A mark of importance has as much ink however it is written: the sign, and the nine letters of
the word in any case. -/
theorem MarksImportant.length_ink {ts : List Token} (h : MarksImportant ts)
    (hts : ∀ t ∈ ts, Genuine t) : (ink (concat ts)).length = 10 := by
  obtain ⟨bang, gap, word, gap', rfl, ⟨-, hbang⟩, hgap, ⟨-, hword⟩, hgap'⟩ := h
  have hw : (ink word.value).length = 9 := by
    rw [← length_ink_lower, hword]
    decide
  have hb : ink ['!'] = ['!'] := by decide
  have hg := ink_spaces (fun t ht => hts t (by simp [ht])) hgap
  have hg' := ink_spaces (fun t ht => hts t (by simp [ht])) hgap'
  simp only [concat_cons, concat_append, ink_append, hbang, hb, hg, hg', List.nil_append,
    List.append_nil, List.length_append, List.length_singleton, hw]

end Token

/-- A value with its mark has as much ink as the run it is read from, although the mark may be
spelled differently there. -/
theorem length_ink_valueText {value : List Token} (hvalue : ∀ t ∈ value, Genuine t)
    {d : Declaration} (h : Parser.splitImportant value = (d.value, d.important))
    (layout : Layout) : (ink (d.valueText layout)).length = (ink (concat value)).length := by
  have hgap : ink layout.gap = [] := Token.ink_blanks (Token.isBlank_of_mem_gap layout)
  have hmark : (ink "!important".toList).length = 10 := by decide
  rw [Declaration.valueText]
  rcases Token.splitImportant_cases value with
    ⟨g, run, g', rfl, hg, hg', hs⟩ | ⟨g, run, mark, rfl, hg, hm, hs⟩
  · -- without a mark the value is the run between its outer gaps
    rw [h, Prod.mk.injEq] at hs
    have h₁ := Token.ink_spaces (fun t ht => hvalue t (by simp [ht])) hg
    have h₂ := Token.ink_spaces (fun t ht => hvalue t (by simp [ht])) hg'
    simp [hs.1, hs.2, h₁, h₂]
  · -- with a mark, both spellings of it have ten characters of ink
    rw [h, Prod.mk.injEq] at hs
    have h₁ := Token.ink_spaces (fun t ht => hvalue t (by simp [ht])) hg
    have h₂ := hm.length_ink fun t ht => hvalue t (by simp [ht])
    rw [hs.1, hs.2, if_pos rfl]
    simp only [ink_append, Token.ink_text, Token.concat_append, h₁, hgap, List.nil_append,
      List.length_append, hmark, h₂]

/-- The written head of an at-rule has the ink of the tokens it is read from. Only gaps are added or
left out when it is written. -/
theorem ink_render_atHead {keyword : Token} {pre : List Token} (hk : keyword.kind = .atKeyword)
    (hgenuine : Genuine keyword) :
    ink (Grammar.atHead keyword pre).render = ink (concat (keyword :: pre)) := by
  have hname : '@' :: (Grammar.atHead keyword pre).name = keyword.value :=
    Token.cons_atName hgenuine hk
  have hbehind : ink (Grammar.atHead keyword pre).behindName = ink (text pre) := by
    unfold AtHead.behindName
    split
    · rename_i hnil
      exact congrArg ink hnil.symm
    · have hspace : Text.isTrimmed ' ' = true := by decide
      simp [ink, hspace, Grammar.atHead]
  rw [AtHead.render_eq, hname, ink_append, hbehind, Token.ink_text, Token.concat_cons, ink_append]

/-- An edge that weighs as much as the run it is read from has its ink. Only selectors need the
condition: an empty one would have been left out with its comma. -/
theorem Edge.ReadFrom.ink_eq {e : Edge} {run : List Token} {mark : Token}
    (h : e.ReadFrom run mark) (hrun : ∀ t ∈ run, Genuine t) {layout : Layout}
    (hweight : weight (concat run) ≤ weight (e.text layout)) :
    ink (concat run) = ink (e.text layout) := by
  have hgap : ink layout.gap = [] := Token.ink_blanks (Token.isBlank_of_mem_gap layout)
  cases h with
  -- here texts can get lost, empty selectors with their commas; that none were is what the weights
  -- say
  | rule _ _ hne _ =>
      have hsep : weight (',' :: layout.gap) = 1 := by cases layout <;> decide
      have hcomma : ink (',' :: layout.gap) = [','] := by cases layout <;> decide
      rw [Edge.text, Layout.selectorText, weight_append, Token.weight_gap] at hweight
      rw [Edge.text, Layout.selectorText, ink_append, hgap, List.append_nil,
        Token.ink_join_splitSelectors hrun hsep hcomma hne hweight]
  | block hk _ _ =>
      rw [Edge.text, ink_append, hgap, List.append_nil,
        ink_render_atHead hk (hrun _ List.mem_cons_self)]
  | statement hk _ _ => rw [Edge.text, ink_render_atHead hk (hrun _ List.mem_cons_self)]
  | close _ => rfl

/-! ### Items at the same places -/

/-- The ink of gaps is their semicolons, and without ink they are blanks only. So gaps that were
written without a semicolon can be compared with the blanks of a layout. -/
theorem exists_ink_gaps {g : List Token} (hgenuine : ∀ t ∈ g, Genuine t) (hg : ∀ t ∈ g, IsGap t) :
    ∃ k, ink (concat g) = List.replicate k ';' ∧ (k = 0 → ∀ t ∈ g, t.kind = .whitespace) := by
  induction g with
  | nil => exact ⟨0, rfl, by simp⟩
  | cons t g ih =>
      obtain ⟨k, hk, hspace⟩ := ih (fun u hu => hgenuine u (List.mem_cons_of_mem _ hu))
        (fun u hu => hg u (List.mem_cons_of_mem _ hu))
      rw [Token.concat_cons, ink_append, hk]
      -- a space leaves no ink, a semicolon its own
      rcases hg t List.mem_cons_self with ht | ht
      · rw [(hgenuine t List.mem_cons_self).space_value ht, show ink [' '] = [] by decide]
        refine ⟨k, rfl, ?_⟩
        intro hzero u hu
        rcases List.mem_cons.1 hu with rfl | hu
        · exact ht
        · exact hspace hzero u hu
      · rw [(hgenuine t List.mem_cons_self).value_eq (d := ';') ht (by decide),
          show ink [';'] = [';'] by decide]
        exact ⟨k + 1, rfl, by simp⟩

/-- A text is not its own continuation behind semicolons, unless it is made of them. The induction
takes one semicolon after the other off the front of the text. -/
theorem eq_zero_of_replicate_append {k : Nat} {v y z : Text} (hv : ∃ c ∈ v, c ≠ ';')
    (h : List.replicate k ';' ++ (v ++ z) = v ++ y) : k = 0 := by
  induction v generalizing k z with
  | nil => simp at hv
  | cons c v ih =>
      cases k with
      | zero => rfl
      | succ k =>
          obtain ⟨rfl, hrest⟩ : ';' = c ∧ List.replicate k ';' ++ c :: (v ++ z) = v ++ y := by
            simpa [List.replicate_succ] using h
          have hv' : ∃ c ∈ v, c ≠ ';' := by
            obtain ⟨c, hc, hne⟩ := hv
            rcases List.mem_cons.1 hc with rfl | hc
            · exact absurd rfl hne
            · exact ⟨c, hc, hne⟩
          -- one semicolon moves from the text to those before it
          have hmove : List.replicate (k + 1) ';' ++ (v ++ z) = v ++ y := by
            rw [← hrest, List.replicate_succ']
            simp
          exact absurd (ih hv' hmove) (by omega)

/-- A run with the ink of the part before a sign was cut from that part, whatever gaps stand before
the run: a semicolon among them would have been written. What stands behind the sign is cut from
what was written behind it, so the comparison can go on there. -/
theorem Token.Cuts.aligned {w a s : Text} {d : Char} {g run ts : List Token} {mark : Token}
    (h : Cuts (w ++ (a ++ d :: s)) ((g ++ (run ++ mark :: ts)).map unplaced))
    (hw : ∀ c ∈ w, isBlank c = true) (ha : Inked (a ++ [d])) (hd : isMark d = true)
    (hdink : Text.isTrimmed d = false) (hg : ∀ t ∈ g, IsGap t) (hgenuine : ∀ t ∈ g, Genuine t)
    (hhead : ∀ t ∈ (run ++ mark :: ts).head?, t.kind ≠ .whitespace) (hmark : mark.value = [d])
    (hink : ink (concat run) = ink a) (hsemi : ∃ c ∈ ink a ++ [d], c ≠ ';') :
    Cuts a (run.map unplaced) ∧ ¬Dangling a ∧ Cuts s (ts.map unplaced) := by
  have hsign : ∀ t, ink (d :: t) = d :: ink t := ink_cons_of_not_isTrimmed hdink
  obtain ⟨k, hk, hspace⟩ := exists_ink_gaps hgenuine hg
  -- the ink of the gaps is in front of that of the run, and the ink of the run comes first in the
  -- text
  have hzero : k = 0 := by
    refine eq_zero_of_replicate_append (z := ink (concat ts)) (y := ink s) hsemi ?_
    have hall := h.ink_concat
    simp only [concat_map_unplaced, concat_append, concat_cons, hmark, ink_append, hk, hink,
      ink_blanks hw, hsign] at hall
    simpa using hall
  have hinked : Inked (a ++ d :: s) := by
    have hfront := ha.append s
    rwa [List.append_assoc] at hfront
  have hskip : Parser.skipSpace (g ++ (run ++ mark :: ts)) = run ++ mark :: ts := by
    have hall : ∀ t ∈ g, decide (t.kind = .whitespace) = true := by simpa using hspace hzero
    rw [Parser.skipSpace, List.dropWhile_append_of_pos hall]
    exact skipSpace_eq_self hhead
  have hrest := h.skipSpace hw hinked
  rw [Parser.skipSpace_map_unplaced, hskip] at hrest
  rw [List.map_append, List.map_cons] at hrest
  have hlength : (ink (concat (run.map unplaced))).length = (ink a).length := by
    rw [concat_map_unplaced, hink]
  obtain ⟨hcuts, hdangling, -, hs⟩ := hrest.split hd hdink (c := d) hmark hdink hlength
  exact ⟨hcuts, hdangling, hs⟩

/-- A text that does not dangle has no backslash for its last token. A backslash at the end would
escape whatever is written behind the text. -/
theorem Token.Cuts.last_ne_backslash {s : Text} {ts : List Token} (h : Cuts s ts)
    (hdangling : ¬Dangling s) : ∀ t ∈ ts.getLast?, ¬(t.kind = .delim ∧ t.value = ['\\']) := by
  rintro t ht ⟨hk, hv⟩
  rw [← h.tokens, List.getLast?_map] at ht
  obtain ⟨p, hp, rfl⟩ := Option.map_eq_some_iff.1 ht
  cases p with
  | blanks w => cases hk
  | comment w => cases hk
  | lexeme k v =>
      obtain rfl : k = .delim := hk
      obtain rfl : v = ['\\'] := hv
      exact hdangling hp

/-! ### Parts that read as themselves -/

/-- A closed run stays closed without the gaps at its start. -/
theorem closedRun_skipSpace {ts : List Token} (h : ClosedRun ts) :
    ClosedRun (Parser.skipSpace ts) := by
  obtain ⟨g, hg, hk⟩ := Token.exists_skipSpace ts
  rw [hg] at h
  exact h.right fun t ht => Grammar.noBracket_of_whitespace (hk t ht)

/-- Gaps at the start of a run make no difference to the value that is read from it. -/
theorem splitImportant_skipSpace (ts : List Token) :
    Parser.splitImportant (Parser.skipSpace ts) = Parser.splitImportant ts := by
  have hskip : Parser.skipSpace (Parser.skipSpace ts) = Parser.skipSpace ts :=
    Token.skipSpace_eq_self (Token.head?_skipSpace ts)
  rw [Parser.splitImportant, Parser.splitImportant, hskip]

/-- A value that was cut from its place reads as itself: alone it has the same tokens, so it is
split into the same value and the same mark. -/
theorem faithful_declaration_of_cuts {layout : Layout} {d : Declaration} {value : List Token}
    (h : Cuts (d.valueText layout) ((Parser.skipSpace value).map unplaced))
    (hdangling : ¬Dangling (d.valueText layout)) (hclosed : ClosedRun value)
    (hsplit : Parser.splitImportant value = (d.value, d.important)) :
    (faithful layout).declaration d := by
  obtain ⟨us, hus, hmap⟩ := h.readsAs
    ((Grammar.closedRun_map_unplaced _).2 (closedRun_skipSpace hclosed))
    (h.last_ne_backslash hdangling)
  refine ⟨us, hus, ?_⟩
  rw [← Parser.splitImportant_map_unplaced, hmap, Parser.splitImportant_map_unplaced,
    splitImportant_skipSpace, hsplit]

/-- A prelude that was cut from its place behind a name reads as itself, with the given text behind
it. -/
theorem faithful_head_of_cuts {keyword : Token} {pre : List Token} {tail : Text}
    (hk : keyword.kind = .atKeyword) (hgenuine : ∀ t ∈ keyword :: pre, Genuine t)
    (hclosed : ClosedRun pre)
    (h : Cuts ((Grammar.atHead keyword pre).render ++ tail) ((keyword :: pre).map unplaced))
    (hdangling : ¬Dangling ((Grammar.atHead keyword pre).render ++ tail)) :
    (Grammar.atHead keyword pre).Faithful tail := by
  have hname : '@' :: (Grammar.atHead keyword pre).name = keyword.value :=
    Token.cons_atName (hgenuine keyword List.mem_cons_self) hk
  have hprelude : (Grammar.atHead keyword pre).prelude = text pre := rfl
  -- the last token of an end of the run is that of the run
  have hlast : ∀ front back, keyword :: pre = front ++ back →
      ∀ t ∈ (back.map unplaced).getLast?, ¬(t.kind = .delim ∧ t.value = ['\\']) := by
    intro front back hback t ht
    refine h.last_ne_backslash hdangling t ?_
    rw [hback, List.map_append, List.getLast?_append, ht]
    rfl
  obtain ⟨r, hr, hbehind⟩ := h.exists_lexeme (by simp [hk])
  rw [AtHead.render_eq, hname, List.append_assoc] at hr
  obtain rfl := List.append_cancel_left hr
  by_cases hnil : text pre = []
  · rw [AtHead.behindName, if_pos (by rw [hprelude, hnil])] at hbehind
    obtain ⟨us, hus, hmap⟩ := hbehind.readsAs ((Grammar.closedRun_map_unplaced _).2 hclosed)
      (hlast [keyword] pre rfl)
    refine ⟨us, by rwa [hprelude, hnil], ?_⟩
    rw [← Token.text_map_unplaced, hmap, Token.text_map_unplaced, hprelude]
  · -- the blank behind the name is no part of the prelude
    obtain ⟨g, hg, -⟩ := Token.exists_skipSpace pre
    rw [AtHead.behindName, if_neg (by rwa [hprelude])] at hbehind
    have hcore := Token.Cuts.skipSpace (w := [' ']) hbehind Token.isBlank_of_mem_space
      ((Token.inked_text hnil).append tail)
    rw [Parser.skipSpace_map_unplaced] at hcore
    obtain ⟨us, hus, hmap⟩ := hcore.readsAs
      ((Grammar.closedRun_map_unplaced _).2 (closedRun_skipSpace hclosed))
      (hlast (keyword :: g) (Parser.skipSpace pre) (by rw [List.cons_append, ← hg]))
    refine ⟨us, hus, ?_⟩
    rw [← Token.text_map_unplaced, hmap, Token.text_map_unplaced, hprelude]
    exact Token.text_skipSpace fun t ht => hgenuine t (List.mem_cons_of_mem _ ht)

/-- The text of an edge that was cut from its place reads as itself. What it reads as are the tokens
of its run at other places, and neither selectors nor the head of an at-rule depend on places. -/
theorem Edge.ReadFrom.holds {e : Edge} {run : List Token} {mark : Token}
    (h : e.ReadFrom run mark) (hrun : ∀ t ∈ run, Genuine t) {layout : Layout}
    (hcuts : Cuts (e.text layout) (run.map unplaced)) (hdangling : ¬Dangling (e.text layout)) :
    (Item.edge e).Holds (faithful layout) := by
  cases h with
  | rule hclosed hhead _ _ =>
      obtain ⟨us, hus, hmap⟩ := hcuts.readsAs ((Grammar.closedRun_map_unplaced _).2 hclosed)
        (hcuts.last_ne_backslash hdangling)
      refine ⟨us, hus, ?_, ?_⟩
      · rw [← Token.splitSelectors_map_unplaced, hmap, Token.splitSelectors_map_unplaced]
      · -- the first token is of the same class wherever the run was read
        intro t ht
        have hsame := congrArg List.head? hmap
        rw [List.head?_map, List.head?_map, ht] at hsame
        obtain ⟨u, hu, he⟩ := Option.map_eq_some_iff.1 hsame.symm
        have hkind : u.unplaced.kind = t.unplaced.kind := congrArg Token.kind he
        rw [Token.kind_unplaced, Token.kind_unplaced] at hkind
        rw [← hkind]
        exact (hhead u hu).2
  | block hk hclosed _ => exact faithful_head_of_cuts hk hrun hclosed hcuts hdangling
  | statement hk hclosed _ =>
      refine faithful_head_of_cuts hk hrun hclosed ?_ ?_
      · rwa [List.append_nil]
      · rwa [List.append_nil]
  | close _ => trivial

/-! ### Whole rows of items -/

/-- The sign at an edge is a mark and no blank, so it ends the token before it and has ink. -/
theorem Edge.isMark_sign (e : Edge) : isMark e.sign = true ∧ Text.isTrimmed e.sign = false := by
  have hbrace : isMark '\x7b' = true ∧ Text.isTrimmed '\x7b' = false := by decide
  cases e with
  | rule _ => exact hbrace
  | block _ => exact hbrace
  | statement _ =>
      show isMark ';' = true ∧ Text.isTrimmed ';' = false
      decide
  | close =>
      show isMark '\x7d' = true ∧ Text.isTrimmed '\x7d' = false
      decide

/-- An edge starts with no blank, and not all of its ink is semicolons. A statement ends with one,
but the sign of its keyword is ink too. -/
theorem Edge.ReadFrom.inked {e : Edge} {run : List Token} {mark : Token}
    (h : e.ReadFrom run mark) (layout : Layout) :
    Inked (e.text layout ++ [e.sign]) ∧ ∃ c ∈ ink (e.text layout) ++ [e.sign], c ≠ ';' := by
  cases h with
  | rule _ _ hne _ =>
      exact ⟨(Token.inked_splitSelectors hne).append _, '\x7b', by simp [Edge.sign], by decide⟩
  | block _ _ _ =>
      rw [Edge.text, AtHead.render_eq]
      exact ⟨⟨'@', _, rfl, by decide⟩, '\x7b', by simp [Edge.sign], by decide⟩
  | statement _ _ _ =>
      have hat : Text.isTrimmed '@' = false := by decide
      rw [Edge.text, AtHead.render_eq]
      exact ⟨⟨'@', _, rfl, by decide⟩, '@', by simp [ink, hat], by decide⟩
  | close _ => exact ⟨⟨'\x7d', [], rfl, by decide⟩, '\x7d', by simp [Edge.sign], by decide⟩

/-- A written edge that is read from its own text reads as itself, and what follows it is read from
what was written behind it. -/
theorem Edge.ReadFrom.holds_of_cuts {e : Edge} {g run ts : List Token} {mark : Token}
    (h : e.ReadFrom run mark) (hgenuine : ∀ t ∈ g ++ (run ++ mark :: ts), Genuine t)
    (hg : ∀ t ∈ g, IsGap t) {layout : Layout} {w s : Text} (hw : ∀ c ∈ w, isBlank c = true)
    (hcuts : Cuts (w ++ ((Item.edge e).text layout ++ s))
      ((g ++ (run ++ mark :: ts)).map unplaced))
    (hweight : weight (concat run) ≤ weight (e.text layout)) :
    (Item.edge e).Holds (faithful layout) ∧ Cuts s (ts.map unplaced) := by
  obtain ⟨hinked, hsemi⟩ := h.inked layout
  obtain ⟨hmark, hsign⟩ := e.isMark_sign
  have hrun : ∀ t ∈ run, Genuine t := fun t ht => hgenuine t (by simp [ht])
  have hhead : ∀ t ∈ (run ++ mark :: ts).head?, t.kind ≠ .whitespace :=
    fun t ht hk => h.not_isGap_head ts t ht (.inl hk)
  rw [Item.text, List.append_assoc, List.singleton_append] at hcuts
  -- the mark behind the edge is where the two readings meet again
  obtain ⟨htext, hdangling, hs⟩ := hcuts.aligned hw hinked hmark hsign hg
    (fun t ht => hgenuine t (by simp [ht])) hhead (h.value_mark (hgenuine mark (by simp)))
    (h.ink_eq hrun hweight) hsemi
  exact ⟨h.holds hrun htext hdangling, hs⟩

/-- A written declaration that is read from its own text reads as itself, up to the semicolon that
was written behind it. It is taken apart twice: at the colon, and at the semicolon. -/
theorem holds_declaration_of_cuts {g spaces value ts : List Token} {property colon stop : Token}
    {d : Declaration}
    (hgenuine : ∀ t ∈ g ++ property :: (spaces ++ colon :: (value ++ stop :: ts)), Genuine t)
    (hg : ∀ t ∈ g, IsGap t) (hp : property.kind = .ident)
    (hspaces : ∀ t ∈ spaces, t.kind = .whitespace) (hcolon : colon.kind = .colon)
    (hclosed : ClosedRun value) (hd : Grammar.declared property.value value = [d])
    (hstop : stop.kind = .semicolon ∨ stop.kind = .rbrace) {layout : Layout} {w s : Text}
    (hw : ∀ c ∈ w, isBlank c = true)
    (hcuts : Cuts (w ++ ((Item.declaration d).text layout ++ s))
      ((g ++ property :: (spaces ++ colon :: (value ++ stop :: ts))).map unplaced)) :
    (faithful layout).declaration d ∧ stop.kind = .semicolon ∧ Cuts s (ts.map unplaced) := by
  obtain ⟨hproperty, hne, hsplit⟩ := declared_eq_singleton hd
  have hvalue : ∀ t ∈ value, Genuine t := fun t ht => hgenuine t (by simp [ht])
  have hinked : Inked d.property := by
    rw [hproperty]
    exact hcuts.inked_of_mem (t := property.unplaced) (by simp) (by simp [hp])
  -- up to the colon
  have hname : ink (concat (property :: spaces)) = ink d.property := by
    rw [Token.concat_cons, ink_append, hproperty,
      Token.ink_spaces (fun t ht => hgenuine t (by simp [ht])) hspaces, List.append_nil]
  have htext : (Item.declaration d).text layout ++ s
      = d.property ++ ':' :: (layout.gap ++ (d.valueText layout ++ ';' :: s)) := by
    simp [Item.text]
  rw [htext, show g ++ property :: (spaces ++ colon :: (value ++ stop :: ts))
    = g ++ ((property :: spaces) ++ colon :: (value ++ stop :: ts)) from rfl] at hcuts
  obtain ⟨-, -, hrest⟩ := hcuts.aligned hw (hinked.append _) (by decide) (by decide) hg
    (fun t ht => hgenuine t (by simp [ht])) (by simp [hp])
    ((hgenuine colon (by simp)).value_eq (d := ':') hcolon (by decide)) hname
    ⟨':', by simp, by decide⟩
  -- from there up to the semicolon
  obtain ⟨c, hc, hcink⟩ : ∃ c, stop.unplaced.value = [c] ∧ Text.isTrimmed c = false := by
    have hgs := hgenuine stop (by simp)
    rcases hstop with hk | hk
    · exact ⟨';', hgs.value_eq (d := ';') hk (by decide), by decide⟩
    · exact ⟨'\x7d', hgs.value_eq (d := '\x7d') hk (by decide), by decide⟩
  have hcore := hrest.skipSpace (Token.isBlank_of_mem_gap layout)
    (((Token.inked_of_splitImportant hsplit hne).append _).append _)
  rw [Parser.skipSpace_map_unplaced,
    Token.skipSpace_append (by rcases hstop with hk | hk <;> simp [hk]), List.map_append,
    List.map_cons] at hcore
  have hlength : (ink (concat ((Parser.skipSpace value).map unplaced))).length
      = (ink (d.valueText layout)).length := by
    rw [Token.concat_map_unplaced, ← Token.ink_text, Token.text_skipSpace hvalue, Token.ink_text,
      length_ink_valueText hvalue hsplit]
  obtain ⟨hv, hdangling, hsemi, hs⟩ := hcore.split (by decide) (by decide) hc hcink hlength
  exact ⟨faithful_declaration_of_cuts hv hdangling hclosed hsplit, congrArg Token.kind hsemi, hs⟩

/-- If the tokens of a written row of items give these items, then each item reads as itself. The
induction goes along the written row. Each step finds the first item at its own place and leaves the
rest of the tokens to the rest of the row. -/
theorem Item.holds_of_reads {layout : Layout} {items : List Item} {s : Text}
    (hs : Written layout items s) :
    ∀ ts, Reads ts items → (∀ t ∈ ts, Genuine t) → Cuts s (ts.map unplaced) →
      ∀ i ∈ items, i.Holds (faithful layout) := by
  induction hs with
  | nil _ =>
      intro ts _ _ _ i hi
      cases hi
  | @cons i w s items hw hs ih =>
      intro ts hreads hgenuine hcuts
      -- the tokens weigh as much as the items, so nothing else is read from them
      have htotal : weight (concat ts) = weight (i.text layout) + weight s := by
        have hwritten := hcuts.weight_concat
        rw [Token.concat_map_unplaced, weight_append, weight_append,
          Token.weight_eq_zero hw] at hwritten
        omega
      have hall : ∀ j ∈ i :: items, j = i ∨ j ∈ items := fun j hj => List.mem_cons.1 hj
      cases hreads with
      | @declaration g spaces value ts property colon stop d _ hg hp hsp hc hv hd hstop hrest =>
          obtain ⟨hi, hsemi, hcuts'⟩ :=
            holds_declaration_of_cuts hgenuine hg hp hsp hc hv hd hstop hw hcuts
          have hitems := ih ts (hrest.of_semicolon hsemi)
            (fun t ht => hgenuine t (by simp [ht])) hcuts'
          intro j hj
          rcases hall j hj with rfl | hj
          · exact hi
          · exact hitems j hj
      | @dropped g spaces value ts property colon stop _ hg hp hsp hc hd hrest =>
          -- a dropped declaration weighs at least its colon, which is more than there is room for
          have hle := hrest.weight_le (fun t ht => hgenuine t
            (List.mem_append_right _ (by simp [List.mem_cons.1 ht]))) layout
          have hcolon : colon.value = [':'] :=
            (hgenuine colon (by simp)).value_eq (d := ':') hc (by decide)
          have hsign : weight [':'] = 1 := by decide
          rw [List.flatMap_cons, weight_append, ← hs.weight_eq] at hle
          simp only [Token.concat_append, Token.concat_cons, weight_append, hcolon, hsign]
            at htotal hle
          omega
      | @edge g run ts mark e _ hg he hrest =>
          have hle := hrest.weight_le (fun t ht => hgenuine t (by simp [ht])) layout
          have hmark := he.value_mark (hgenuine mark (by simp))
          have hweight : weight (concat run) ≤ weight (e.text layout) := by
            rw [← hs.weight_eq] at hle
            simp only [Token.concat_append, Token.concat_cons, weight_append, Item.text, hmark]
              at htotal
            omega
          obtain ⟨hi, hcuts'⟩ := he.holds_of_cuts hgenuine hg hw hcuts hweight
          have hitems := ih ts hrest (fun t ht => hgenuine t (by simp [ht])) hcuts'
          intro j hj
          rcases hall j hj with rfl | hj
          · exact hi
          · exact hitems j hj

/-- If a written tree reads as itself, then so does each of its texts in its place. This is the
converse of `ofSource_render`. It compares the row of items that was written with the row that was
read. -/
theorem faithful_of_ofSource_render {sheet : Stylesheet} {layout : Layout}
    (h : Stylesheet.ofSource (sheet.render layout) = .ok sheet) :
    Stylesheet.Each (faithful layout) sheet := by
  obtain ⟨ts, hwords, hlist⟩ := ofSource_eq_ok_iff.1 h
  have hwritten := written_render (fits_of_ofSource h) layout
  have hgenuine := Token.genuine_of_mem_words hwords
  have hreads : Reads ts (Stylesheet.items sheet) := by
    have := reads_of_ruleList hlist (Reads.nil (g := []) (by simp))
    simpa using this
  -- the tokens weigh as much as the text, so it holds no comment
  have hle := hreads.weight_le hgenuine layout
  rw [← hwritten.weight_eq] at hle
  have hcuts := Token.cuts_of_words hwords (Token.noComment_of_words hwords hle)
  exact Stylesheet.each_of_items sheet (Item.holds_of_reads hwritten ts hreads hgenuine hcuts)

/-- A tree that was read from a source survives being written exactly if each of its texts reads as
itself in the spelling of the layout. So the condition on the texts can be checked in place of the
whole round trip. -/
theorem exists_ofSource_render_iff_faithful {source : Text} {sheet : Stylesheet}
    (h : Stylesheet.ofSource source = .ok sheet) (layout : Layout) :
    (∃ s, sheet.render? layout = .ok s ∧ Stylesheet.ofSource s = .ok sheet) ↔
      Stylesheet.Each (faithful layout) sheet := by
  have hrender := Stylesheet.render?_of_fits (fits_of_ofSource h) layout
  constructor
  · rintro ⟨s, hs, hread⟩
    rw [hrender, Except.ok.injEq] at hs
    subst hs
    exact faithful_of_ofSource_render hread
  · intro hf
    exact ⟨_, hrender, ofSource_render (fits_of_ofSource h) (wellFormed_of_ofSource h) hf⟩

/-! ### A value that ends with an escaped blank

Trimming takes the blank off the value and leaves the backslash. -/

/-- The tree of a rule whose only value ends with a backslash. -/
def backslashSheet : Stylesheet :=
  [.rule ⟨[['a']], [⟨['b'], ['c', '\\'], false⟩]⟩]

/-- The pieces of the source, by one step of the tokenizer after the other. The last value takes the
escaped blank in. -/
theorem cuts_escapedBlank :
    Cuts ['a', '\x7b', 'b', ':', 'c', '\\', ' ', '\x7d']
      [⟨.ident, ['a'], .start⟩, Token.ofMark '\x7b', ⟨.ident, ['b'], .start⟩, Token.ofMark ':',
        ⟨.ident, ['c', '\\', ' '], .start⟩, Token.ofMark '\x7d'] := by
  have hcut : Token.cut ['a', '\x7b', 'b', ':', 'c', '\\', ' ', '\x7d']
      = ⟨[.lexeme .ident ['a'], .lexeme .lbrace ['\x7b'], .lexeme .ident ['b'],
          .lexeme .colon [':'], .lexeme .ident ['c', '\\', ' '], .lexeme .rbrace ['\x7d']],
        none⟩ := by
    rw [Token.cut_cons_of_next (show Token.next 'a' _ = .ok (.lexeme .ident ['a'], _) from rfl),
      Token.cut_cons_of_next (show Token.next '\x7b' _ = .ok (.lexeme .lbrace _, _) from rfl),
      Token.cut_cons_of_next (show Token.next 'b' _ = .ok (.lexeme .ident ['b'], _) from rfl),
      Token.cut_cons_of_next (show Token.next ':' _ = .ok (.lexeme .colon _, _) from rfl),
      Token.cut_cons_of_next
        (show Token.next 'c' _ = .ok (.lexeme .ident ['c', '\\', ' '], _) from rfl),
      Token.cut_cons_of_next (show Token.next '\x7d' _ = .ok (.lexeme .rbrace _, _) from rfl),
      Token.cut_nil]
  refine ⟨by rw [hcut], ?_, by rw [hcut]; rfl⟩
  rw [Token.NoComment, hcut]
  simp

/-- The source is a stylesheet, and its value has lost the blank that was escaped. -/
theorem ofSource_escapedBlank :
    Stylesheet.ofSource ['a', '\x7b', 'b', ':', 'c', '\\', ' ', '\x7d'] = .ok backslashSheet := by
  obtain ⟨ts, hwords, hts⟩ := cuts_escapedBlank.exists_words
  refine ofSource_eq_ok_iff.2 ⟨ts, hwords, Grammar.RuleList.of_unplaced ?_ hts⟩
  have hbody := @Grammar.Decls.declaration ⟨.ident, ['b'], .start⟩ (Token.ofMark ':') []
    [⟨.ident, ['c', '\\', ' '], .start⟩] [] [] rfl (by simp) rfl (by decide) (by simp) .nil
  exact @Grammar.RuleList.rule 0 [⟨.ident, ['a'], .start⟩] _ [] (Token.ofMark '\x7b')
    (Token.ofMark '\x7d') _ [] (by decide) (by simp) (by decide) rfl hbody rfl .nil

/-- The value alone has a backslash for its last token, which escapes the semicolon when the value
is written. So the condition on the parts fails. -/
theorem not_faithful_backslashSheet (layout : Layout) :
    ¬Stylesheet.Each (faithful layout) backslashSheet := by
  rintro ⟨⟨-, hdecls⟩, -⟩
  obtain ⟨ts, ⟨hwords, -, hlast⟩, -⟩ := hdecls _ List.mem_cons_self
  have hcut : Token.cut ['c', '\\']
      = ⟨[.lexeme .ident ['c'], .lexeme .delim ['\\']], none⟩ := by
    rw [Token.cut_cons_of_next (show Token.next 'c' _ = .ok (.lexeme .ident ['c'], _) from rfl),
      Token.cut_cons_of_next (show Token.next '\\' _ = .ok (.lexeme .delim _, _) from rfl),
      Token.cut_nil]
  have hvalue : words ['c', '\\'] = some ts := hwords
  obtain ⟨-, rfl⟩ := Token.words_eq_some_iff.1 hvalue
  rw [hcut] at hlast
  exact hlast _ rfl ⟨rfl, rfl⟩

/-- A source whose tree does not survive being written, in either layout. -/
theorem exists_ofSource_render_iff_faithful_escapedBlank :
    Stylesheet.ofSource ['a', '\x7b', 'b', ':', 'c', '\\', ' ', '\x7d'] = .ok backslashSheet ∧
      ∀ layout : Layout, ¬∃ s, backslashSheet.render? layout = .ok s ∧
        Stylesheet.ofSource s = .ok backslashSheet :=
  ⟨ofSource_escapedBlank, fun layout hs => not_faithful_backslashSheet layout
    ((exists_ofSource_render_iff_faithful ofSource_escapedBlank layout).1 hs)⟩

end CssHints
