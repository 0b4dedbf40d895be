import CssHints.Proofs.CursorRange
import CssHints.Proofs.Meaning
import CssHints.Proofs.Origins

/-!
# `CssHints.Proofs.TreeShape`: the shape of every tree that the parser returns

Tokens may be built by hand, with classes and texts that no source has. Whatever they are, a tree
that the parser returns for them has a certain shape (`Stylesheet.Shaped`): its nodes have the forms
of the grammar, its texts are trimmed, no selector and no value is empty, and its properties are
tokens of the list.

* The forms come from the grammar (`Grammar.completes_of_run`, `fits_of_ruleList`). They limit the
  depth of the tree (`Stylesheet.nesting_of_fits`), since an at-rule that holds rules is allowed
  only inside fewer than `AtRule.maxDepth` others.
* The texts come from the run (`Parser.each_of_run`), since each of them is the trimmed text of a
  run of tokens.

So a returned tree can be built and written, also after transforms, which change the declarations of
rules only. `parse_shaped` states all of it.
-/

set_option autoImplicit false

namespace CssHints

open Token (text splitSelectors)
open Grammar (declared)

/-! ### Depth -/

mutual

/-- How deep at-rules that hold rules are nested in the node. -/
def Node.nesting : Node → Nat
  | .rule _ => 0
  | .block head children _ =>
    Stylesheet.nesting children + if AtRule.holdsRules (AtRule.baseName head.name) then 1 else 0
  | .statement _ => 0
  | .stray _ => 0

/-- How deep at-rules that hold rules are nested in the nodes. -/
def Stylesheet.nesting : List Node → Nat
  | [] => 0
  | n :: ns => max n.nesting (Stylesheet.nesting ns)

end

mutual

/-- A node of the grammar inside `d` at-rules holds rules only as deep as is left. An at-rule that
holds declarations adds nothing to the depth. -/
theorem Node.nesting_of_fits {d : Nat} (hd : d ≤ AtRule.maxDepth) :
    (n : Node) → n.Fits d → d + n.nesting ≤ AtRule.maxDepth
  | .rule _, _ => hd
  | .block head children _, h => by
      rw [Node.nesting]
      rcases h with ⟨hrules, hdepth, -, hchildren⟩ | ⟨hdecls, rfl⟩
      · have hinner := Stylesheet.nesting_of_fits hdepth children hchildren
        rw [if_pos hrules]
        omega
      · rw [Grammar.holdsRules_of_declarationNames hdecls]
        exact hd
  | .statement _, _ => hd
  | .stray _, _ => hd

/-- Nodes of the grammar inside `d` at-rules hold rules only as deep as is left. -/
theorem Stylesheet.nesting_of_fits {d : Nat} (hd : d ≤ AtRule.maxDepth) :
    (ns : List Node) → Stylesheet.Fits d ns → d + Stylesheet.nesting ns ≤ AtRule.maxDepth
  | [], _ => hd
  | n :: ns, h => by
      have hnode := Node.nesting_of_fits hd n h.1
      have hnodes := Stylesheet.nesting_of_fits hd ns h.2
      rw [Stylesheet.nesting]
      omega

end

/-! ### Rules -/

mutual

/-- Each rule in a node of the grammar has selectors. -/
theorem Node.selectors_of_fits {d : Nat} {parents : List AtHead} :
    (n : Node) → n.Fits d → ∀ e ∈ n.walk parents, e.2.selectors ≠ []
  | .rule r, h => by
      have hr : r.selectors ≠ [] := h
      simpa [Node.walk] using hr
  | .block head children _, h => by
      rcases h with ⟨-, -, -, hchildren⟩ | ⟨-, rfl⟩
      · exact Stylesheet.selectors_of_fits children hchildren
      · simp [Node.walk, Stylesheet.walkBelow]
  | .statement _, _ => by simp [Node.walk]
  | .stray _, _ => by simp [Node.walk]

/-- Each rule among nodes of the grammar has selectors. -/
theorem Stylesheet.selectors_of_fits {d : Nat} {parents : List AtHead} :
    (ns : List Node) → Stylesheet.Fits d ns →
      ∀ e ∈ Stylesheet.walkBelow parents ns, e.2.selectors ≠ []
  | [], _ => by simp [Stylesheet.walkBelow]
  | n :: ns, h => by
      intro e he
      rcases List.mem_append.1 he with he | he
      · exact Node.selectors_of_fits n h.1 e he
      · exact Stylesheet.selectors_of_fits ns h.2 e he

end

/-- A tree of the grammar can be built: none of its rules lacks selectors. -/
theorem Stylesheet.make?_of_fits {sheet : Stylesheet} (h : Stylesheet.Fits 0 sheet) :
    Stylesheet.make? sheet = some sheet := by
  refine if_pos (List.all_eq_true.2 fun r hr => ?_)
  obtain ⟨e, he, rfl⟩ := List.mem_map.1 hr
  rw [Rule.make?, if_neg (Stylesheet.selectors_of_fits sheet h e he)]
  rfl

/-- A tree of the grammar can be written, also after transforms, which bring no stray text in. -/
theorem Stylesheet.render?_transform_of_fits {sheet : Stylesheet} (h : Stylesheet.Fits 0 sheet)
    (c : Config) (more : List Transform) (layout : Layout) :
    Stylesheet.render? (sheet.transform c more).1 layout =
      .ok (Stylesheet.render (sheet.transform c more).1 layout) := by
  rw [Stylesheet.render?, Stylesheet.transform, Stylesheet.stray?_mapRules,
    Stylesheet.stray?_of_fits sheet h]

/-! ### Texts -/

/-- Selectors and values are trimmed and not empty, preludes are trimmed, and each property is the
text of an identifier among the tokens. -/
def trimmedTexts (ts : List Token) : Parts where
  selectors ss := ∀ s ∈ ss, s ≠ [] ∧ Text.trim s = s
  declaration d := (∃ t ∈ ts, t.kind = .ident ∧ t.value = d.property) ∧ d.value ≠ [] ∧
    Text.trim d.value = d.value
  block head := Text.trim head.prelude = head.prelude
  statement head := Text.trim head.prelude = head.prelude

/-- The text of tokens is trimmed. -/
theorem Token.trim_text (ts : List Token) : Text.trim (text ts) = text ts := Text.trim_trim _

/-- The value of a declaration is trimmed, since it is the text of some of the tokens. -/
theorem Token.trim_splitImportant (ts : List Token) :
    Text.trim (Parser.splitImportant ts).1 = (Parser.splitImportant ts).1 := by
  rcases Token.splitImportant_cases ts with ⟨_, value, _, _, _, _, he⟩ | ⟨_, value, _, _, _, _, he⟩
  · rw [he]
    exact trim_text value
  · rw [he]
    exact trim_text value

/-- What is read from runs of tokens is trimmed, whatever the tokens. So nothing has to be known of
their texts. -/
theorem trimmedTexts_ofRuns {front ts : List Token} (hsub : front ⊆ ts)
    (pres : List (List Token)) : (trimmedTexts ts).OfRuns front pres where
  selectors pre _ _ _ s hs := by
    obtain ⟨hne, run, -, rfl⟩ := Token.mem_splitSelectors hs
    exact ⟨hne, Token.trim_text run⟩
  declaration property hmem hkind run _ _ d hd := by
    unfold declared at hd
    split at hd
    · cases hd
    · rename_i hvalue
      obtain rfl := List.mem_singleton.1 hd
      exact ⟨⟨property, hsub hmem, hkind, rfl⟩, hvalue, Token.trim_splitImportant run⟩
  block _ _ _ pre _ _ := Token.trim_text pre
  statement _ _ _ pre _ _ := Token.trim_text pre

/-! ### The whole tree -/

/-- The shape of a tree that is returned for the tokens. -/
structure Stylesheet.Shaped (ts : List Token) (sheet : Stylesheet) : Prop where
  /-- Rules have selectors. At-rules with a block hold rules and no declarations or declarations
  and no nodes, by their base names, and those without a block have base names of statements. -/
  forms : Stylesheet.Fits 0 sheet
  texts : Stylesheet.Each (trimmedTexts ts) sheet
  nesting : Stylesheet.nesting sheet ≤ 256

/-- A tree that is returned has the shape. Its forms come from the grammar, its texts from the run,
and its depth from its forms. -/
theorem shaped_of_parse {ts : List Token} {sheet : Stylesheet}
    (h : (Stylesheet.parse ts).result = .ok sheet) : sheet.Shaped ts := by
  obtain ⟨last, hlast, hkind⟩ : ∃ last, ts.getLast? = some last ∧ last.kind = .eof := by
    refine Classical.byContradiction fun hno => ?_
    rw [(Descent.parse_of_missingEnd hno).2] at h
    cases h
  -- only the tokens in front of the first `eof` token are read, and they have no other
  obtain ⟨front, eof, tail, rfl, hfront, heof, -⟩ :=
    Descent.exists_first_eof (List.mem_of_getLast? hlast) hkind
  rw [Descent.parse_eq_run heof hfront hlast hkind] at h
  obtain ⟨ns, hns, rfl⟩ : ∃ ns, Grammar.RuleList 0 front ns ∧ sheet = [] ++ ns :=
    Grammar.completes_of_run hfront h
  have hforms := fits_of_ruleList hns
  have htexts := trimmedTexts_ofRuns (List.subset_append_left front (eof :: tail))
    (Parser.rulePreludes eof {} front)
  refine ⟨hforms, ?_, ?_⟩
  · exact Parser.each_of_run htexts hfront (List.suffix_refl _) (fun _ hpre => hpre)
      ⟨by simp, trivial, by simp⟩ h
  · have hdepth := Stylesheet.nesting_of_fits (Nat.zero_le _) _ hforms
    rw [Nat.zero_add] at hdepth
    exact hdepth

/-- The descent ends on every list of tokens, with the outcome of the parser. A list without an
`eof` token at its end is refused by both. -/
theorem Descent.exists_agrees (ts : List Token) :
    ∃ result c, Descent.parse ts = some (result, c) ∧ Descent.Agrees ts result c := by
  by_cases hend : ∃ last, ts.getLast? = some last ∧ last.kind = .eof
  · obtain ⟨last, hlast, hkind⟩ := hend
    obtain ⟨result, c, hparse, hagrees, -⟩ := Descent.exists_parse hlast hkind
    exact ⟨result, c, hparse, hagrees⟩
  · obtain ⟨hparse, hmissing⟩ := Descent.parse_of_missingEnd hend
    exact ⟨_, _, hparse, ⟨by rw [hmissing]; rfl, by rw [hmissing]⟩⟩

/-- **Every tree that the parser returns is well formed, whatever the tokens.** It has the shape of
`Stylesheet.Shaped`. So it can be built, and it can be written in both layouts, before and after
transforms. Reading the tokens never comes to a rule without selectors, whether a tree is returned
in the end or not. -/
theorem parse_shaped (ts : List Token) :
    (∀ sheet, (Stylesheet.parse ts).result = .ok sheet →
      sheet.Shaped ts ∧ Stylesheet.make? sheet = some sheet ∧
        ∀ layout, sheet.render? layout = .ok (sheet.render layout) ∧
          ∀ c more, Stylesheet.render? (sheet.transform c more).1 layout =
            .ok (Stylesheet.render (sheet.transform c more).1 layout)) ∧
      ∃ result c, Descent.parse ts = some (result, c) ∧ Descent.Agrees ts result c ∧
        result ≠ .error .emptyRule := by
  refine ⟨?_, ?_⟩
  · intro sheet h
    have hshape := shaped_of_parse h
    refine ⟨hshape, Stylesheet.make?_of_fits hshape.forms, ?_⟩
    intro layout
    exact ⟨Stylesheet.render?_of_fits hshape.forms layout,
      fun c more => Stylesheet.render?_transform_of_fits hshape.forms c more layout⟩
  · obtain ⟨result, c, hparse, hagrees⟩ := Descent.exists_agrees ts
    exact ⟨result, c, hparse, hagrees, hagrees.result_ne (by simp)⟩

/-- Tokens that no source has: the selector has an unknown class, the braces have no text, and the
property is two words. -/
def oddTokens : List Token :=
  [⟨.other "ODD", " x ", .start⟩, ⟨.lbrace, [], .start⟩, ⟨.ident, "p q", .start⟩,
    ⟨.colon, [], .start⟩, ⟨.delim, " v", .start⟩, ⟨.rbrace, [], .start⟩, ⟨.eof, [], .start⟩]

/-- The tree of these tokens is well formed: its selector and its value are trimmed, and its
property is the text of an identifier, although no source has such a token. -/
theorem parse_shaped_oddTokens :
    (Stylesheet.parse oddTokens).result = .ok [.rule ⟨["x"], [⟨"p q", "v", false⟩]⟩] ∧
      Stylesheet.Shaped oddTokens [.rule ⟨["x"], [⟨"p q", "v", false⟩]⟩] := by
  have hparse : (Stylesheet.parse oddTokens).result =
      .ok [.rule ⟨["x"], [⟨"p q", "v", false⟩]⟩] := by
    have hrun : Stylesheet.parse oddTokens = Parser.run ⟨.eof, [], .start⟩
        { nodes := [.rule ⟨["x"], [⟨"p q", "v", false⟩]⟩] } [] :=
      (Grammar.run_cons_of_step rfl).trans
        ((Grammar.run_cons_of_step rfl).trans (Grammar.run_cons_of_step rfl))
    rw [hrun, Parser.run]
    rfl
  exact ⟨hparse, ((parse_shaped oddTokens).1 _ hparse).1⟩

end CssHints
