import CssHints.Proofs.Grammar

/-!
# `CssHints.Proofs.Places`: the tree does not depend on the places of tokens

A token carries its place for error messages only. The text of a run, the selectors in it, the
mark of importance at its end, whether it is closed, and the grammar itself look at the class and
the text of a token. So a derivation for tokens without their places (`unplaced`) is a derivation
for the tokens themselves (`Grammar.RuleList.of_unplaced`).
-/

set_option autoImplicit false

namespace CssHints.Token

/-- The token at the first place of a text. -/
def unplaced (t : Token) : Token := { t with loc := .start }

/-- A token keeps its class. -/
@[simp] theorem kind_unplaced (t : Token) : t.unplaced.kind = t.kind := rfl

/-- A token keeps its text. -/
@[simp] theorem value_unplaced (t : Token) : t.unplaced.value = t.value := rfl

/-- The characters of tokens do not depend on their places. -/
@[simp] theorem concat_map_unplaced (ts : List Token) : concat (ts.map unplaced) = concat ts := by
  simp [concat, List.flatMap_map]

/-- The text of a run does not depend on the places of its tokens. -/
@[simp] theorem text_map_unplaced (ts : List Token) : text (ts.map unplaced) = text ts := by
  rw [text, concat_map_unplaced, text]

/-- A run is split at the same commas with and without places: a comma is known by its class, and
the depth of groups is counted from classes. -/
theorem splitAtCommas_map_unplaced (depth : Nat) (ts : List Token) :
    splitAtCommas depth (ts.map unplaced) = (splitAtCommas depth ts).map (List.map unplaced) := by
  induction ts generalizing depth with
  | nil => rfl
  | cons t ts ih =>
      -- the depth behind a token looks at its class only
      have hdepth : groupDepth depth t.unplaced = groupDepth depth t := rfl
      by_cases hc : t.kind = .comma ∧ depth = 0
      · simp [splitAtCommas, hc, ih]
      · simp only [List.map_cons, splitAtCommas, kind_unplaced, hc, if_false, hdepth, ih]
        cases splitAtCommas (groupDepth depth t) ts <;> rfl

/-- The selectors of a run do not depend on the places of its tokens. -/
@[simp] theorem splitSelectors_map_unplaced (ts : List Token) :
    splitSelectors (ts.map unplaced) = splitSelectors ts := by
  have htext : (text ∘ List.map unplaced) = text := funext text_map_unplaced
  rw [splitSelectors, splitAtCommas_map_unplaced, List.map_map, htext, splitSelectors]

end CssHints.Token

namespace CssHints.Parser

open Token (unplaced)

/-- The same gaps are skipped with and without places. -/
theorem skipSpace_map_unplaced (ts : List Token) :
    skipSpace (ts.map unplaced) = (skipSpace ts).map unplaced := by
  rw [skipSpace, List.dropWhile_map]
  rfl

/-- The same gaps are skipped at the end with and without places. -/
theorem skipSpaceRight_map_unplaced (ts : List Token) :
    skipSpaceRight (ts.map unplaced) = (skipSpaceRight ts).map unplaced := by
  rw [skipSpaceRight, ← List.map_reverse, skipSpace_map_unplaced, ← List.map_reverse,
    skipSpaceRight]

/-- The value of a run and its mark of importance do not depend on the places of its tokens. The
mark is known by the classes and the texts of two tokens. -/
@[simp] theorem splitImportant_map_unplaced (ts : List Token) :
    splitImportant (ts.map unplaced) = splitImportant ts := by
  simp only [splitImportant, skipSpace_map_unplaced, skipSpaceRight_map_unplaced,
    Token.text_map_unplaced, ← List.map_reverse]
  -- the two tokens that are looked at, the word and the sign in front of it, come off the end one
  -- by one
  cases (skipSpaceRight (skipSpace ts)).reverse with
  | nil => rfl
  | cons last before =>
      simp only [List.map_cons, Token.kind_unplaced, Token.value_unplaced, ← List.map_reverse,
        skipSpace_map_unplaced, skipSpaceRight_map_unplaced]
      cases (skipSpaceRight (skipSpace before.reverse)).reverse with
      | nil => rfl
      | cons mark value =>
          simp only [List.map_cons, Token.kind_unplaced, Token.value_unplaced, ← List.map_reverse,
            Token.text_map_unplaced]

end CssHints.Parser

namespace CssHints.Grammar

open Token (unplaced)

/-- Whether a run is closed does not depend on the places of its tokens. -/
theorem closes_map_unplaced (groups : List Kind) (ts : List Token) :
    Closes groups (ts.map unplaced) ↔ Closes groups ts := by
  induction ts generalizing groups with
  | nil => rfl
  | cons t ts ih => simp [Closes, ih]

/-- The case of `closes_map_unplaced` where no group is open at the start. -/
@[simp] theorem closedRun_map_unplaced (ts : List Token) :
    ClosedRun (ts.map unplaced) ↔ ClosedRun ts := closes_map_unplaced [] ts

/-- What a run declares does not depend on the places of its tokens. -/
@[simp] theorem declared_map_unplaced (property : Text) (ts : List Token) :
    declared property (ts.map unplaced) = declared property ts := by
  rw [declared, declared, Parser.splitImportant_map_unplaced]

/-- The head of an at-rule does not depend on the places of its tokens. -/
@[simp] theorem atHead_unplaced (keyword : Token) (pre : List Token) :
    atHead keyword.unplaced (pre.map unplaced) = atHead keyword pre := by
  rw [atHead, atHead, Token.text_map_unplaced]
  rfl

/-- A gap is a gap wherever it stands. -/
@[simp] theorem isGap_unplaced (t : Token) : IsGap t.unplaced ↔ IsGap t := Iff.rfl

/-- The grammar of declarations does not look at places. The tokens with places are taken apart as
the tokens without places are. -/
theorem Decls.of_unplaced {ts us : List Token} {ds : List Declaration} (h : Decls us ds)
    (hus : ts.map unplaced = us) : Decls ts ds := by
  induction h generalizing ts with
  | nil =>
      obtain rfl : ts = [] := by simpa using hus
      exact .nil
  | gap hgap _ ih =>
      obtain ⟨t, ts, rfl, rfl, h₁⟩ := List.map_eq_cons_iff.1 hus
      exact .gap hgap (ih h₁)
  -- each part of the declaration is the image of a part of the tokens
  | declaration hp hspaces hcolon hvalue hhead _ ih =>
      obtain ⟨p, ts, rfl, rfl, h₁⟩ := List.map_eq_cons_iff.1 hus
      obtain ⟨spaces, ts, rfl, rfl, h₂⟩ := List.map_eq_append_iff.1 h₁
      obtain ⟨colon, ts, rfl, rfl, h₃⟩ := List.map_eq_cons_iff.1 h₂
      obtain ⟨value, ts, rfl, rfl, h₄⟩ := List.map_eq_append_iff.1 h₃
      rw [declared_map_unplaced]
      refine .declaration hp (by simpa using hspaces) hcolon (by simpa using hvalue) ?_ (ih h₄)
      rw [← h₄, List.head?_map] at hhead
      simpa using hhead

/-- The grammar does not look at places. The induction is on the derivation for the tokens without
places, with the tokens themselves generalized, since each case takes a part off their front. -/
theorem RuleList.of_unplaced {d : Nat} {ts us : List Token} {ns : List Node}
    (h : RuleList d us ns) (hus : ts.map unplaced = us) : RuleList d ts ns := by
  induction h generalizing ts with
  | nil =>
      obtain rfl : ts = [] := by simpa using hus
      exact .nil
  | gap hgap _ ih =>
      obtain ⟨t, ts, rfl, rfl, h₁⟩ := List.map_eq_cons_iff.1 hus
      exact .gap hgap (ih h₁)
  -- the tokens with places are divided as those without are, one part after the other
  | rule hpre hhead hselectors hlb hbody hrb _ ih =>
      obtain ⟨pre, ts, rfl, rfl, h₁⟩ := List.map_eq_append_iff.1 hus
      obtain ⟨lb, ts, rfl, rfl, h₂⟩ := List.map_eq_cons_iff.1 h₁
      obtain ⟨body, ts, rfl, rfl, h₃⟩ := List.map_eq_append_iff.1 h₂
      obtain ⟨rb, ts, rfl, rfl, h₄⟩ := List.map_eq_cons_iff.1 h₃
      rw [Token.splitSelectors_map_unplaced] at hselectors ⊢
      rw [List.head?_map] at hhead
      exact .rule (by simpa using hpre) (by simpa using hhead) hselectors hlb
        (hbody.of_unplaced rfl) hrb (ih h₄)
  | statement hk hbase hpre hsemi _ ih =>
      obtain ⟨k, ts, rfl, rfl, h₁⟩ := List.map_eq_cons_iff.1 hus
      obtain ⟨pre, ts, rfl, rfl, h₂⟩ := List.map_eq_append_iff.1 h₁
      obtain ⟨semi, ts, rfl, rfl, h₃⟩ := List.map_eq_cons_iff.1 h₂
      rw [atHead_unplaced]
      exact .statement hk hbase (by simpa using hpre) hsemi (ih h₃)
  | ruleBlock hk hbase hd hpre hlb _ hrb _ ihbody ih =>
      obtain ⟨k, ts, rfl, rfl, h₁⟩ := List.map_eq_cons_iff.1 hus
      obtain ⟨pre, ts, rfl, rfl, h₂⟩ := List.map_eq_append_iff.1 h₁
      obtain ⟨lb, ts, rfl, rfl, h₃⟩ := List.map_eq_cons_iff.1 h₂
      obtain ⟨body, ts, rfl, rfl, h₄⟩ := List.map_eq_append_iff.1 h₃
      obtain ⟨rb, ts, rfl, rfl, h₅⟩ := List.map_eq_cons_iff.1 h₄
      rw [atHead_unplaced]
      exact .ruleBlock hk hbase hd (by simpa using hpre) hlb (ihbody rfl) hrb (ih h₅)
  | declBlock hk hbase hpre hlb hbody hrb _ ih =>
      obtain ⟨k, ts, rfl, rfl, h₁⟩ := List.map_eq_cons_iff.1 hus
      obtain ⟨pre, ts, rfl, rfl, h₂⟩ := List.map_eq_append_iff.1 h₁
      obtain ⟨lb, ts, rfl, rfl, h₃⟩ := List.map_eq_cons_iff.1 h₂
      obtain ⟨body, ts, rfl, rfl, h₄⟩ := List.map_eq_append_iff.1 h₃
      obtain ⟨rb, ts, rfl, rfl, h₅⟩ := List.map_eq_cons_iff.1 h₄
      rw [atHead_unplaced]
      exact .declBlock hk hbase (by simpa using hpre) hlb (hbody.of_unplaced rfl) hrb (ih h₅)

/-- A derivation of declarations for tokens is one for the tokens without their places. -/
theorem Decls.map_unplaced {ts : List Token} {ds : List Declaration} (h : Decls ts ds) :
    Decls (ts.map unplaced) ds := by
  induction h with
  | nil => exact .nil
  | gap hgap _ ih => exact .gap hgap ih
  | declaration hp hspaces hcolon hvalue hhead _ ih =>
      simp only [List.map_cons, List.map_append]
      rw [← declared_map_unplaced]
      exact .declaration hp (by simpa using hspaces) hcolon (by simpa using hvalue)
        (by simpa [List.head?_map] using hhead) ih

/-- A derivation for tokens is one for the tokens without their places. With `RuleList.of_unplaced`,
two lists of tokens that differ in their places only have the same derivations. -/
theorem RuleList.map_unplaced {d : Nat} {ts : List Token} {ns : List Node} (h : RuleList d ts ns) :
    RuleList d (ts.map unplaced) ns := by
  induction h with
  | nil => exact .nil
  | gap hgap _ ih => exact .gap hgap ih
  | rule hpre hhead hselectors hlb hbody hrb _ ih =>
      simp only [List.map_cons, List.map_append]
      rw [← Token.splitSelectors_map_unplaced] at hselectors ⊢
      exact .rule (by simpa using hpre) (by simpa [List.head?_map] using hhead) hselectors hlb
        hbody.map_unplaced hrb ih
  | statement hk hbase hpre hsemi _ ih =>
      simp only [List.map_cons, List.map_append]
      rw [← atHead_unplaced]
      exact .statement hk hbase (by simpa using hpre) hsemi ih
  | ruleBlock hk hbase hd hpre hlb _ hrb _ ihbody ih =>
      simp only [List.map_cons, List.map_append]
      rw [← atHead_unplaced]
      exact .ruleBlock hk hbase hd (by simpa using hpre) hlb ihbody hrb ih
  | declBlock hk hbase hpre hlb hbody hrb _ ih =>
      simp only [List.map_cons, List.map_append]
      rw [← atHead_unplaced]
      exact .declBlock hk hbase (by simpa using hpre) hlb hbody.map_unplaced hrb ih

end CssHints.Grammar
