import CssHints.Proofs.Reach
import CssHints.Proofs.ReadBack

/-!
# `CssHints.Proofs.Parsed`: what a tree that was read looks like

A tree that was read from a source has the forms of the grammar (`fits_of_ofSource`). Its names and
properties are tokens of the source, and such a token is a single token on its own too
(`isSingle_of_mem_words`). So the tree is well formed (`wellFormed_of_ofSource`).
-/

set_option autoImplicit false

namespace CssHints

open Token (words)
open Grammar (Decls RuleList)

/-! ### The forms of the grammar -/

/-- Every tree that the grammar derives has the forms that `Fits` asks for: rules with selectors,
and at-rules with the kind of block their name calls for. Each constructor brings its form along. -/
theorem fits_of_ruleList {d : Nat} {ts : List Token} {ns : List Node} (h : RuleList d ts ns) :
    Stylesheet.Fits d ns := by
  induction h with
  | nil => trivial
  | gap _ _ ih => exact ih
  | rule _ _ hne _ _ _ _ ih => exact ⟨hne, ih⟩
  | statement _ hbase _ _ _ ih => exact ⟨hbase, ih⟩
  | ruleBlock _ hbase hdepth _ _ _ _ _ ihbody ih =>
      exact ⟨.inl ⟨hbase, hdepth, rfl, ihbody⟩, ih⟩
  | declBlock _ hbase _ _ _ _ _ ih => exact ⟨.inr ⟨hbase, rfl⟩, ih⟩

/-- Every tree that was read from a source has the forms of the grammar. -/
theorem fits_of_ofSource {s : Text} {sheet : Stylesheet}
    (h : Stylesheet.ofSource s = .ok sheet) : Stylesheet.Fits 0 sheet := by
  obtain ⟨ts, -, hlist⟩ := ofSource_eq_ok_iff.1 h
  exact fits_of_ruleList hlist

/-! ### Tokens on their own -/

namespace Token

/-- A lexeme of a source is a single token on its own: what stands behind it in the source has not
made it longer, so nothing behind it does not make it shorter. -/
theorem isSingle_of_mem_cut {s v : Text} {k : Kind} (h : Piece.lexeme k v ∈ (cut s).pieces) :
    IsSingle k v := by
  obtain ⟨c, t, rest, hnext⟩ := next_of_mem_cut h
  obtain ⟨a, ha, rfl⟩ := exists_cons_of_next hnext
  obtain rfl : v = c :: a := ha
  exact isSingle_of_next (next_alone hnext)

/-- The tokens of a source are single tokens on their own, apart from gaps, whose text may come from
a comment between two tokens. -/
theorem isSingle_of_mem_words {s : Text} {ts : List Token} (h : words s = some ts) {t : Token}
    (ht : t ∈ ts) (hk : t.kind ≠ .whitespace) : IsSingle t.kind t.value := by
  obtain ⟨-, rfl⟩ := words_eq_some_iff.1 h
  rcases mem_ofPieces ht with ⟨l, rfl⟩ | ⟨l, k, v, rfl, hmem⟩
  · exact absurd rfl hk
  · exact isSingle_of_mem_cut hmem

/-- The name of an at-rule with its sign in front is the text of its keyword, because a keyword that
was read starts with the sign. -/
theorem cons_atName {t : Token} (h : Genuine t) (hk : t.kind = .atKeyword) :
    '@' :: Grammar.atName t = t.value := by
  rcases h with ⟨hw, -⟩ | ⟨-, hat⟩ | ⟨c, hc, -⟩
  · exact absurd (hw.symm.trans hk) (by decide)
  · have hhead := hat hk
    cases hv : t.value with
    | nil =>
        rw [hv] at hhead
        cases hhead
    | cons c v =>
        rw [hv] at hhead
        cases hhead
        rw [Grammar.atName, hv]
        rfl
  · -- a single character is of no class of long tokens, and a keyword is one
    exact absurd (by rw [← hc, hk]; decide) (ofChar_notMem_longKinds c)

end Token

/-! ### Well-formed trees -/

/-- The declarations of a block that was read have a single token as property and a value that is
not empty: one without a value is dropped. -/
theorem wellFormed_of_decls {ts : List Token} {ds : List Declaration} (h : Decls ts ds)
    (hts : ∀ t ∈ ts, t.kind = .ident → Token.IsSingle .ident t.value) :
    ∀ d ∈ ds, wellFormed.declaration d := by
  induction h with
  | nil => simp
  | gap _ _ ih => exact ih fun t ht => hts t (List.mem_cons_of_mem _ ht)
  | @declaration property colon spaces value ts ds hk _ _ _ _ _ ih =>
      intro d hd
      rcases List.mem_append.1 hd with hd | hd
      · -- the declaration of this step is there unless its value is empty
        rw [Grammar.declared] at hd
        split at hd
        · cases hd
        · rename_i hne
          rw [List.mem_singleton.1 hd]
          exact ⟨hts property List.mem_cons_self hk, hne⟩
      · exact ih (fun t ht => hts t (by simp [ht])) d hd

/-- Names and properties of a tree that was read are single tokens. Each constructor of the grammar
takes them from its own tokens, which are among those of the whole list. -/
theorem wellFormed_of_ruleList {d : Nat} {ts : List Token} {ns : List Node}
    (h : RuleList d ts ns)
    (hident : ∀ t ∈ ts, t.kind = .ident → Token.IsSingle .ident t.value)
    (hat : ∀ t ∈ ts, t.kind = .atKeyword →
      Token.IsSingle .atKeyword ('@' :: Grammar.atName t)) :
    Stylesheet.Each wellFormed ns := by
  induction h with
  | nil => trivial
  | gap _ _ ih =>
      exact ih (fun t ht => hident t (List.mem_cons_of_mem _ ht))
        (fun t ht => hat t (List.mem_cons_of_mem _ ht))
  -- in each case the tokens of the parts are among those of the whole
  | rule _ _ _ _ hbody _ _ ih =>
      refine ⟨⟨trivial, wellFormed_of_decls hbody fun t ht => hident t (by simp [ht])⟩, ?_⟩
      exact ih (fun t ht => hident t (by simp [ht])) (fun t ht => hat t (by simp [ht]))
  | statement hk _ _ _ _ ih =>
      refine ⟨hat _ List.mem_cons_self hk, ?_⟩
      exact ih (fun t ht => hident t (by simp [ht])) (fun t ht => hat t (by simp [ht]))
  | ruleBlock hk _ _ _ _ _ _ _ ihbody ih =>
      refine ⟨⟨hat _ List.mem_cons_self hk, by simp, ?_⟩, ?_⟩
      · exact ihbody (fun t ht => hident t (by simp [ht])) (fun t ht => hat t (by simp [ht]))
      · exact ih (fun t ht => hident t (by simp [ht])) (fun t ht => hat t (by simp [ht]))
  | declBlock hk _ _ _ hbody _ _ ih =>
      refine ⟨⟨hat _ List.mem_cons_self hk,
        wellFormed_of_decls hbody fun t ht => hident t (by simp [ht]), trivial⟩, ?_⟩
      exact ih (fun t ht => hident t (by simp [ht])) (fun t ht => hat t (by simp [ht]))

/-- A tree that was read from a source is well formed, so the printed text can be read back. Its
properties and names are tokens of the source, and each of these is read as a single token on its
own. -/
theorem wellFormed_of_ofSource {s : Text} {sheet : Stylesheet}
    (h : Stylesheet.ofSource s = .ok sheet) : Stylesheet.Each wellFormed sheet := by
  obtain ⟨ts, hwords, hlist⟩ := ofSource_eq_ok_iff.1 h
  refine wellFormed_of_ruleList hlist ?_ ?_
  · intro t ht hk
    have hsingle := Token.isSingle_of_mem_words hwords ht (by simp [hk])
    rwa [hk] at hsingle
  · intro t ht hk
    have hsingle := Token.isSingle_of_mem_words hwords ht (by simp [hk])
    -- the tree keeps the name without its sign, and the token has it
    rw [Token.cons_atName (Token.genuine_of_mem_words hwords t ht) hk]
    rwa [hk] at hsingle

end CssHints
