import CssHints.Proofs.Parsed

/-!
# `CssHints.Proofs.Origins`: where the parts of a tree come from

Each selector, value and prelude of a tree was read from a closed run of the tokens, each property
and each name from a token. `Parts.OfRuns` says of a property of parts that it holds of whatever is
read so, and then it holds at any depth of the tree (`each_of_ofSource`).

The property is carried by the machine that reads the tokens: `State.Holds` asks it of all that has
been read, in open lists and in an open block too. A step keeps it (`State.Holds.step`), by the
cases of `Grammar.step_cases`, and so does a run.

The runs from which selectors are read can be listed (`rulePreludes`), so that a property of
selectors may depend on them.
-/

set_option autoImplicit false

namespace CssHints

open Token (words takeRun splitSelectors)
open Grammar (ClosedRun IsGap atHead declared)

/-! ### Preludes of rules -/

namespace Parser

/-- A token at which a rule starts. -/
def State.startsRule (st : State) (t : Token) : Bool :=
  st.block.isNone && t.kind != .whitespace && t.kind != .semicolon && t.kind != .rbrace &&
    t.kind != .atKeyword

/-- The prelude of the rule that starts at the token `t`, if one does; `ts` follow it. -/
def preludeAt (st : State) (t : Token) (ts : List Token) : List (List Token) :=
  if st.startsRule t then
    match takeRun .prelude [] (t :: ts) with
    | .ok (pre, _) => [pre]
    | .error _ => []
  else []

/-- The preludes of the rules that are read until the tokens end. -/
def rulePreludes (eof : Token) (st : State) : List Token → List (List Token)
  | [] => []
  | t :: ts =>
    match _h : step eof st t ts with
    | .error _ => []
    | .ok (st', rest) => preludeAt st t ts ++ rulePreludes eof st' rest
termination_by ts => ts.length
decreasing_by
  have := (step_suffix _h).length_le
  simp only [List.length_cons]
  omega

/-- The preludes of a run are that of its first step, if a rule starts there, and those of the
rest. -/
theorem rulePreludes_cons_of_step {eof t : Token} {st st' : State} {ts rest : List Token}
    (h : step eof st t ts = .ok (st', rest)) :
    rulePreludes eof st (t :: ts) = preludeAt st t ts ++ rulePreludes eof st' rest := by
  rw [rulePreludes]
  split
  · rename_i e he
    rw [h] at he
    cases he
  · rename_i st₁ rest₁ he
    rw [h] at he
    cases he
    rfl

end Parser

/-- The preludes of the rules of a source, at any depth and in document order. -/
def Stylesheet.rulePreludes (source : Text) : List (List Token) :=
  match words source with
  | none => []
  | some ts => Parser.rulePreludes ⟨.eof, [], .start⟩ {} ts

/-! ### Parts read from runs -/

/-- The property holds of each part that is read from tokens and closed runs among `ts`; `pres` are
the runs that are the preludes of rules. -/
structure Parts.OfRuns (p : Parts) (ts : List Token) (pres : List (List Token)) : Prop where
  selectors : ∀ pre ∈ pres, pre <:+: ts → ClosedRun pre → p.selectors (splitSelectors pre)
  declaration : ∀ property ∈ ts, property.kind = .ident → ∀ run, run <:+: ts → ClosedRun run →
    ∀ d ∈ declared property.value run, p.declaration d
  block : ∀ keyword ∈ ts, keyword.kind = .atKeyword → ∀ pre, pre <:+: ts → ClosedRun pre →
    p.block (atHead keyword pre)
  statement : ∀ keyword ∈ ts, keyword.kind = .atKeyword → ∀ pre, pre <:+: ts → ClosedRun pre →
    p.statement (atHead keyword pre)

/-- A property holds of the parts of a tree if it holds of the parts of each of its nodes. -/
theorem Stylesheet.each_iff {p : Parts} {ns : List Node} :
    Stylesheet.Each p ns ↔ ∀ n ∈ ns, n.Each p := by
  induction ns with
  | nil => simp [Stylesheet.Each]
  | cons n ns ih => simp [Stylesheet.Each, ih]

/-- A further node with the property leaves the tree with the property. -/
theorem Stylesheet.each_concat {p : Parts} {ns : List Node} {n : Node}
    (hns : Stylesheet.Each p ns) (hn : n.Each p) : Stylesheet.Each p (ns ++ [n]) := by
  rw [Stylesheet.each_iff] at hns ⊢
  intro m hm
  rcases List.mem_append.1 hm with hm | hm
  · exact hns m hm
  · rw [List.mem_singleton.1 hm]
    exact hn

namespace Parser

/-- The property holds of what a block belongs to. -/
def Owner.Holds (p : Parts) : Owner → Prop
  | .rule selectors => p.selectors selectors
  | .atRule head => p.block head

/-- The property holds of all that has been read. -/
structure State.Holds (p : Parts) (st : State) : Prop where
  lists : ∀ o ∈ st.lists, p.block o.head ∧ Stylesheet.Each p o.before
  nodes : Stylesheet.Each p st.nodes
  block : ∀ b ∈ st.block, b.owner.Holds p ∧ ∀ d ∈ b.decls, p.declaration d

/-- A block that is closed becomes a node, whose parts are the owner and the declarations of the
block. -/
theorem State.Holds.closeBlock {p : Parts} {st : State} (h : st.Holds p) {b : OpenBlock}
    (hb : st.block = some b) : (st.closeBlock b).Holds p := by
  obtain ⟨howner, hdecls⟩ := h.block b hb
  refine ⟨h.lists, Stylesheet.each_concat h.nodes ?_, by simp [State.closeBlock]⟩
  cases hk : b.owner with
  | rule selectors =>
      rw [hk] at howner
      exact ⟨howner, hdecls⟩
  | atRule head =>
      rw [hk] at howner
      exact ⟨howner, hdecls, trivial⟩

/-- A block that is opened has an owner and no declarations, so only the owner is to be checked. -/
theorem State.Holds.openBlock {p : Parts} {st : State} (h : st.Holds p) (brace : Token)
    {owner : Owner} (howner : owner.Holds p) : (st.openBlock brace owner).Holds p := by
  refine ⟨h.lists, h.nodes, ?_⟩
  intro b hb
  obtain rfl : _ = b := by simpa [State.openBlock] using hb
  exact ⟨howner, by simp⟩

section

variable {p : Parts} {all : List Token} {pres : List (List Token)} {st st' : State}
  {ts rest : List Token}

/-- A declaration adds to the block what its run declares. The run stands among all tokens and is
closed, so the property holds of what it declares. -/
theorem State.Holds.readDeclaration (hp : p.OfRuns all pres) (hall : ∀ t ∈ all, t.kind ≠ .eof)
    (h : st.Holds p) {eof property : Token} {b : OpenBlock} (hb : st.block = some b)
    (hk : property.kind = .ident) (hsuffix : property :: ts <:+ all)
    (hread : Parser.readDeclaration eof st b property ts = .ok (st', rest)) : st'.Holds p := by
  obtain ⟨colon, run, tail, hskip, -, hrun, -, hlists, hnodes, hblock⟩ :=
    Grammar.readDeclaration_cases hb hread
  -- the run of the value stands behind the colon, so among all tokens
  have hinner : colon :: (run ++ tail) <:+ all := by
    rw [← hskip]
    exact (skipSpace_suffix ts).trans ((List.suffix_cons property ts).trans hsuffix)
  have hinside : run <:+: all := by
    obtain ⟨front, rfl⟩ := hinner
    exact ⟨front ++ [colon], tail, by simp⟩
  have hclosed : ClosedRun run := (Grammar.closes_of_takeRun
    (fun t ht => hall t (hinner.subset (List.mem_cons_of_mem _ ht))) hrun).1
  refine ⟨by rw [hlists]; exact h.lists, by rw [hnodes]; exact h.nodes, ?_⟩
  intro b' hb'
  rw [hblock] at hb'
  cases hb'
  obtain ⟨howner, hdecls⟩ := h.block b hb
  refine ⟨howner, ?_⟩
  intro d hd
  rcases List.mem_append.1 hd with hd | hd
  · exact hdecls d hd
  · exact hp.declaration property (hsuffix.subset List.mem_cons_self) hk run hinside hclosed d hd

/-- The head of an at-rule goes to a node, to an open list or to an open block, and has the property
wherever it goes. -/
theorem State.Holds.readAtRule (hp : p.OfRuns all pres) (hall : ∀ t ∈ all, t.kind ≠ .eof)
    (h : st.Holds p) {keyword : Token} (hk : keyword.kind = .atKeyword)
    (hsuffix : keyword :: ts <:+ all)
    (hread : Parser.readAtRule st keyword ts = .ok (st', rest)) : st'.Holds p := by
  obtain ⟨pre, t, hrun, hcases⟩ := Grammar.readAtRule_cases hread
  have hmem : keyword ∈ all := hsuffix.subset List.mem_cons_self
  have hclosed : ClosedRun pre := (Grammar.closes_of_takeRun
    (fun u hu => hall u (hsuffix.subset (List.mem_cons_of_mem _ hu))) hrun).1
  have hinside : pre <:+: all := by
    obtain ⟨front, rfl⟩ := hsuffix
    rw [← Token.takeRun_append hrun]
    exact ⟨front ++ [keyword], t :: rest, by simp⟩
  have hblock := hp.block keyword hmem hk pre hinside hclosed
  -- a statement, an open list of rules, or an open block of declarations
  rcases hcases with ⟨-, -, rfl⟩ | ⟨-, -, -, rfl⟩ | ⟨-, -, rfl⟩
  · have hstatement := hp.statement keyword hmem hk pre hinside hclosed
    exact ⟨h.lists, Stylesheet.each_concat h.nodes hstatement, h.block⟩
  · refine ⟨?_, trivial, h.block⟩
    intro o ho
    rcases List.mem_cons.1 ho with rfl | ho
    · exact ⟨hblock, h.nodes⟩
    · exact h.lists o ho
  · exact h.openBlock t hblock

/-- The selectors of a rule go to its block. They were split from a closed run that is one of the
listed preludes. -/
theorem State.Holds.readRule (hp : p.OfRuns all pres) (hall : ∀ t ∈ all, t.kind ≠ .eof)
    (h : st.Holds p) {eof start : Token} (hstart : st.startsRule start = true)
    (hsuffix : start :: ts <:+ all) (hpres : ∀ pre ∈ preludeAt st start ts, pre ∈ pres)
    (hread : Parser.readRule eof st start ts = .ok (st', rest)) : st'.Holds p := by
  obtain ⟨pre, t, hrun, -, -, rfl⟩ := Grammar.readRule_cases hread
  have hmem : pre ∈ pres := hpres pre (by simp [preludeAt, hstart, hrun])
  have hclosed : ClosedRun pre := (Grammar.closes_of_takeRun
    (fun u hu => hall u (hsuffix.subset hu)) hrun).1
  have hinside : pre <:+: all := by
    obtain ⟨front, rfl⟩ := hsuffix
    rw [← Token.takeRun_append hrun]
    exact ⟨front, t :: rest, by simp⟩
  exact h.openBlock t (hp.selectors pre hmem hinside hclosed)

/-- **A step** keeps the property of all that has been read, if the tokens that are left are the
last of all tokens and the prelude of the step is a listed one. -/
theorem State.Holds.step (hp : p.OfRuns all pres) (hall : ∀ t ∈ all, t.kind ≠ .eof)
    (h : st.Holds p) {eof t : Token} (hsuffix : t :: ts <:+ all)
    (hpres : ∀ pre ∈ preludeAt st t ts, pre ∈ pres)
    (hstep : Parser.step eof st t ts = .ok (st', rest)) : st'.Holds p := by
  rcases Grammar.step_cases hstep with ⟨-, rfl, -⟩ | ⟨b, hb, -, rfl, -⟩ | ⟨b, hb, hk, hread⟩ |
    ⟨o, os, hb, -, hlists, rfl, -⟩ | ⟨-, hk, hread⟩ | ⟨hb, hgap, hrbrace, hkeyword, hread⟩
  · exact h
  · exact h.closeBlock hb
  · exact h.readDeclaration hp hall hb hk hsuffix hread
  · -- the list that ends becomes a node of the list around it
    obtain ⟨hhead, hbefore⟩ := h.lists o (by simp [hlists])
    refine ⟨fun u hu => h.lists u (by simp [hlists, hu]), ?_, h.block⟩
    exact Stylesheet.each_concat hbefore ⟨hhead, by simp, h.nodes⟩
  · exact h.readAtRule hp hall hk hsuffix hread
  · rw [IsGap, not_or] at hgap
    have hstart : st.startsRule t = true := by
      simp [State.startsRule, hb, hgap, hrbrace, hkeyword]
    exact h.readRule hp hall hstart hsuffix hpres hread

/-- **A run** that ends with a tree has the property at each depth of the tree. The invariant is
that all that has been read has it, and at the end all that has been read is the tree. -/
theorem each_of_run (hp : p.OfRuns all pres) (hall : ∀ t ∈ all, t.kind ≠ .eof) {eof : Token}
    (hsuffix : ts <:+ all) (hpres : ∀ pre ∈ rulePreludes eof st ts, pre ∈ pres) (h : st.Holds p)
    {sheet : Stylesheet} (hrun : (run eof st ts).result = .ok sheet) : Stylesheet.Each p sheet := by
  fun_induction run eof st ts with
  | case1 st =>
      unfold State.finish at hrun
      split at hrun
      · cases hrun
      · cases hrun
      · cases hrun
        exact h.nodes
  | case2 st t ts e hstep => cases hrun
  | case3 st t ts st' rest hstep ih =>
      -- the preludes are those of the first item and those of the rest of the run
      rw [rulePreludes_cons_of_step hstep] at hpres
      have hrest : rest <:+ all :=
        (step_suffix hstep).trans ((List.suffix_cons t ts).trans hsuffix)
      refine ih hrest (fun pre hpre => hpres pre (List.mem_append_right _ hpre)) ?_ hrun
      exact h.step hp hall hsuffix (fun pre hpre => hpres pre (List.mem_append_left _ hpre)) hstep

end

end Parser

/-- What holds of each part that is read from closed runs of a source holds at any depth of its
tree. -/
theorem each_of_ofSource {p : Parts} {source : Text} {sheet : Stylesheet} {ts : List Token}
    (hwords : words source = some ts) (h : Stylesheet.ofSource source = .ok sheet)
    (hp : p.OfRuns ts (Stylesheet.rulePreludes source)) : Stylesheet.Each p sheet := by
  obtain ⟨us, hus, hlist⟩ := ofSource_eq_ok_iff.1 h
  cases hwords.symm.trans hus
  have hall := Token.kind_ne_eof_of_mem_words hwords
  have heof : (Token.mk .eof [] .start).kind = .eof := rfl
  have hrun := Grammar.parse_of_ruleList heof hall hlist
  rw [Grammar.parse_append_eof heof hall] at hrun
  have hstart : Parser.State.Holds p {} := ⟨by simp, trivial, by simp⟩
  refine Parser.each_of_run hp hall (List.suffix_refl _) ?_ hstart hrun
  rw [Stylesheet.rulePreludes, hwords]
  exact fun pre hpre => hpre

end CssHints
