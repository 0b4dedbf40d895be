import CssHints.Proofs.Descent
import CssHints.Proofs.Grammar

/-!
# `CssHints.Proofs.CursorRange`: the cursor stays inside the list

The descent (`CssHints.Proofs.Descent`) reads a list of tokens in place and may, for all that its
definition says, run off the list or never end. This module shows that on a list with an `eof` token
at its end it does neither, and that it comes to the outcome of the parser.

Each reader has one lemma: if the cursor stands where the parser is in the state `st`, the reader
ends, and it halts as the run of the parser from there does (`Fails`), or the run goes on in the
state behind what was read, with fewer tokens left (`ends_declarations`, `ends_ruleBlock`,
`ends_atRule`, `readsLists`). A round of each loop takes a token, so the inductions are on the
number of tokens left. The counter of the descent is the number of lists that the parser has open:
it is set back on each return.

`parse_upToEof` puts this together for a whole list.
-/

set_option autoImplicit false

namespace CssHints.Descent

open Token (splitSelectors)
open CssHints.Parser (OpenList OpenBlock Owner State run step)
open Grammar (IsGap ownerNode run_cons_of_step)

/-! ### Runs of the parser -/

/-- Gaps at the start of the tokens make no difference to a run of the parser. -/
theorem run_skipSpace (eof : Token) (st : State) (ts : List Token) :
    run eof st (Parser.skipSpace ts) = run eof st ts := by
  induction ts with
  | nil => rfl
  | cons t ts ih =>
      by_cases ht : t.kind = .whitespace
      · rw [run_cons_of_step (Grammar.step_gap (.inl ht)), ← ih]
        simp [Parser.skipSpace, ht]
      · simp [Parser.skipSpace, ht]

/-- What stands behind skipped gaps is no gap. -/
theorem kind_head_skipSpace {t : Token} {ts us : List Token}
    (h : Parser.skipSpace ts = t :: us) : t.kind ≠ .whitespace := by
  have hhead := List.head?_dropWhile_not (·.kind = .whitespace) ts
  rw [Parser.skipSpace] at h
  simpa [h] using hhead

/-- Where a step of the parser fails, its run has that error and what was dropped up to there. The
two readings are compared on both. -/
theorem run_cons_of_error {eof t : Token} {st : State} {ts : List Token} {e : ParseError}
    (h : step eof st t ts = .error e) : run eof st (t :: ts) = ⟨st.dropped, .error e⟩ := by
  rw [run]
  split
  · rename_i e' he
    rw [h] at he
    cases he
    rfl
  · rename_i st' rest he
    rw [h] at he
    cases he

/-- A reading has halted as a run of the parser with the outcome `out` does: with the same error,
the same declarations dropped, and no look behind the `eof` token. -/
def Fails (front : List Token) (out : Parser.Outcome) (h : Halt) (c : Cursor) : Prop :=
  ∃ e, h = .fault e ∧ out = ⟨c.dropped, .error e⟩ ∧ c.place ≤ front.length ∧
    ∀ i ∈ c.reads, i ≤ front.length

/-- A fault that is raised at a cursor in front of the first `eof` token, with the parser failing in
the same way, is a halt as `Fails` asks for. -/
theorem Cursor.At.fails {front rest : List Token} {d : Nat} {dr : List Dropped} {c : Cursor}
    {out : Parser.Outcome} {e : ParseError} (hc : c.At front rest d dr)
    (h : out = ⟨dr, .error e⟩) : Fails front out (.fault e) c := by
  refine ⟨e, rfl, by rw [h, hc.dropped], ?_, hc.reads⟩
  obtain ⟨before, rfl, hplace⟩ := hc.place
  simp [hplace]

/-- The state behind the node `n`, outside blocks of declarations, with the declarations in `dr`
dropped so far. -/
def behind (st : State) (n : Node) (dr : List Dropped) : State :=
  { st with block := none, nodes := st.nodes ++ [n], dropped := dr }

/-- Closing a block leaves the state behind the node that the block belongs to. -/
theorem closeBlock_eq_behind (st : State) (b : OpenBlock) :
    st.closeBlock b = behind st (ownerNode b.owner b.decls) st.dropped := by
  obtain ⟨brace, owner, decls⟩ := b
  cases owner <;> rfl

/-- The state with further declarations in its open block, and the declarations in `dr` dropped so
far. -/
def declaring (st : State) (b : OpenBlock) (ds : List Declaration) (dr : List Dropped) : State :=
  { st with block := some { b with decls := b.decls ++ ds }, dropped := dr }

/-- The state behind the block of the at-rule `o`, which holds `nodes`. -/
def closeList (st : State) (o : OpenList) (os : List OpenList) (nodes : List Node)
    (dr : List Dropped) : State :=
  { st with lists := os, nodes := o.before ++ [.block o.head nodes []], dropped := dr }

/-- A closing brace outside blocks of declarations closes the innermost list of rules, and is an
error if there is none. -/
theorem step_rbrace {eof t : Token} {st : State} {ts : List Token} (hblock : st.block = none)
    (ht : t.kind = .rbrace) :
    step eof st t ts = match st.lists with
      | [] => .error (ParseFault.unmatchedBrace.atToken t)
      | o :: os => .ok (closeList st o os st.nodes st.dropped, ts) := by
  rw [step, if_neg (by simp [ht]), hblock]
  dsimp only
  rw [if_pos ht]
  cases st.lists with
  | nil => rfl
  | cons o os =>
      dsimp only [closeList]
      rw [hblock]

section Blocks

variable {front tail rest : List Token} {eof t : Token} {dr : List Dropped} {c : Cursor}
  {st : State}

/-- A reading halts where the parser takes no step, with the fault of the parser. -/
theorem ends_fail_of_step {α : Type} {rest' : List Token} {d : Nat} {fault : ParseFault} {u : Token}
    {ok : α → Cursor → Prop} (hc : c.At front rest' d st.dropped)
    (h : step eof st t rest = .error (fault.atToken u)) :
    Ends (fail fault u) c ok (Fails front (run eof st (t :: rest))) :=
  ends_fail (hc.fails (run_cons_of_error h))

/-- A declaration is read as the parser reads it: the cursor comes to rest where the parser leaves
off, with the same declarations, or the reading halts with the parser's error. -/
theorem ends_declaration {b : OpenBlock} {ok : List Declaration → Cursor → Prop}
    {err : Halt → Cursor → Prop} (heof : eof.kind = .eof) (hfront : ∀ u ∈ front, u.kind ≠ .eof)
    (hc : c.At front (t :: rest) st.lists.length st.dropped) (hb : st.block = some b)
    (hok : ∀ ds rest' dr' c',
      Parser.readDeclaration eof st b t rest = .ok (declaring st b ds dr', rest') →
      Cursor.At front rest' st.lists.length dr' c' → ok ds c')
    (herr : ∀ e rest' c', Parser.readDeclaration eof st b t rest = .error e →
      Cursor.At front rest' st.lists.length st.dropped c' → err (.fault e) c') :
    Ends (Tokens.declaration (front ++ eof :: tail)) c ok err := by
  rw [Tokens.declaration]
  refine ends_bind (ends_advance hfront hc fun c₁ hc₁ => ?_)
  refine ends_bind (ends_skipSpace heof hc₁ fun c₂ hc₂ => ?_)
  refine ends_bind (ends_peek hc₂ fun c₃ hc₃ => ?_)
  -- the parser looks for the colon in what is left; at its end the descent looks at the `eof` token
  unfold Parser.readDeclaration at hok herr
  cases hskip : Parser.skipSpace rest with
  | nil =>
      simp only [hskip] at hc₃ herr
      rw [if_pos (by simp [heof])]
      exact ends_fail (herr _ _ c₃ rfl hc₃)
  | cons colon ts =>
      simp only [hskip] at hc₃ hok herr
      rw [List.headD_cons]
      by_cases hcolon : colon.kind = .colon
      · rw [if_neg (by simp [hcolon])] at hok herr ⊢
        refine ends_bind (ends_advance hfront hc₃ fun c₄ hc₄ => ends_bind ?_)
        refine ends_collect heof hfront hc₄ ?_ ?_
        · intro run rest' c₅ hrun hc₅
          simp only [hrun] at hok
          refine ends_bind (ends_skipSemicolon heof hfront hc₅ fun c₆ hc₆ => ?_)
          rw [List.nil_append]
          by_cases hempty : (Parser.splitImportant run).1 = []
          · rw [if_pos hempty] at hok ⊢
            -- the parser leaves the block as it is, which is the block with no declarations added
            have hst : declaring st b [] (st.dropped ++ [⟨t.value, t.loc.line⟩]) =
                { st with dropped := st.dropped ++ [⟨t.value, t.loc.line⟩] } := by
              simp [declaring, hb]
            refine ends_bind (ends_modify (ends_pure (hok [] _ _ _ (by rw [hst]) ?_)))
            exact ⟨hc₆.place, hc₆.reads, hc₆.depth, by rw [hc₆.dropped]⟩
          · rw [if_neg hempty] at hok ⊢
            exact ends_pure (hok _ _ st.dropped c₆ rfl hc₆)
        · intro e rest' c₅ hrun hc₅
          simp only [hrun] at herr
          exact herr e rest' c₅ rfl hc₅
      · rw [if_pos hcolon] at herr ⊢
        exact ends_fail (herr _ _ c₃ rfl hc₃)

/-- A block of declarations is read as the parser reads it, up to its closing brace. Behind the
brace the run of the parser goes on in the state that has the node of the block. -/
theorem ends_declarations {b : OpenBlock} {ok : List Declaration → Cursor → Prop}
    (heof : eof.kind = .eof) (hfront : ∀ u ∈ front, u.kind ≠ .eof)
    (hc : c.At front rest st.lists.length st.dropped) (hb : st.block = some b)
    (hok : ∀ decls rest' dr' c', rest'.length < rest.length →
      Cursor.At front rest' st.lists.length dr' c' →
      run eof st rest = run eof (behind st (ownerNode b.owner decls) dr') rest' → ok decls c') :
    Ends (Tokens.declarations (front ++ eof :: tail) b.brace b.decls) c ok
      (Fails front (run eof st rest)) := by
  -- no round leaves as many tokens as it finds; a declaration may take any number of them
  induction hn : rest.length using Nat.strongRecOn generalizing rest st b c with
  | ind n ih =>
  rw [Tokens.declarations]
  refine ends_bind (ends_skipSpace heof hc fun c₁ hc₁ => ends_bind (ends_peek hc₁ fun c₂ hc₂ => ?_))
  rw [← run_skipSpace] at hok ⊢
  have hlen := (Parser.skipSpace_suffix rest).length_le
  cases hskip : Parser.skipSpace rest with
  | nil =>
      rw [hskip] at hc₂
      rw [if_pos (by simp [heof])]
      -- the tokens end inside the block, and both blame its opening brace
      refine ends_fail (hc₂.fails ?_)
      rw [run, State.finish, hb]
  | cons t ts =>
      rw [hskip] at hc₂ hlen hok
      rw [List.length_cons] at hlen
      rw [List.headD_cons, if_neg (hc₂.kind_ne_eof hfront)]
      by_cases hrbrace : t.kind = .rbrace
      · rw [if_pos hrbrace]
        refine ends_bind (ends_advance hfront hc₂ fun c₃ hc₃ => ends_pure ?_)
        refine hok _ ts st.dropped c₃ (by omega) hc₃ (run_cons_of_step ?_)
        rw [step, if_neg (by simp [hrbrace]), hb]
        dsimp only
        rw [if_pos hrbrace, closeBlock_eq_behind]
      rw [if_neg hrbrace]
      by_cases hsemi : t.kind = .semicolon
      · rw [if_pos hsemi]
        rw [run_cons_of_step (Grammar.step_gap (.inr hsemi))] at hok ⊢
        refine ends_bind (ends_advance hfront hc₂ fun c₃ hc₃ => ?_)
        refine ih ts.length (by omega) hc₃ hb ?_ rfl
        exact fun decls rest' dr' c' hlt => hok decls rest' dr' c' (by omega)
      rw [if_neg hsemi]
      by_cases hident : t.kind = .ident
      · rw [if_neg (by simp [hident])]
        refine ends_bind (ends_declaration heof hfront hc₂ hb ?_ ?_)
        · intro ds rest' dr' c₃ hread hc₃
          -- one step of the parser reads the whole declaration
          rw [← Grammar.step_ident hb hident] at hread
          have hlt := (Parser.step_suffix hread).length_le
          rw [run_cons_of_step hread] at hok ⊢
          have hc₃' : c₃.At front rest' (declaring st b ds dr').lists.length dr' := hc₃
          refine ih rest'.length (by omega) hc₃' rfl ?_ rfl
          exact fun decls rest'' dr'' c' hlt' => hok decls rest'' dr'' c' (by omega)
        · intro e rest' c₃ hread hc₃
          rw [← Grammar.step_ident hb hident] at hread
          exact hc₃.fails (run_cons_of_error hread)
      · rw [if_pos hident]
        refine ends_fail_of_step hc₂ ?_
        have hgap := kind_head_skipSpace hskip
        rw [step, if_neg (by simp [hgap, hsemi]), hb]
        dsimp only
        rw [if_neg hrbrace, if_neg hident]

/-- A block that has just been opened is read as the parser reads it; it has no declarations so
far. -/
theorem ends_opened {owner : Owner} {ok : List Declaration → Cursor → Prop}
    (heof : eof.kind = .eof) (hfront : ∀ u ∈ front, u.kind ≠ .eof)
    (hc : c.At front rest st.lists.length st.dropped)
    (hok : ∀ decls rest' dr' c', rest'.length < rest.length →
      Cursor.At front rest' st.lists.length dr' c' →
      run eof (st.openBlock t owner) rest = run eof (behind st (ownerNode owner decls) dr') rest' →
      ok decls c') :
    Ends (Tokens.declarations (front ++ eof :: tail) t []) c ok
      (Fails front (run eof (st.openBlock t owner) rest)) := by
  have hc' : c.At front rest (st.openBlock t owner).lists.length (st.openBlock t owner).dropped :=
    hc
  exact ends_declarations heof hfront hc' rfl hok

/-- A rule with selectors can be made, so the reading goes on. -/
theorem ends_makeRule {r : Rule} {ok : Node → Cursor → Prop}
    {err : Halt → Cursor → Prop} (hr : r.selectors ≠ []) (h : ok (.rule r) c) :
    Ends (makeRule r) c ok err := by
  rw [makeRule, Rule.make?, if_neg hr]
  exact ends_pure h

/-- A rule is read as the parser reads it, whatever selectors and declarations it has. The parser
takes one step up to the opening brace and then one for each declaration; the descent reads all of
it in one call. -/
theorem ends_ruleBlock {ok : Node → Cursor → Prop} (heof : eof.kind = .eof)
    (hfront : ∀ u ∈ front, u.kind ≠ .eof)
    (hc : c.At front (t :: rest) st.lists.length st.dropped)
    (hstep : step eof st t rest = Parser.readRule eof st t rest)
    (hok : ∀ n rest' dr' c', rest'.length ≤ rest.length →
      Cursor.At front rest' st.lists.length dr' c' →
      run eof st (t :: rest) = run eof (behind st n dr') rest' → ok n c') :
    Ends (Tokens.ruleBlock (front ++ eof :: tail)) c ok (Fails front (run eof st (t :: rest))) := by
  rw [Tokens.ruleBlock]
  refine ends_bind (ends_peek hc fun c₁ hc₁ => ends_bind (ends_collect heof hfront hc₁ ?_ ?_))
  · intro pre rest₁ c₂ hrun hc₂
    rw [List.nil_append]
    refine ends_bind (ends_peek hc₂ fun c₃ hc₃ => ?_)
    unfold Parser.readRule at hstep
    rw [hrun] at hstep
    cases rest₁ with
    | nil =>
        rw [if_pos (by simp [heof])]
        exact ends_fail_of_step hc₃ hstep
    | cons lb rest₂ =>
        rw [List.headD_cons] at *
        dsimp only at hstep
        by_cases hlbrace : lb.kind = .lbrace
        · rw [if_neg (by simp [hlbrace])] at hstep ⊢
          by_cases hselectors : splitSelectors pre = []
          · rw [if_pos hselectors] at hstep ⊢
            exact ends_fail_of_step hc₃ hstep
          · rw [if_neg hselectors] at hstep ⊢
            -- one step of the parser opens the block; the run goes on inside it
            have hlen := (Parser.step_suffix hstep).length_le
            rw [run_cons_of_step hstep] at hok ⊢
            refine ends_bind (ends_advance hfront hc₃ fun c₄ hc₄ => ends_bind ?_)
            refine ends_opened heof hfront hc₄ ?_
            intro decls rest' dr' c' hlt hc' hrest
            exact ends_makeRule hselectors (hok _ rest' dr' c' (by omega) hc' hrest)
        · rw [if_pos hlbrace] at hstep ⊢
          exact ends_fail_of_step hc₃ hstep
  · intro e rest₁ c₂ hrun hc₂
    unfold Parser.readRule at hstep
    rw [hrun] at hstep
    exact hc₂.fails (run_cons_of_error hstep)

end Blocks

/-! ### Lists of rules -/

/-- The innermost list of the state `st` has the given nodes. If it is the block of an at-rule, the
parser goes on with `rest'` behind its closing brace; else it is done. -/
def Returns (eof : Token) (st : State) (rest : List Token) (nodes : List Node)
    (rest' : List Token) (dr : List Dropped) : Prop :=
  match st.lists with
  | [] => run eof st rest = ⟨dr, .ok nodes⟩
  | o :: os =>
    rest'.length < rest.length ∧ run eof st rest = run eof (closeList st o os nodes dr) rest'

/-- Lists of rules are read as the parser reads them, with `n` tokens left. -/
def ReadsLists (front tail : List Token) (eof : Token) (n : Nat) : Prop :=
  ∀ (rest : List Token) (st : State) (c : Cursor) (ok : List Node → Cursor → Prop),
    rest.length = n → c.At front rest st.lists.length st.dropped → st.block = none →
    (∀ nodes rest' dr c', Cursor.At front rest' st.lists.length dr c' →
      Returns eof st rest nodes rest' dr → ok nodes c') →
    Ends (Tokens.ruleList (front ++ eof :: tail) (st.lists.head?.map OpenList.brace) st.nodes) c ok
      (Fails front (run eof st rest))

section Lists

variable {front tail rest : List Token} {eof t : Token} {c : Cursor} {st : State}

/-- The state in which the parser reads the block of an at-rule. -/
def opened (st : State) (head : AtHead) (opener : Token) : State :=
  if AtRule.holdsRules (AtRule.baseName head.name) then st.openList opener head
  else st.openBlock opener (.atRule head)

/-- The block of an at-rule is read as the parser reads it, if the lists in it are and the at-rules
around it are not too many. If they are too many, both halt at the keyword. -/
theorem ends_atBlock {head : AtHead} {keyword opener : Token} {out : Parser.Outcome}
    {ok : Node → Cursor → Prop} (heof : eof.kind = .eof) (hfront : ∀ u ∈ front, u.kind ≠ .eof)
    (hlists : ReadsLists front tail eof rest.length)
    (hc : c.At front rest st.lists.length st.dropped) (hblock : st.block = none)
    (hdeep : AtRule.holdsRules (AtRule.baseName head.name) = true →
      AtRule.maxDepth ≤ st.lists.length →
      out = ⟨st.dropped, .error (ParseFault.tooDeep.atToken keyword)⟩)
    (hrun : (AtRule.holdsRules (AtRule.baseName head.name) = true →
      st.lists.length < AtRule.maxDepth) → out = run eof (opened st head opener) rest)
    (hok : ∀ n rest' dr c', rest'.length ≤ rest.length →
      Cursor.At front rest' st.lists.length dr c' → out = run eof (behind st n dr) rest' →
      ok n c') :
    Ends (Tokens.atBlock (front ++ eof :: tail) keyword head opener) c ok (Fails front out) := by
  rw [Tokens.atBlock]
  unfold opened at hrun
  split
  · rename_i hrules
    rw [if_pos hrules] at hrun
    refine ends_bind (ends_modify (ends_bind (ends_get ?_)))
    -- the counter is one more than the number of open lists
    rw [hc.enter.depth]
    split
    · rename_i hmany
      exact ends_fail (hc.enter.fails (hdeep hrules (by omega)))
    · rename_i hmany
      rw [hrun fun _ => by omega] at hok ⊢
      refine ends_bind (hlists _ (st.openList opener head) _ _ rfl hc.enter hblock ?_)
      intro children rest' dr c₁ hc₁ hreturn
      refine ends_bind (ends_modify (ends_pure (hok _ rest' dr _ ?_ hc₁.leave ?_)))
      · exact Nat.le_of_lt hreturn.1
      · rw [hreturn.2, behind, ← hblock]
        rfl
  · rename_i hrules
    rw [if_neg hrules] at hrun
    rw [hrun fun h => absurd h hrules] at hok ⊢
    refine ends_bind (ends_opened heof hfront hc ?_)
    intro decls rest' dr c₁ hlt hc₁ hrest
    exact ends_pure (hok _ rest' dr c₁ (by omega) hc₁ hrest)

/-- An at-rule is read as the parser reads it, if the lists inside it are. The descent goes into a
list by a call and the parser by a step, so the lists are a hypothesis here, for all shorter rests;
the induction that discharges it is on the length of the rest. -/
theorem ends_atRule {ok : Node → Cursor → Prop} (heof : eof.kind = .eof)
    (hfront : ∀ u ∈ front, u.kind ≠ .eof)
    (hlists : ∀ n ≤ rest.length, ReadsLists front tail eof n)
    (hc : c.At front (t :: rest) st.lists.length st.dropped) (hblock : st.block = none)
    (ht : t.kind = .atKeyword)
    (hok : ∀ n rest' dr c', rest'.length ≤ rest.length →
      Cursor.At front rest' st.lists.length dr c' →
      run eof st (t :: rest) = run eof (behind st n dr) rest' → ok n c') :
    Ends (Tokens.atRule (front ++ eof :: tail)) c ok (Fails front (run eof st (t :: rest))) := by
  have hstep : step eof st t rest = Parser.readAtRule st t rest :=
    Grammar.step_atKeyword hblock ht
  unfold Parser.readAtRule at hstep
  rw [Tokens.atRule]
  refine ends_bind (ends_advance hfront hc fun c₁ hc₁ => ends_bind ?_)
  refine ends_collect heof hfront hc₁ ?_ ?_
  · intro pre rest₁ c₂ hrun hc₂
    rw [List.nil_append]
    rw [hrun] at hstep
    dsimp only at hstep
    refine ends_bind (ends_peek hc₂ fun c₃ hc₃ => ?_)
    -- the checks come in the order in which the parser makes them, so each case of a check here
    -- settles the same one in `hstep`
    split
    · rename_i hknown
      rw [if_pos hknown] at hstep
      exact ends_fail_of_step hc₃ hstep
    rename_i hknown
    rw [if_neg hknown] at hstep
    cases rest₁ with
    | nil =>
        rw [if_neg (by simp [heof]), if_pos (by simp [heof])]
        exact ends_fail_of_step hc₃ hstep
    | cons u rest₂ =>
        have hlen : rest₂.length ≤ rest.length := by
          rw [← Token.takeRun_append hrun]
          simp
          omega
        rw [List.headD_cons]
        dsimp only at hstep
        split
        · rename_i hsemi
          rw [if_pos hsemi] at hstep
          split
          · rename_i hstatement
            rw [if_pos hstatement] at hstep
            refine ends_bind (ends_advance hfront hc₃ fun c₄ hc₄ => ends_pure ?_)
            refine hok _ rest₂ st.dropped c₄ hlen hc₄ ?_
            rw [run_cons_of_step hstep, behind, ← hblock]
            rfl
          · rename_i hstatement
            rw [if_neg hstatement] at hstep
            exact ends_fail_of_step hc₃ hstep
        rename_i hsemi
        rw [if_neg hsemi] at hstep
        split
        · rename_i hlbrace
          rw [if_pos hlbrace] at hstep
          exact ends_fail_of_step hc₃ hstep
        rename_i hlbrace
        rw [if_neg hlbrace] at hstep
        split
        · rename_i htakes
          rw [if_pos htakes] at hstep
          exact ends_fail_of_step hc₃ hstep
        rename_i htakes
        rw [if_neg htakes] at hstep
        refine ends_bind (ends_advance hfront hc₃ fun c₄ hc₄ => ?_)
        refine ends_atBlock heof hfront (hlists _ hlen) hc₄ hblock ?_ ?_ ?_
        · intro hrules hmany
          rw [if_pos hrules, if_pos hmany] at hstep
          exact run_cons_of_error hstep
        · intro hfew
          refine run_cons_of_step (hstep.trans ?_)
          rw [opened]
          split
          · rw [if_neg (Nat.not_le.2 (hfew ‹_›))]
          · rfl
        · exact fun n rest' dr c' hle => hok n rest' dr c' (by omega)
  · intro e rest₁ c₂ hrun hc₂
    rw [hrun] at hstep
    exact hc₂.fails (run_cons_of_error hstep)

/-- A list that ends behind some further tokens ends behind the earlier ones too, if the run of the
parser leads from these to those with the same lists open. -/
theorem Returns.of_run {st' : State} {ts rest' : List Token} {nodes : List Node}
    {dr : List Dropped} (h : Returns eof st' ts nodes rest' dr) (hlists : st'.lists = st.lists)
    (hblock : st'.block = st.block) (hlen : ts.length ≤ rest.length)
    (hrun : run eof st rest = run eof st' ts) : Returns eof st rest nodes rest' dr := by
  unfold Returns at h ⊢
  rw [hrun]
  rw [hlists] at h
  cases hl : st.lists with
  | nil =>
      rw [hl] at h
      exact h
  | cons o os =>
      rw [hl] at h
      refine ⟨Nat.lt_of_lt_of_le h.1 hlen, h.2.trans ?_⟩
      rw [closeList, closeList, hblock]

/-- Lists of rules are read as the parser reads them, however many tokens are left. This is where
all readers of the descent meet, and where its loops are seen to end. -/
theorem readsLists (heof : eof.kind = .eof) (hfront : ∀ u ∈ front, u.kind ≠ .eof) (n : Nat) :
    ReadsLists front tail eof n := by
  -- the calls of the three readers go round: a list calls for an at-rule, whose block is a list
  -- with fewer tokens left, so one induction on their number covers all three
  induction n using Nat.strongRecOn with
  | ind n ih =>
  rintro rest st c ok rfl hc hblock hok
  rw [Tokens.ruleList.eq_def]
  refine ends_bind (ends_skipSpace heof hc fun c₁ hc₁ => ends_bind (ends_peek hc₁ fun c₂ hc₂ => ?_))
  have hlen := (Parser.skipSpace_suffix rest).length_le
  rw [← run_skipSpace]
  cases hskip : Parser.skipSpace rest with
  | nil =>
      rw [hskip] at hc₂
      rw [List.headD_nil, if_pos heof]
      -- at the end of the tokens the outermost list is complete, and any other lacks its brace
      cases hlists : st.lists with
      | nil =>
          refine ends_pure (hok _ [] st.dropped c₂ hc₂ ?_)
          rw [Returns, hlists, ← run_skipSpace, hskip, run, State.finish, hblock, hlists]
      | cons o os =>
          refine ends_fail (hc₂.fails ?_)
          rw [run, State.finish, hblock, hlists]
  | cons t ts =>
      rw [hskip] at hc₂ hlen
      rw [List.length_cons] at hlen
      rw [List.headD_cons, if_neg (hc₂.kind_ne_eof hfront)]
      have hrest : run eof st rest = run eof st (t :: ts) := by rw [← hskip, run_skipSpace]
      by_cases hrbrace : t.kind = .rbrace
      · rw [if_pos hrbrace]
        have hstep := @step_rbrace eof t st ts hblock hrbrace
        cases hlists : st.lists with
        | nil =>
            rw [hlists] at hstep
            exact ends_fail_of_step hc₂ hstep
        | cons o os =>
            rw [hlists] at hstep
            refine ends_bind (ends_advance hfront hc₂ fun c₃ hc₃ => ends_pure ?_)
            refine hok _ ts st.dropped c₃ hc₃ ?_
            rw [Returns, hlists]
            exact ⟨by omega, hrest.trans (run_cons_of_step hstep)⟩
      rw [if_neg hrbrace]
      by_cases hsemi : t.kind = .semicolon
      · rw [if_pos hsemi]
        have hrun := run_cons_of_step (Grammar.step_gap (.inr hsemi) : step eof st t ts = _)
        rw [hrun]
        refine ends_bind (ends_advance hfront hc₂ fun c₃ hc₃ => ?_)
        refine ih ts.length (by omega) ts st c₃ ok rfl hc₃ hblock ?_
        intro nodes rest' dr c' hc' hreturn
        exact hok nodes rest' dr c' hc' (hreturn.of_run rfl rfl (by omega) (hrest.trans hrun))
      rw [if_neg hsemi]
      -- behind a node, of either kind, the list goes on in the state that has the node
      have hnext : ∀ n rest' dr c', rest'.length ≤ ts.length →
          Cursor.At front rest' st.lists.length dr c' →
          run eof st (t :: ts) = run eof (behind st n dr) rest' →
          Ends (Tokens.ruleList (front ++ eof :: tail) (st.lists.head?.map OpenList.brace)
            (st.nodes ++ [n])) c' ok (Fails front (run eof st (t :: ts))) := by
        intro n rest' dr c' hle hc' hrun
        rw [hrun]
        refine ih rest'.length (by omega) rest' (behind st n dr) c' ok rfl hc' rfl ?_
        intro nodes rest'' dr' c'' hc'' hreturn
        refine hok nodes rest'' dr' c'' hc'' (hreturn.of_run rfl hblock.symm (by omega) ?_)
        exact hrest.trans hrun
      by_cases hkeyword : t.kind = .atKeyword
      · rw [if_pos hkeyword]
        refine ends_bind (ends_atRule heof hfront ?_ hc₂ hblock hkeyword hnext)
        exact fun m hm => ih m (by omega)
      · rw [if_neg hkeyword]
        refine ends_bind (ends_ruleBlock heof hfront hc₂ ?_ hnext)
        have hgap : ¬IsGap t := by
          rintro (h | h)
          · exact kind_head_skipSpace hskip h
          · exact hsemi h
        exact Grammar.step_start hblock hgap hrbrace hkeyword

end Lists

/-! ### The whole list -/

/-- The tokens up to the first `eof` token, which is the last of them. -/
def upToEof : List Token → List Token
  | [] => []
  | t :: ts => if t.kind = .eof then [t] else t :: upToEof ts

/-- A list with an `eof` token is a list without such a token, its first one, and others behind
that. -/
theorem exists_first_eof {ts : List Token} {last : Token} (hlast : last ∈ ts)
    (hkind : last.kind = .eof) :
    ∃ front eof tail, ts = front ++ eof :: tail ∧ (∀ u ∈ front, u.kind ≠ .eof) ∧
      eof.kind = .eof ∧ upToEof ts = front ++ [eof] := by
  induction ts with
  | nil => cases hlast
  | cons t ts ih =>
      by_cases ht : t.kind = .eof
      · exact ⟨[], t, ts, rfl, by simp, ht, by simp [upToEof, ht]⟩
      · rcases List.mem_cons.1 hlast with rfl | hmem
        · exact absurd hkind ht
        · obtain ⟨front, eof, tail, rfl, hfront, heof, hcut⟩ := ih hmem
          refine ⟨t :: front, eof, tail, rfl, ?_, heof, ?_⟩
          · simpa [ht] using hfront
          · rw [upToEof, if_neg ht, hcut]
            rfl

/-- The parser reads what stands in front of the first `eof` token and uses that token for its
errors. -/
theorem parse_eq_run {front tail : List Token} {eof last : Token} (heof : eof.kind = .eof)
    (hfront : ∀ u ∈ front, u.kind ≠ .eof) (hlast : (front ++ eof :: tail).getLast? = some last)
    (hkind : last.kind = .eof) : Stylesheet.parse (front ++ eof :: tail) = run eof {} front := by
  have hfind : (front ++ eof :: tail).find? (·.kind = .eof) = some eof := by
    rw [List.find?_append, List.find?_eq_none.2 (by simpa using hfront)]
    simp [heof]
  have htake : (front ++ eof :: tail).takeWhile (·.kind ≠ .eof) = front := by
    rw [List.takeWhile_append_of_pos (by simpa using hfront)]
    simp [heof]
  rw [Stylesheet.parse, hlast, hfind]
  dsimp only
  rw [if_pos hkind, htake]

/-- The descent has come to the outcome of the parser. -/
structure Agrees (ts : List Token) (result : Except Halt Stylesheet) (c : Cursor) : Prop where
  result_eq : result = (Stylesheet.parse ts).result.mapError .fault
  dropped_eq : c.dropped = (Stylesheet.parse ts).dropped

/-- A descent that agrees with the parser halts with faults of the parser only: it neither misses
the list nor tries to make a rule without selectors. -/
theorem Agrees.result_ne {ts : List Token} {result : Except Halt Stylesheet} {c : Cursor}
    (h : Agrees ts result c) {halt : Halt} (hhalt : ∀ e, halt ≠ .fault e) :
    result ≠ .error halt := by
  intro he
  have hresult := h.result_eq
  rw [he] at hresult
  cases hparse : (Stylesheet.parse ts).result with
  | ok sheet =>
      rw [hparse] at hresult
      cases hresult
  | error e =>
      rw [hparse] at hresult
      cases hresult
      exact hhalt e rfl

/-- On a list that ends with an `eof` token the descent ends, with the outcome of the parser. The
cursor has stayed in front of the first `eof` token or on it, and so have all looks at tokens. -/
theorem exists_parse {ts : List Token} {last : Token} (hlast : ts.getLast? = some last)
    (hkind : last.kind = .eof) :
    ∃ result c, parse ts = some (result, c) ∧ Agrees ts result c ∧
      c.place < (upToEof ts).length ∧ ∀ i ∈ c.reads, i < (upToEof ts).length := by
  obtain ⟨front, eof, tail, rfl, hfront, heof, hcut⟩ :=
    exists_first_eof (List.mem_of_getLast? hlast) hkind
  have hstart : ({} : Cursor).At front front ({} : State).lists.length ({} : State).dropped :=
    ⟨⟨[], rfl, rfl⟩, by simp, rfl, rfl⟩
  -- from the first state on, with no list open, the readers' lemma is about the whole list
  have hends : Ends (Tokens.ruleList (front ++ eof :: tail) none []) {}
      (fun nodes c => run eof {} front = ⟨c.dropped, .ok nodes⟩ ∧ c.place ≤ front.length ∧
        ∀ i ∈ c.reads, i ≤ front.length) (Fails front (run eof {} front)) := by
    refine readsLists heof hfront _ front {} {} _ rfl hstart rfl ?_
    intro nodes rest' dr c hc hreturn
    refine ⟨?_, ?_, hc.reads⟩
    · rw [hc.dropped]
      exact hreturn
    · obtain ⟨before, rfl, hplace⟩ := hc.place
      simp [hplace]
  have hparse : parse (front ++ eof :: tail) =
      start (Tokens.ruleList (front ++ eof :: tail) none []) {} := by
    rw [parse, hlast]
    dsimp only
    rw [if_pos hkind]
  have hrun := parse_eq_run heof hfront hlast hkind
  rw [Ends] at hends
  rw [hparse, hcut]
  simp only [List.length_append, List.length_singleton, Nat.lt_succ_iff]
  -- a descent that did not end would have no outcome here
  cases hout : start (Tokens.ruleList (front ++ eof :: tail) none []) {} with
  | none =>
      rw [hout] at hends
      exact hends.elim
  | some out =>
      obtain ⟨result, c⟩ := out
      rw [hout] at hends
      cases result with
      | ok nodes =>
          obtain ⟨hnodes, hplace, hreads⟩ := hends
          exact ⟨_, c, rfl, ⟨by rw [hrun, hnodes]; rfl, by rw [hrun, hnodes]⟩, hplace, hreads⟩
      | error h =>
          obtain ⟨e, rfl, he, hplace, hreads⟩ := hends
          exact ⟨_, c, rfl, ⟨by rw [hrun, he]; rfl, by rw [hrun, he]⟩, hplace, hreads⟩

/-- Without an `eof` token at its end a list is refused before any of its tokens is looked at, by
the descent and by the parser alike. -/
theorem parse_of_missingEnd {ts : List Token}
    (h : ¬∃ last, ts.getLast? = some last ∧ last.kind = .eof) :
    parse ts = some (.error (.fault ⟨.missingEnd, none⟩), {}) ∧
      Stylesheet.parse ts = ⟨[], .error ⟨.missingEnd, none⟩⟩ := by
  unfold parse Stylesheet.parse
  cases hlast : ts.getLast? with
  | none => exact ⟨rfl, rfl⟩
  | some last =>
      have hkind : last.kind ≠ .eof := fun hk => h ⟨last, hlast, hk⟩
      dsimp only
      rw [if_neg hkind]
      -- the parser also looks for an `eof` token elsewhere, but without one at the end it refuses
      -- as well
      cases ts.find? (·.kind = .eof) with
      | none => exact ⟨rfl, rfl⟩
      | some eof =>
          dsimp only
          rw [if_neg hkind]
          exact ⟨rfl, rfl⟩

/-- **The cursor stays inside the list and all loops end.** On a list that ends with an `eof` token
the descent comes to a tree or to a fault, which is what the parser gives; no look at a token misses
the list. The cursor never passes the first `eof` token, no token behind that one is looked at, and
the outcome, with the declarations dropped, is the same without them. -/
theorem parse_upToEof (ts : List Token) (last : Token) (hlast : ts.getLast? = some last)
    (hkind : last.kind = .eof) :
    ∃ result c c', parse ts = some (result, c) ∧ Agrees ts result c ∧
      (∀ place, result ≠ .error (.outOfRange place)) ∧ c.place < (upToEof ts).length ∧
      (∀ i ∈ c.reads, i < (upToEof ts).length) ∧ parse (upToEof ts) = some (result, c') ∧
      c'.dropped = c.dropped ∧ Stylesheet.parse (upToEof ts) = Stylesheet.parse ts := by
  obtain ⟨result, c, hparse, hagrees, hplace, hreads⟩ := exists_parse hlast hkind
  have hsame : Stylesheet.parse (upToEof ts) = Stylesheet.parse ts ∧
      ∃ eof, (upToEof ts).getLast? = some eof ∧ eof.kind = .eof := by
    obtain ⟨front, eof, tail, rfl, hfront, heof, hcut⟩ :=
      exists_first_eof (List.mem_of_getLast? hlast) hkind
    rw [hcut, parse_eq_run heof hfront hlast hkind]
    exact ⟨parse_eq_run heof hfront List.getLast?_concat heof, eof, List.getLast?_concat, heof⟩
  -- both readings agree with the parser, which gives the same on both lists
  obtain ⟨hsame, eof, hend, heof⟩ := hsame
  obtain ⟨result', c', hparse', hagrees', -, -⟩ := exists_parse hend heof
  obtain rfl : result' = result := by rw [hagrees.result_eq, hagrees'.result_eq, hsame]
  refine ⟨result', c, c', hparse, hagrees, ?_, hplace, hreads, hparse', ?_, hsame⟩
  · exact fun place => hagrees.result_ne (by simp)
  · rw [hagrees'.dropped_eq, hagrees.dropped_eq, hsame]

/-- The tokens of `a{`, of the end of a source, of `}` and of another end. -/
def lateBrace : List Token :=
  [⟨.ident, "a", .start⟩, ⟨.lbrace, "\x7b", .start⟩, ⟨.eof, [], .start⟩,
    ⟨.rbrace, "\x7d", .start⟩, ⟨.eof, [], .start⟩]

/-- The brace behind the first end is not seen, so the block is not closed: only the first three
places of the list are looked at. -/
theorem parse_upToEof_lateBrace :
    ∃ c, parse lateBrace =
        some (.error (.fault (ParseFault.missingBrace.atToken ⟨.lbrace, "\x7b", .start⟩)), c) ∧
      ∀ i ∈ c.reads, i < 3 := by
  obtain ⟨result, c, c', hparse, hagrees, -, -, hreads, -⟩ := parse_upToEof lateBrace _ rfl rfl
  refine ⟨c, ?_, hreads⟩
  have hrun : Stylesheet.parse lateBrace = run ⟨.eof, [], .start⟩
      (({} : State).openBlock ⟨.lbrace, "\x7b", .start⟩ (.rule ["a"])) [] := run_cons_of_step rfl
  rw [hparse, hagrees.result_eq, hrun, run]
  rfl

end CssHints.Descent
