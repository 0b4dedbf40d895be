import CssHints.Stylesheet.AtRule
import CssHints.Stylesheet.Basic
import CssHints.Stylesheet.Run
import CssHints.Stylesheet.Selector

/-!
# `CssHints.Stylesheet.Parser`: the tree of a list of tokens

The parser reads one item at a time: a gap, a closing brace, the head of an at-rule or a rule, or
a declaration. Its state is what is open: the at-rules that hold rules, innermost first, each with
the nodes that stand before it in its list; the nodes read so far in the innermost list; and the
block of declarations, if one is being read. `step` reads one item, and `run` reads all.

A list of tokens must end with an `eof` token, and only what stands before its first `eof` token
is read. A declaration without a value is dropped and put on record, also when the parser fails
later.
-/

set_option autoImplicit false

namespace CssHints

/-- The record of a declaration that was dropped because it has no value. -/
structure Dropped where
  property : Text
  line : Int
  deriving DecidableEq, Repr

namespace Parser

/-- An at-rule whose block of rules is open. -/
structure OpenList where
  /-- The brace that opened the block. -/
  brace : Token
  head : AtHead
  /-- The nodes before the at-rule in the list around it. -/
  before : List Node
  deriving DecidableEq, Repr

/-- What a block of declarations belongs to. -/
inductive Owner
  | rule (selectors : List Text)
  | atRule (head : AtHead)
  deriving DecidableEq, Repr

/-- An open block of declarations. -/
structure OpenBlock where
  /-- The brace that opened the block. -/
  brace : Token
  owner : Owner
  decls : List Declaration
  deriving DecidableEq, Repr

/-- What is open, and what has been read. -/
structure State where
  /-- The open at-rules that hold rules, innermost first. -/
  lists : List OpenList := []
  /-- The nodes of the innermost list. -/
  nodes : List Node := []
  /-- The open block of declarations. -/
  block : Option OpenBlock := none
  dropped : List Dropped := []
  deriving DecidableEq, Repr

namespace State

/-- The state with a further node in the innermost list. -/
def addNode (st : State) (n : Node) : State := { st with nodes := st.nodes ++ [n] }

/-- The state in the block of rules that `brace` opens. -/
def openList (st : State) (brace : Token) (head : AtHead) : State :=
  { st with lists := ⟨brace, head, st.nodes⟩ :: st.lists, nodes := [] }

/-- The state in the block of declarations that `brace` opens. -/
def openBlock (st : State) (brace : Token) (owner : Owner) : State :=
  { st with block := some ⟨brace, owner, []⟩ }

/-- The state behind the block of declarations `b`. -/
def closeBlock (st : State) (b : OpenBlock) : State :=
  let node := match b.owner with
    | .rule selectors => .rule ⟨selectors, b.decls⟩
    | .atRule head => .block head [] b.decls
  { st with block := none, nodes := st.nodes ++ [node] }

/-- The nodes of the whole list, if nothing is open. -/
def finish (st : State) : Except ParseError (List Node) :=
  match st.block, st.lists with
  | some b, _ => .error (ParseFault.missingBrace.atToken b.brace)
  | none, o :: _ => .error (ParseFault.missingBrace.atToken o.brace)
  | none, [] => .ok st.nodes

end State

/-- Reads the head of an at-rule, up to its semicolon or the start of its block. -/
def readAtRule (st : State) (keyword : Token) (ts : List Token) :
    Except ParseError (State × List Token) :=
  let name := keyword.value.drop 1
  let base := AtRule.baseName name
  match Token.takeRun .prelude [] ts with
  | .error e => .error e
  | .ok (run, rest) =>
    let head : AtHead := ⟨name, Token.text run⟩
    -- the name is judged only behind the prelude, so a fault in the prelude comes first
    if !AtRule.takesBlock base && !AtRule.isStatement base then
      .error ((ParseFault.unrecognizedAtRule name).atToken keyword)
    else match rest with
      | [] => .error ((ParseFault.unterminatedAtRule name).atToken keyword)
      | t :: rest =>
        if t.kind = .semicolon then
          if AtRule.isStatement base then .ok (st.addNode (.statement head), rest)
          else .error ((ParseFault.blockRequired name).atToken t)
        else if t.kind ≠ .lbrace then
          .error ((ParseFault.unterminatedAtRule name).atToken keyword)
        else if !AtRule.takesBlock base then .error ((ParseFault.blockRefused name).atToken t)
        else if AtRule.holdsRules base then
          if AtRule.maxDepth ≤ st.lists.length then .error (ParseFault.tooDeep.atToken keyword)
          else .ok (st.openList t head, rest)
        else .ok (st.openBlock t (.atRule head), rest)

/-- Reads the selectors of a rule, up to the start of its block. The token `eof` stands behind
all others. -/
def readRule (eof : Token) (st : State) (start : Token) (ts : List Token) :
    Except ParseError (State × List Token) :=
  match Token.takeRun .prelude [] (start :: ts) with
  | .error e => .error e
  | .ok (_, []) => .error (ParseFault.missingBlock.atToken eof)
  | .ok (run, t :: rest) =>
    if t.kind ≠ .lbrace then .error (ParseFault.missingBlock.atToken t)
    else if Token.splitSelectors run = [] then .error (ParseFault.missingSelector.atToken start)
    else .ok (st.openBlock t (.rule (Token.splitSelectors run)), rest)

/-- The tokens without the gaps at their start. -/
def skipSpace (ts : List Token) : List Token := ts.dropWhile (·.kind = .whitespace)

/-- The tokens without the gaps at their end. -/
def skipSpaceRight (ts : List Token) : List Token := (skipSpace ts.reverse).reverse

/-- The text of a value, and whether a mark of importance stood at its end. -/
def splitImportant (ts : List Token) : Text × Bool :=
  let ts := skipSpaceRight (skipSpace ts)
  match ts.reverse with
  | [] => (Token.text ts, false)
  | last :: before =>
    if last.kind = .ident ∧ Text.lower last.value = "important".toList then
      -- gaps may stand between the exclamation mark and the word
      match (skipSpaceRight (skipSpace before.reverse)).reverse with
      | [] => (Token.text ts, false)
      | mark :: value =>
        if mark.kind = .delim ∧ mark.value = ['!'] then (Token.text value.reverse, true)
        else (Token.text ts, false)
    else (Token.text ts, false)

/-- The tokens behind a semicolon, if they start with one. -/
def skipSemicolon : List Token → List Token
  | [] => []
  | t :: ts => if t.kind = .semicolon then ts else t :: ts

/-- Reads a declaration of the block `b`, from behind its property to behind its semicolon. -/
def readDeclaration (eof : Token) (st : State) (b : OpenBlock) (property : Token)
    (ts : List Token) : Except ParseError (State × List Token) :=
  match skipSpace ts with
  | [] => .error ((ParseFault.missingColon property.value).atToken eof)
  | t :: ts =>
    if t.kind ≠ .colon then .error ((ParseFault.missingColon property.value).atToken t)
    else match Token.takeRun (.value property.value) [] ts with
      | .error e => .error e
      | .ok (run, rest) =>
        let value := splitImportant run
        -- without a value the declaration is dropped, put on record, and no fault
        if value.1 = [] then
          .ok ({ st with dropped := st.dropped ++ [⟨property.value, property.loc.line⟩] },
            skipSemicolon rest)
        else
          let decl : Declaration := ⟨property.value, value.1, value.2⟩
          .ok ({ st with block := some { b with decls := b.decls ++ [decl] } },
            skipSemicolon rest)

/-- Reads one item that starts with the token `t`; `ts` follow it. -/
def step (eof : Token) (st : State) (t : Token) (ts : List Token) :
    Except ParseError (State × List Token) :=
  if t.kind = .whitespace ∨ t.kind = .semicolon then .ok (st, ts)
  else match st.block with
    | some b =>
      if t.kind = .rbrace then .ok (st.closeBlock b, ts)
      else if t.kind = .ident then readDeclaration eof st b t ts
      else .error ((ParseFault.missingProperty t.value).atToken t)
    | none =>
      if t.kind = .rbrace then
        match st.lists with
        | [] => .error (ParseFault.unmatchedBrace.atToken t)
        | o :: os =>
          .ok ({ st with lists := os, nodes := o.before ++ [.block o.head st.nodes []] }, ts)
      else if t.kind = .atKeyword then readAtRule st t ts
      -- whatever else comes first starts the selectors of a rule, also a token that no selector has
      else readRule eof st t ts

/-! ### Each item takes at least one token -/

/-- Gaps are skipped at the front only. -/
theorem skipSpace_suffix (ts : List Token) : skipSpace ts <:+ ts := List.dropWhile_suffix _

/-- At most one token is skipped, at the front. -/
theorem skipSemicolon_suffix (ts : List Token) : skipSemicolon ts <:+ ts := by
  fun_cases skipSemicolon ts
  · exact List.suffix_refl _
  · exact List.suffix_cons _ _
  · exact List.suffix_refl _

/-- What is left behind the head of an at-rule is an end of the tokens behind its keyword. The run
of the parser ends because of this and the lemmas like it. -/
theorem readAtRule_suffix {st st' : State} {keyword : Token} {ts rest : List Token}
    (h : readAtRule st keyword ts = .ok (st', rest)) : rest <:+ ts := by
  unfold readAtRule at h
  dsimp only at h
  split at h
  · cases h
  rename_i run rest₁ hrun
  have happ := Token.takeRun_append hrun
  split at h
  · cases h
  split at h
  · cases h
  rename_i t rest₂
  -- all branches that give a state leave the tokens behind the one that ends the head
  have hsuf : rest₂ <:+ ts := ⟨run ++ [t], by simpa using happ⟩
  split at h
  · split at h
    · cases h
      exact hsuf
    · cases h
  split at h
  · cases h
  split at h
  · cases h
  split at h
  · split at h
    · cases h
    · cases h
      exact hsuf
  · cases h
    exact hsuf

/-- What is left behind the selectors of a rule is an end of the tokens behind the first one. The
first token belongs to the selectors or is the brace itself, so it is always taken. -/
theorem readRule_suffix {eof start : Token} {st st' : State} {ts rest : List Token}
    (h : readRule eof st start ts = .ok (st', rest)) : rest <:+ ts := by
  unfold readRule at h
  split at h
  · cases h
  · cases h
  rename_i run t rest₁ hrun
  have happ := Token.takeRun_append hrun
  split at h
  · cases h
  split at h
  · cases h
  cases h
  -- the first token of the rule is not among `ts`, so the run behind it counts
  cases run with
  | nil =>
    cases happ
    exact List.suffix_refl _
  | cons u run =>
    simp only [List.cons_append, List.cons.injEq] at happ
    exact ⟨run ++ [t], by simpa using happ.2⟩

/-- What is left behind a declaration is an end of the tokens behind its property, and a semicolon
behind the value is skipped. -/
theorem readDeclaration_suffix {eof property : Token} {st st' : State} {b : OpenBlock}
    {ts rest : List Token} (h : readDeclaration eof st b property ts = .ok (st', rest)) :
    rest <:+ ts := by
  unfold readDeclaration at h
  split at h
  · cases h
  rename_i t ts₁ hts
  have hskip : t :: ts₁ <:+ ts := hts ▸ skipSpace_suffix ts
  split at h
  · cases h
  split at h
  · cases h
  rename_i run rest₁ hrun
  have hrest : rest₁ <:+ ts := by
    have hr : rest₁ <:+ ts₁ := ⟨run, Token.takeRun_append hrun⟩
    exact (hr.trans (List.suffix_cons t ts₁)).trans hskip
  dsimp only at h
  split at h
  · cases h
    exact (skipSemicolon_suffix _).trans hrest
  · cases h
    exact (skipSemicolon_suffix _).trans hrest

/-- What is left behind an item is an end of the tokens that follow its first one. So every step
takes at least one token, and `run` ends. -/
theorem step_suffix {eof t : Token} {st st' : State} {ts rest : List Token}
    (h : step eof st t ts = .ok (st', rest)) : rest <:+ ts := by
  unfold step at h
  split at h
  · cases h
    exact List.suffix_refl _
  split at h
  · -- in a block of declarations
    split at h
    · cases h
      exact List.suffix_refl _
    split at h
    · exact readDeclaration_suffix h
    · cases h
  · -- in a list of rules
    split at h
    · split at h
      · cases h
      · cases h
        exact List.suffix_refl _
    split at h
    · exact readAtRule_suffix h
    · exact readRule_suffix h

/-! ### The whole list -/

/-- What a list of tokens gives: the declarations dropped on the way, and the tree or the error
that ended it. -/
structure Outcome where
  dropped : List Dropped
  result : Except ParseError Stylesheet

/-- Reads items until the tokens end. -/
def run (eof : Token) (st : State) : List Token → Outcome
  | [] => ⟨st.dropped, st.finish⟩
  | t :: ts =>
    match _h : step eof st t ts with
    | .error e => ⟨st.dropped, .error e⟩
    | .ok (st', rest) => run eof st' rest
termination_by ts => ts.length
decreasing_by
  have := (step_suffix _h).length_le
  simp only [List.length_cons]
  omega

end Parser

namespace Stylesheet

/-- The tree of a list of tokens. -/
def parse (ts : List Token) : Parser.Outcome :=
  match ts.getLast?, ts.find? (·.kind = .eof) with
  | some last, some eof =>
    if last.kind = .eof then Parser.run eof {} (ts.takeWhile (·.kind ≠ .eof))
    else ⟨[], .error ⟨.missingEnd, none⟩⟩
  | _, _ => ⟨[], .error ⟨.missingEnd, none⟩⟩

/-- What a source gives: the declarations dropped on the way, and the tree or an error. -/
structure Reading where
  dropped : List Dropped
  result : Except SourceError Stylesheet

/-- The tree of a source. -/
def read (source : Text) : Reading :=
  match Token.tokenize source with
  | .error e => ⟨[], .error (.lex e)⟩
  | .ok ts =>
    let outcome := parse ts
    ⟨outcome.dropped, outcome.result.mapError .parse⟩

/-- The tree of a source, or the error. -/
def ofSource (source : Text) : Except SourceError Stylesheet := (read source).result

end Stylesheet

end CssHints
