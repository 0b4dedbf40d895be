import CssHints.Stylesheet.Parser

/-!
# `CssHints.Proofs.Descent`: the parser as a cursor that moves along the tokens

The parser (`CssHints.Stylesheet.Parser`) cuts the tokens at their first `eof` token and then takes
items off the front, with a stack of open blocks. Here the same language is read in place: a cursor
points into the whole list, every look at a token is a look-up that can miss the list, a block is
read by a call that returns behind its closing brace, and a counter holds the depth of the calls.
Nothing in the definitions bounds the loops or keeps the cursor inside the list.

* `Reader`: a reading with a cursor. It may end with a value or with a `Halt`, and it may not end
  at all. The cursor has a record of the places that were looked at.
* `Tokens`: the list, with the readers of the language as its functions (`Tokens.ruleList`).
* `Ends`: the reading ends, and what comes of it has a given property. `ends_bind` and its
  companions compute it along a reading.
* `Cursor.At`: the cursor has not passed the first `eof` token, nor has it looked behind it, and the
  given tokens are left in front of that token.

The lemmas about the small readers say where the cursor comes to rest (`ends_peek`,
`ends_skipSpace`, `ends_collect`). `CssHints.Proofs.CursorRange` has those about blocks and lists.
-/

set_option autoImplicit false

namespace CssHints.Descent

open Token (takeRun trackGroups splitSelectors unlessOpen)

/-! ### Reading with a cursor -/

/-- How a reading stops without a result. -/
inductive Halt
  | fault (e : ParseError)
  /-- A token was asked for at a place behind the list. -/
  | outOfRange (place : Nat)
  /-- A rule was to be made without selectors. -/
  | emptyRule
  deriving DecidableEq, Repr

/-- What a reading keeps up to date. -/
structure Cursor where
  /-- The place of the next token. -/
  place : Nat := 0
  /-- The number of at-rules that hold rules around it. -/
  depth : Nat := 0
  /-- The places that were looked at, the last one first. -/
  reads : List Nat := []
  dropped : List Dropped := []
  deriving DecidableEq, Repr

/-- A reading. What the cursor has recorded outlasts a halt. A reading that does not end has no
outcome. -/
abbrev Reader := ExceptT Halt (StateT Cursor Option)

/-- The list that the cursor points into. The readers that look at it are its functions. Where they
call themselves they do so by a pipe, which leaves no source position in the fixed point. -/
abbrev Tokens := List Token

/-- Stops with a fault at a token. -/
def fail {α : Type} (fault : ParseFault) (t : Token) : Reader α := throw (.fault (fault.atToken t))

/-- The token that a look-up at the place has found, if it has found one. -/
def found (place : Nat) : Option Token → Reader Token
  | some t => return t
  | none => throw (.outOfRange place)

/-- The token at the cursor. -/
def Tokens.peek (ts : Tokens) : Reader Token := do
  let c ← get
  set { c with reads := c.place :: c.reads }
  found c.place ts[c.place]?

/-- Moves the cursor by one token, whatever that is. -/
def move : Reader Unit := modify fun c => { c with place := c.place + 1 }

/-- The token at the cursor, which moves on unless it is an `eof` token. -/
def Tokens.advance (ts : Tokens) : Reader Token := do
  let t ← ts.peek
  if t.kind ≠ .eof then move
  return t

/-- Moves the cursor over gaps. -/
def Tokens.skipSpace (ts : Tokens) : Reader Unit := do
  let t ← ts.peek
  if t.kind = .whitespace then
    move
    ts |>.skipSpace
partial_fixpoint

/-- Moves the cursor over one semicolon, if it is there. -/
def Tokens.skipSemicolon (ts : Tokens) : Reader Unit := do
  let t ← ts.peek
  if t.kind = .semicolon then
    let _ ← ts.advance

/-- Stops if a group is open. -/
def checkClosed (place : RunPlace) : List Token → Reader Unit
  | [] => return
  | g :: _ => fail (.unclosedGroup g.value place) g

/-- The tokens of a prelude or of a value, behind those of it that are `collected`; `groups` are
open. -/
def Tokens.collect (ts : Tokens) (place : RunPlace) (collected groups : List Token) :
    Reader (List Token) := do
  let t ← ts.peek
  if t.kind = .eof ∨ t.kind = .rbrace then
    checkClosed place groups
    return collected
  else if t.kind = .semicolon ∧ groups = [] then return collected
  else if t.kind = .lbrace then
    match place with
    | .prelude =>
      checkClosed place groups
      return collected
    | .value property => fail (.blockInValue property) t
  else
    let t' ← ts.advance
    ts |>.collect place (collected ++ [t']) (trackGroups groups t)
partial_fixpoint

/-- A declaration with its semicolon. A declaration without a value is dropped. -/
def Tokens.declaration (ts : Tokens) : Reader (List Declaration) := do
  let property ← ts.advance
  ts.skipSpace
  let colon ← ts.peek
  if colon.kind ≠ .colon then fail (.missingColon property.value) colon
  else
    let _ ← ts.advance
    let run ← ts.collect (.value property.value) [] []
    ts.skipSemicolon
    let value := Parser.splitImportant run
    if value.1 = [] then
      modify fun c => { c with dropped := c.dropped ++ [⟨property.value, property.loc.line⟩] }
      return []
    else return [⟨property.value, value.1, value.2⟩]

/-- The declarations of a block up to its closing brace, behind `decls`. -/
def Tokens.declarations (ts : Tokens) (opener : Token) (decls : List Declaration) :
    Reader (List Declaration) := do
  ts.skipSpace
  let t ← ts.peek
  if t.kind = .eof then fail .missingBrace opener
  else if t.kind = .rbrace then
    let _ ← ts.advance
    return decls
  else if t.kind = .semicolon then
    let _ ← ts.advance
    ts |>.declarations opener decls
  else if t.kind ≠ .ident then fail (.missingProperty t.value) t
  else
    let ds ← ts.declaration
    ts |>.declarations opener (decls ++ ds)
partial_fixpoint

/-- Makes a rule, which must have selectors. -/
def makeRule (r : Rule) : Reader Node :=
  match r.make? with
  | some r => return .rule r
  | none => throw .emptyRule

/-- A rule. -/
def Tokens.ruleBlock (ts : Tokens) : Reader Node := do
  let start ← ts.peek
  let pre ← ts.collect .prelude [] []
  let opener ← ts.peek
  if opener.kind ≠ .lbrace then fail .missingBlock opener
  else if splitSelectors pre = [] then fail .missingSelector start
  else
    let _ ← ts.advance
    let decls ← ts.declarations opener []
    makeRule ⟨splitSelectors pre, decls⟩

mutual

/-- Rules and at-rules behind `nodes`, up to the brace that closes `opener`, or up to the end if
there is none. -/
def Tokens.ruleList (ts : Tokens) (opener : Option Token) (nodes : List Node) :
    Reader (List Node) := do
  ts.skipSpace
  let t ← ts.peek
  if t.kind = .eof then
    match opener with
    | some brace => fail .missingBrace brace
    | none => return nodes
  else if t.kind = .rbrace then
    match opener with
    | none => fail .unmatchedBrace t
    | some _ =>
      let _ ← ts.advance
      return nodes
  else if t.kind = .semicolon then
    let _ ← ts.advance
    ts |>.ruleList opener nodes
  else if t.kind = .atKeyword then
    let n ← ts |>.atRule
    ts |>.ruleList opener (nodes ++ [n])
  else
    let n ← ts.ruleBlock
    ts |>.ruleList opener (nodes ++ [n])
partial_fixpoint

/-- An at-rule. -/
def Tokens.atRule (ts : Tokens) : Reader Node := do
  let keyword ← ts.advance
  let name := keyword.value.drop 1
  let base := AtRule.baseName name
  let pre ← ts.collect .prelude [] []
  let t ← ts.peek
  if !AtRule.takesBlock base && !AtRule.isStatement base then
    fail (.unrecognizedAtRule name) keyword
  else if t.kind = .semicolon then
    if AtRule.isStatement base then
      let _ ← ts.advance
      return .statement ⟨name, Token.text pre⟩
    else fail (.blockRequired name) t
  else if t.kind ≠ .lbrace then fail (.unterminatedAtRule name) keyword
  else if !AtRule.takesBlock base then fail (.blockRefused name) t
  else
    let _ ← ts.advance
    ts |>.atBlock keyword ⟨name, Token.text pre⟩ t
partial_fixpoint

/-- The block of an at-rule with the given head, behind the brace that opens it. -/
def Tokens.atBlock (ts : Tokens) (keyword : Token) (head : AtHead) (opener : Token) :
    Reader Node := do
  if AtRule.holdsRules (AtRule.baseName head.name) then
    modify fun c => { c with depth := c.depth + 1 }
    if AtRule.maxDepth < (← get).depth then fail .tooDeep keyword
    else
      let children ← ts |>.ruleList (some opener) []
      modify fun c => { c with depth := c.depth - 1 }
      return .block head children []
  else
    let decls ← ts.declarations opener []
    return .block head [] decls
partial_fixpoint

end

/-- The outcome of a reading from the cursor `c`. -/
def start {α : Type} (x : Reader α) (c : Cursor) : Option (Except Halt α × Cursor) := x.run.run c

/-- The tree of a list of tokens. The list must end with an `eof` token. -/
def parse (ts : List Token) : Option (Except Halt Stylesheet × Cursor) :=
  match ts.getLast? with
  | some last =>
    if last.kind = .eof then start (Tokens.ruleList ts none []) {}
    else some (.error (.fault ⟨.missingEnd, none⟩), {})
  | none => some (.error (.fault ⟨.missingEnd, none⟩), {})

/-! ### Readings that end -/

/-- The reading ends, with a value and a cursor that satisfy `ok`, or halted and with a cursor that
satisfy `err`. -/
def Ends {α : Type} (x : Reader α) (c : Cursor) (ok : α → Cursor → Prop)
    (err : Halt → Cursor → Prop) : Prop :=
  match start x c with
  | some (.ok a, c') => ok a c'
  | some (.error h, c') => err h c'
  | none => False

section Calculus

variable {α β : Type} {c : Cursor} {ok : α → Cursor → Prop} {err : Halt → Cursor → Prop}

/-- A reading that only returns a value ends where it starts. -/
theorem ends_pure {a : α} (h : ok a c) : Ends (pure a) c ok err := h

/-- A reading that stops with a fault ends there, and leaves the cursor as it is. -/
theorem ends_fail {fault : ParseFault} {t : Token} (h : err (.fault (fault.atToken t)) c) :
    Ends (fail fault t) c ok err := h

/-- Changing the cursor ends, with the changed cursor. -/
theorem ends_modify {f : Cursor → Cursor} {ok : Unit → Cursor → Prop} (h : ok () (f c)) :
    Ends (modify f) c ok err := h

/-- Looking at the cursor itself ends, and changes nothing. -/
theorem ends_get {ok : Cursor → Cursor → Prop} (h : ok c c) : Ends get c ok err := h

/-- What a reading does with the outcome of the one before it. -/
def resume (f : β → Reader α) :
    Except Halt β × Cursor → Option (Except Halt α × Cursor)
  | (.ok b, c) => start (f b) c
  | (.error h, c) => some (.error h, c)

/-- Two readings one after the other: the second one starts with the value and the cursor that the
first one has left, and is not run at all if the first one has halted or does not end. -/
theorem start_bind (x : Reader β) (f : β → Reader α) (c : Cursor) :
    start (x >>= f) c = (start x c).bind (resume f) := by
  show (start x c).bind _ = _
  -- the two continuations are the same function, by cases on the outcome that they are given
  congr 1
  funext ⟨r, c'⟩
  cases r <;> rfl

/-- Two readings one after the other end if the first one does and the second one does from there. A
halt of the first one is a halt of both, so it must satisfy the same condition. -/
theorem ends_bind {x : Reader β} {f : β → Reader α}
    (h : Ends x c (fun b c' => Ends (f b) c' ok err) err) :
    Ends (x >>= f) c ok err := by
  unfold Ends at h ⊢
  rw [start_bind]
  cases hx : start x c with
  -- the first reading does not end, which `h` excludes
  | none =>
      rw [hx] at h
      exact h
  | some out =>
      obtain ⟨r, c'⟩ := out
      rw [hx] at h
      cases r <;> exact h

end Calculus

/-! ### Where the cursor stands -/

/-- The cursor has not passed the tokens `front`, behind which an `eof` token stands, and has not
looked farther than that token. The tokens `rest` of them are left, `d` at-rules are open, and the
declarations in `dr` have been dropped. -/
structure Cursor.At (front rest : List Token) (d : Nat) (dr : List Dropped) (c : Cursor) :
    Prop where
  place : ∃ before, front = before ++ rest ∧ c.place = before.length
  reads : ∀ i ∈ c.reads, i ≤ front.length
  depth : c.depth = d
  dropped : c.dropped = dr

section Places

variable {front tail rest : List Token} {eof t : Token} {d : Nat} {dr : List Dropped} {c : Cursor}
  {err : Halt → Cursor → Prop}

/-- A token that is left in front of the first `eof` token is no `eof` token. -/
theorem Cursor.At.kind_ne_eof (hfront : ∀ u ∈ front, u.kind ≠ .eof)
    (hc : c.At front (t :: rest) d dr) : t.kind ≠ .eof := by
  obtain ⟨before, rfl, -⟩ := hc.place
  exact hfront t (by simp)

/-- Moving over a token that is left keeps the cursor in front of the first `eof` token, or on
it. -/
theorem Cursor.At.move (hc : c.At front (t :: rest) d dr) :
    ({ c with place := c.place + 1 } : Cursor).At front rest d dr := by
  obtain ⟨before, hfront, hplace⟩ := hc.place
  exact ⟨⟨before ++ [t], by simp [hfront], by simp [hplace]⟩, hc.reads, hc.depth, hc.dropped⟩

/-- Entering the block of an at-rule changes the counter only. -/
theorem Cursor.At.enter (hc : c.At front rest d dr) :
    ({ c with depth := c.depth + 1 } : Cursor).At front rest (d + 1) dr :=
  ⟨hc.place, hc.reads, by rw [hc.depth], hc.dropped⟩

/-- Leaving the block of an at-rule sets the counter back to what it was when the block was
entered. -/
theorem Cursor.At.leave (hc : c.At front rest (d + 1) dr) :
    ({ c with depth := c.depth - 1 } : Cursor).At front rest d dr :=
  ⟨hc.place, hc.reads, by rw [hc.depth, Nat.add_sub_cancel], hc.dropped⟩

/-- A look at the token under the cursor is not behind the first `eof` token, since the cursor is
not. -/
theorem Cursor.At.look (hc : c.At front rest d dr) :
    ({ c with reads := c.place :: c.reads } : Cursor).At front rest d dr := by
  refine ⟨hc.place, ?_, hc.depth, hc.dropped⟩
  obtain ⟨before, hfront, hplace⟩ := hc.place
  intro i hi
  rcases List.mem_cons.1 hi with rfl | hi
  · rw [hplace, hfront, List.length_append]
    omega
  · exact hc.reads i hi

/-- A look at a place inside the list gives the token there and records the place. -/
theorem start_peek {ts : Tokens} (h : ts[c.place]? = some t) :
    start ts.peek c = some (.ok t, { c with reads := c.place :: c.reads }) := by
  show start (found c.place ts[c.place]?) { c with reads := c.place :: c.reads } = _
  rw [h]
  rfl

/-- The cursor always finds a token: one of those that are left, or the `eof` token. So no look
misses the list, although nothing in the definition of the reader says so. -/
theorem ends_peek {ok : Token → Cursor → Prop} (hc : c.At front rest d dr)
    (h : ∀ c' : Cursor, c'.At front rest d dr → ok (rest.headD eof) c') :
    Ends (Tokens.peek (front ++ eof :: tail)) c ok err := by
  have hfind : (front ++ eof :: tail)[c.place]? = some (rest.headD eof) := by
    obtain ⟨before, rfl, hplace⟩ := hc.place
    rw [hplace, List.append_assoc, List.getElem?_append_right (Nat.le_refl _), Nat.sub_self]
    cases rest <;> rfl
  rw [Ends, start_peek hfind]
  exact h _ hc.look

/-- In front of the `eof` token the cursor moves on by one token. -/
theorem ends_advance {ok : Token → Cursor → Prop} (hfront : ∀ u ∈ front, u.kind ≠ .eof)
    (hc : c.At front (t :: rest) d dr)
    (h : ∀ c' : Cursor, c'.At front rest d dr → ok t c') :
    Ends (Tokens.advance (front ++ eof :: tail)) c ok err := by
  refine ends_bind (ends_peek hc fun c₁ hc₁ => ?_)
  rw [List.headD_cons, if_pos (hc.kind_ne_eof hfront)]
  exact h _ hc₁.move

/-- Gaps are skipped up to another token, at the latest up to the `eof` token, which is no gap. So
the loop ends, and the cursor stands where the parser's own `skipSpace` comes to. -/
theorem ends_skipSpace {ok : Unit → Cursor → Prop} (heof : eof.kind = .eof)
    (hc : c.At front rest d dr)
    (h : ∀ c' : Cursor, c'.At front (Parser.skipSpace rest) d dr → ok () c') :
    Ends (Tokens.skipSpace (front ++ eof :: tail)) c ok err := by
  induction rest generalizing c with
  | nil =>
      rw [Tokens.skipSpace]
      refine ends_bind (ends_peek hc fun c₁ hc₁ => ?_)
      rw [if_neg (by simp [heof])]
      exact h c₁ hc₁
  | cons t rest ih =>
      rw [Tokens.skipSpace]
      refine ends_bind (ends_peek hc fun c₁ hc₁ => ?_)
      rw [List.headD_cons]
      by_cases ht : t.kind = .whitespace
      · rw [if_pos ht]
        -- one more token lies behind the cursor, which is what the induction is on
        refine ends_bind (ends_modify (ih hc₁.move ?_))
        simpa [Parser.skipSpace, ht] using h
      · rw [if_neg ht]
        refine h c₁ ?_
        simpa [Parser.skipSpace, ht] using hc₁

/-- A semicolon is skipped if it is there; at the `eof` token there is none. So the cursor never
moves past the end. -/
theorem ends_skipSemicolon {ok : Unit → Cursor → Prop} (heof : eof.kind = .eof)
    (hfront : ∀ u ∈ front, u.kind ≠ .eof) (hc : c.At front rest d dr)
    (h : ∀ c' : Cursor, c'.At front (Parser.skipSemicolon rest) d dr → ok () c') :
    Ends (Tokens.skipSemicolon (front ++ eof :: tail)) c ok err := by
  rw [Tokens.skipSemicolon]
  refine ends_bind (ends_peek hc fun c₁ hc₁ => ?_)
  cases rest with
  | nil =>
      rw [if_neg (by simp [heof])]
      exact h c₁ hc₁
  | cons t rest =>
      rw [List.headD_cons]
      by_cases ht : t.kind = .semicolon
      · rw [if_pos ht]
        refine ends_bind (ends_advance hfront hc₁ fun c₂ hc₂ => h c₂ ?_)
        simpa [Parser.skipSemicolon, ht] using hc₂
      · rw [if_neg ht]
        refine h c₁ ?_
        simpa [Parser.skipSemicolon, ht] using hc₁

/-- Whether a group is open decides how a run ends: the check halts with the error that `unlessOpen`
gives, or goes on where that gives the run. -/
theorem ends_checkClosed {α : Type} {place : RunPlace} {groups : List Token}
    {x : Reader α} {ok : α → Cursor → Prop} (out : List Token × List Token)
    (hok : unlessOpen place groups out = .ok out → Ends x c ok err)
    (herr : ∀ e, unlessOpen place groups out = .error e → err (.fault e) c) :
    Ends (checkClosed place groups >>= fun _ => x) c ok err := by
  cases groups with
  | nil => exact ends_bind (hok rfl)
  | cons g gs => exact ends_bind (herr _ rfl)

/-- A run is collected as `takeRun` takes it off the tokens that are left: with the same tokens, the
same rest and the same error. -/
theorem ends_collect {place : RunPlace} {collected groups : List Token}
    {ok : List Token → Cursor → Prop} (heof : eof.kind = .eof)
    (hfront : ∀ u ∈ front, u.kind ≠ .eof) (hc : c.At front rest d dr)
    (hok : ∀ run rest' c', takeRun place groups rest = .ok (run, rest') →
      Cursor.At front rest' d dr c' → ok (collected ++ run) c')
    (herr : ∀ e rest' c', takeRun place groups rest = .error e →
      Cursor.At front rest' d dr c' → err (.fault e) c') :
    Ends (Tokens.collect (front ++ eof :: tail) place collected groups) c ok err := by
  -- `takeRun` puts a token in front of the rest of the run and the reader behind what it has, so
  -- the induction is for all that may have been collected
  induction rest generalizing c collected groups with
  | nil =>
      rw [Tokens.collect]
      refine ends_bind (ends_peek hc fun c₁ hc₁ => ?_)
      rw [if_pos (by simp [heof])]
      refine ends_checkClosed ([], []) (fun h => ?_) fun e h => herr e [] c₁ h hc₁
      exact ends_pure (by simpa using hok [] [] c₁ h hc₁)
  | cons t rest ih =>
      have ht : t.kind ≠ .eof := hc.kind_ne_eof hfront
      rw [Tokens.collect]
      refine ends_bind (ends_peek hc fun c₁ hc₁ => ?_)
      rw [List.headD_cons]
      unfold takeRun at hok herr
      -- both look at the kinds in the same order, and each case settles the same branch of both
      by_cases hrbrace : t.kind = .rbrace
      · rw [if_pos hrbrace] at hok herr
        rw [if_pos (.inr hrbrace)]
        refine ends_checkClosed ([], t :: rest) (fun h => ?_) fun e h => herr e _ c₁ h hc₁
        exact ends_pure (by simpa using hok [] _ c₁ h hc₁)
      rw [if_neg hrbrace] at hok herr
      rw [if_neg (by simp [ht, hrbrace])]
      by_cases hsemi : t.kind = .semicolon ∧ groups = []
      · rw [if_pos hsemi] at hok ⊢
        exact ends_pure (by simpa using hok [] _ c₁ rfl hc₁)
      rw [if_neg hsemi] at hok herr ⊢
      by_cases hlbrace : t.kind = .lbrace
      · rw [if_pos hlbrace] at hok herr ⊢
        cases place with
        | prelude =>
            refine ends_checkClosed ([], t :: rest) (fun h => ?_) fun e h => herr e _ c₁ h hc₁
            exact ends_pure (by simpa using hok [] _ c₁ h hc₁)
        | value property => exact ends_fail (herr _ _ c₁ rfl hc₁)
      rw [if_neg hlbrace] at hok herr ⊢
      refine ends_bind (ends_advance hfront hc₁ fun c₂ hc₂ => ih hc₂ ?_ ?_)
      · intro run rest' c' hrun hc'
        simpa using hok (t :: run) rest' c' (by rw [hrun]; rfl) hc'
      · intro e rest' c' hrun hc'
        exact herr e rest' c' (by rw [hrun]; rfl) hc'

end Places

end CssHints.Descent
