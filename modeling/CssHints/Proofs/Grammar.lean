import CssHints.Stylesheet.Parser

/-!
# `CssHints.Proofs.Grammar`: the language of the parser

The parser (`CssHints.Stylesheet.Parser`) is a machine with a stack of open blocks. This module
writes down the language that it reads, as a grammar over lists of tokens, together with the tree
that each sentence stands for.

* `ClosedRun`: the tokens of a prelude or of a value. They hold no brace, a semicolon stands only
  inside a group, and every group is closed at the end.
* `Decls`: the content of a block of declarations.
* `RuleList d`: a list of rules and at-rules inside `d` at-rules that hold rules.

The machine holds what it has read in its state and closes the open blocks later. So an accepting
run from some state is a derivation only together with what the state still demands of the tokens.
`Completes` says what that is, one open block after the other. Soundness is then one statement
about a single step (`completes_of_step`), and the run follows by induction on the run itself
(`completes_of_run`). Completeness goes the other way round: a derivation drives the machine from
any state to the state with the derived nodes behind its own (`run_decls`, `run_ruleList`).
-/

set_option autoImplicit false

namespace CssHints.Grammar

open Token (takeRun trackGroups splitSelectors text)
open CssHints.Parser (splitImportant)

/-! ### Runs of tokens -/

/-- The brackets that are open behind a token of class `k`, innermost first. An opening bracket
goes on top. The closing bracket of the one on top takes it off, and any other closing bracket
counts for nothing. -/
def openAfter (groups : List Kind) (k : Kind) : List Kind :=
  if k.isOpener then k :: groups
  else match groups with
    | [] => []
    | g :: gs => if g.closer? = some k then gs else g :: gs

/-- The tokens close all of `groups` and hold nothing that ends a run before its end. -/
def Closes (groups : List Kind) : List Token → Prop
  | [] => groups = []
  | t :: ts =>
    t.kind ≠ .eof ∧ t.kind ≠ .lbrace ∧ t.kind ≠ .rbrace ∧ (t.kind = .semicolon → groups ≠ []) ∧
      Closes (openAfter groups t.kind) ts

/-- A whole run: no group is open at its start or at its end. -/
def ClosedRun (ts : List Token) : Prop := Closes [] ts

/-- Whether the tokens close all of `groups` can be computed. -/
def Closes.decide (groups : List Kind) : (ts : List Token) → Decidable (Closes groups ts)
  | [] => inferInstanceAs (Decidable (groups = []))
  | t :: ts =>
    have := Closes.decide (openAfter groups t.kind) ts
    inferInstanceAs (Decidable (_ ∧ _ ∧ _ ∧ _ ∧ _))

instance (ts : List Token) : Decidable (ClosedRun ts) := Closes.decide [] ts

/-- The token opens no group and closes none. -/
def NoBracket (t : Token) : Prop := t.kind.isOpener = false ∧ t.kind.isCloser = false

/-- A token that is no bracket changes nothing about the open groups. In particular it closes none,
since only closing brackets do. -/
theorem openAfter_of_noBracket {t : Token} (h : NoBracket t) (groups : List Kind) :
    openAfter groups t.kind = groups := by
  cases groups with
  | nil => simp [openAfter, h.1]
  | cons g gs =>
      have hg : g.closer? ≠ some t.kind := by
        intro hg
        have hclose := h.2
        cases g <;> simp [Kind.closer?] at hg <;> rw [← hg] at hclose <;> cases hclose
      simp [openAfter, h.1, hg]

/-- A gap is no bracket. -/
theorem noBracket_of_whitespace {t : Token} (h : t.kind = .whitespace) : NoBracket t := by
  rw [NoBracket, h]
  exact ⟨rfl, rfl⟩

/-- A run stays closed without tokens at its end that are no brackets. Gaps behind a value are left
out in this way. -/
theorem Closes.left {groups : List Kind} {ts us : List Token} (h : Closes groups (ts ++ us))
    (hus : ∀ t ∈ us, NoBracket t) : Closes groups ts := by
  induction ts generalizing groups with
  -- the tokens that are left away come last, so the groups are closed in front of them
  | nil =>
      induction us with
      | nil => exact h
      | cons u us ih =>
          have hrest : Closes (openAfter groups u.kind) us := h.2.2.2.2
          rw [openAfter_of_noBracket (hus u List.mem_cons_self)] at hrest
          exact ih (fun t ht => hus t (List.mem_cons_of_mem _ ht)) hrest
  | cons t ts ih =>
      obtain ⟨h₁, h₂, h₃, h₄, hrest⟩ := h
      exact ⟨h₁, h₂, h₃, h₄, ih hrest⟩

/-- A run stays closed without tokens at its start that are no brackets. -/
theorem Closes.right {groups : List Kind} {ts us : List Token} (h : Closes groups (ts ++ us))
    (hts : ∀ t ∈ ts, NoBracket t) : Closes groups us := by
  induction ts with
  | nil => exact h
  | cons t ts ih =>
      have hrest : Closes (openAfter groups t.kind) (ts ++ us) := h.2.2.2.2
      rw [openAfter_of_noBracket (hts t List.mem_cons_self)] at hrest
      exact ih hrest fun u hu => hts u (List.mem_cons_of_mem _ hu)

/-! ### Blocks and lists -/

/-- A token that stands between items and counts for nothing there. -/
def IsGap (t : Token) : Prop := t.kind = .whitespace ∨ t.kind = .semicolon

/-- What a property with the run `value` behind its colon declares. A value that comes out empty
declares nothing. -/
def declared (property : Text) (value : List Token) : List Declaration :=
  if (splitImportant value).1 = [] then []
  else [⟨property, (splitImportant value).1, (splitImportant value).2⟩]

/-- The content of a block of declarations, and the declarations it stands for. A value extends
to the end of the block or to a semicolon outside groups, which is left as a gap. -/
inductive Decls : List Token → List Declaration → Prop
  | nil : Decls [] []
  | gap {t : Token} {ts : List Token} {ds : List Declaration} :
      IsGap t → Decls ts ds → Decls (t :: ts) ds
  | declaration {property colon : Token} {spaces value ts : List Token}
      {ds : List Declaration} :
      property.kind = .ident → (∀ s ∈ spaces, s.kind = .whitespace) → colon.kind = .colon →
      ClosedRun value → (∀ t ∈ ts.head?, t.kind = .semicolon) → Decls ts ds →
      Decls (property :: (spaces ++ colon :: (value ++ ts))) (declared property.value value ++ ds)

/-- The name of an at-rule, without the sign in front of it. -/
def atName (keyword : Token) : Text := keyword.value.drop 1

/-- The head of an at-rule with the given prelude. -/
def atHead (keyword : Token) (pre : List Token) : AtHead := ⟨atName keyword, text pre⟩

/-- The name by which an at-rule is known. -/
def atBase (keyword : Token) : Text := AtRule.baseName (atName keyword)

/-- A list of rules and at-rules inside `d` at-rules that hold rules, and the nodes it stands
for. -/
inductive RuleList : Nat → List Token → List Node → Prop
  | nil {d : Nat} : RuleList d [] []
  | gap {d : Nat} {t : Token} {ts : List Token} {ns : List Node} :
      IsGap t → RuleList d ts ns → RuleList d (t :: ts) ns
  | rule {d : Nat} {pre body ts : List Token} {lb rb : Token} {ds : List Declaration}
      {ns : List Node} :
      ClosedRun pre → (∀ t ∈ pre.head?, t.kind ≠ .whitespace ∧ t.kind ≠ .atKeyword) →
      splitSelectors pre ≠ [] → lb.kind = .lbrace → Decls body ds → rb.kind = .rbrace →
      RuleList d ts ns →
      RuleList d (pre ++ lb :: (body ++ rb :: ts)) (.rule ⟨splitSelectors pre, ds⟩ :: ns)
  | statement {d : Nat} {keyword semi : Token} {pre ts : List Token} {ns : List Node} :
      keyword.kind = .atKeyword → AtRule.isStatement (atBase keyword) = true → ClosedRun pre →
      semi.kind = .semicolon → RuleList d ts ns →
      RuleList d (keyword :: (pre ++ semi :: ts)) (.statement (atHead keyword pre) :: ns)
  | ruleBlock {d : Nat} {keyword lb rb : Token} {pre body ts : List Token}
      {children ns : List Node} :
      keyword.kind = .atKeyword → AtRule.holdsRules (atBase keyword) = true →
      d < AtRule.maxDepth → ClosedRun pre → lb.kind = .lbrace → RuleList (d + 1) body children →
      rb.kind = .rbrace → RuleList d ts ns →
      RuleList d (keyword :: (pre ++ lb :: (body ++ rb :: ts)))
        (.block (atHead keyword pre) children [] :: ns)
  | declBlock {d : Nat} {keyword lb rb : Token} {pre body ts : List Token}
      {ds : List Declaration} {ns : List Node} :
      keyword.kind = .atKeyword → AtRule.declarationNames.contains (atBase keyword) = true →
      ClosedRun pre → lb.kind = .lbrace → Decls body ds → rb.kind = .rbrace →
      RuleList d ts ns →
      RuleList d (keyword :: (pre ++ lb :: (body ++ rb :: ts)))
        (.block (atHead keyword pre) [] ds :: ns)

/-! ### The reader of runs

`takeRun` stops at the first token that cannot belong to a run, and fails if a group is open
there. The three lemmas make it a splitting of the tokens: what it returns is a closed run and a
rest that starts with a stopping token, and there is only one such splitting. -/

/-- The tokens start with one at which a run in the given place stops. -/
def Stops (place : RunPlace) (ts : List Token) : Prop :=
  ∀ t ∈ ts.head?, t.kind = .rbrace ∨ t.kind = .semicolon ∨ t.kind = .lbrace ∧ place = .prelude

/-- The groups that the machine keeps have the classes that the grammar keeps. The machine keeps the
tokens, since it reports an open one; the grammar needs only their classes. -/
theorem map_kind_trackGroups (groups : List Token) (t : Token) :
    (trackGroups groups t).map Token.kind = openAfter (groups.map Token.kind) t.kind := by
  unfold trackGroups openAfter
  split
  · rfl
  · cases groups with
    | nil => rfl
    | cons g gs =>
        show List.map Token.kind (if g.kind.closer? = some t.kind then gs else g :: gs) = _
        split <;> simp_all

/-- A run is read up to the token that stops it. The induction is on the run, with the open groups
generalized: they are closed at its end, so the stopping token is not inside a group. -/
theorem takeRun_append_of_closes (place : RunPlace) {groups run rest : List Token}
    (hrun : Closes (groups.map Token.kind) run) (hrest : Stops place rest) :
    takeRun place groups (run ++ rest) = .ok (run, rest) := by
  induction run generalizing groups with
  | nil =>
      have hgroups : groups = [] := by simpa [Closes] using hrun
      subst hgroups
      cases rest with
      | nil => rfl
      | cons t ts =>
          have ht := hrest t (by simp)
          rw [List.nil_append]
          unfold takeRun
          -- a run without open groups ends at a closing brace, a semicolon, or an opening brace in
          -- a prelude
          rcases ht with hr | hs | ⟨hl, rfl⟩
          · rw [if_pos hr]
            rfl
          · rw [if_neg (by simp [hs]), if_pos ⟨hs, rfl⟩]
          · rw [if_neg (by simp [hl]), if_neg (by simp [hl]), if_pos hl]
            rfl
  | cons t run ih =>
      obtain ⟨-, hlbrace, hrbrace, hsemi, hclose⟩ := hrun
      rw [← map_kind_trackGroups] at hclose
      -- inside the run a semicolon stands in an open group only
      have hopen : ¬(t.kind = .semicolon ∧ groups = []) := by
        rintro ⟨hk, rfl⟩
        exact hsemi hk rfl
      rw [List.cons_append]
      unfold takeRun
      rw [if_neg hrbrace, if_neg hopen, if_neg hlbrace, ih hclose]
      rfl

/-- What is read is a run, if no `eof` token stands among the tokens, and what is left starts with a
token that stops it. The reader does not look for `eof` tokens; it is never given one. -/
theorem closes_of_takeRun {place : RunPlace} {groups ts run rest : List Token}
    (hts : ∀ t ∈ ts, t.kind ≠ .eof) (h : takeRun place groups ts = .ok (run, rest)) :
    Closes (groups.map Token.kind) run ∧ Stops place rest := by
  induction ts generalizing groups run rest with
  | nil =>
      obtain ⟨hgroups, he⟩ := Token.unlessOpen_eq_ok h
      cases he
      subst hgroups
      exact ⟨rfl, by simp [Stops]⟩
  | cons t ts ih =>
      unfold takeRun at h
      split at h
      · rename_i hr
        obtain ⟨hgroups, he⟩ := Token.unlessOpen_eq_ok h
        cases he
        subst hgroups
        exact ⟨rfl, by simp [Stops, hr]⟩
      split at h
      · rename_i hs
        cases h
        rw [hs.2]
        exact ⟨rfl, by simp [Stops, hs.1]⟩
      split at h
      · rename_i hl
        cases place with
        | prelude =>
            obtain ⟨hgroups, he⟩ := Token.unlessOpen_eq_ok h
            cases he
            subst hgroups
            exact ⟨rfl, by simp [Stops, hl]⟩
        | value p => cases h
      · -- a token that belongs to the run, and the groups behind it
        rename_i hr hs hl
        cases hrec : takeRun place (trackGroups groups t) ts with
        | error e => simp [hrec, Except.map] at h
        | ok p =>
            rw [hrec] at h
            cases h
            obtain ⟨hclose, hstop⟩ := ih (fun u hu => hts u (by simp [hu])) hrec
            rw [map_kind_trackGroups] at hclose
            refine ⟨⟨hts t (by simp), hl, hr, ?_, hclose⟩, hstop⟩
            intro hsemi hnil
            exact hs ⟨hsemi, by simpa using hnil⟩

/-! ### Soundness

`Demands` and `Completes` say what a state still asks of the tokens for the run to end with
`sheet`: each open list of rules asks for the rest of its nodes and a closing brace, from the
innermost one outwards, and the outermost list asks for the rest of the sheet. -/

/-- What the open at-rules ask of the tokens, with `nodes` read in the innermost list. -/
def Demands : List Parser.OpenList → List Node → List Token → Stylesheet → Prop
  | [], nodes, ts, sheet => ∃ ns, RuleList 0 ts ns ∧ sheet = nodes ++ ns
  | o :: os, nodes, ts, sheet =>
    ∃ body rb rest ns, ts = body ++ rb :: rest ∧ rb.kind = .rbrace ∧
      RuleList (os.length + 1) body ns ∧
      Demands os (o.before ++ [.block o.head (nodes ++ ns) []]) rest sheet

/-- The node of a block of declarations. -/
def ownerNode (owner : Parser.Owner) (ds : List Declaration) : Node :=
  match owner with
  | .rule selectors => .rule ⟨selectors, ds⟩
  | .atRule head => .block head [] ds

/-- What a state asks of the tokens: an open block of declarations comes first. -/
def Completes (st : Parser.State) (ts : List Token) (sheet : Stylesheet) : Prop :=
  match st.block with
  | none => Demands st.lists st.nodes ts sheet
  | some b =>
    ∃ body rb rest ds, ts = body ++ rb :: rest ∧ rb.kind = .rbrace ∧ Decls body ds ∧
      Demands st.lists (st.nodes ++ [ownerNode b.owner (b.decls ++ ds)]) rest sheet

/-- Tokens that stand for `ns` in front of a list of rules can be read before what is demanded. This
is how each item of a list is put in front of the derivation of the rest, at whatever depth the list
is. -/
theorem Demands.prepend {lists : List Parser.OpenList} {nodes : List Node} {ts : List Token}
    {sheet : Stylesheet} (item : List Token) (ns : List Node)
    (hitem : ∀ us ms, RuleList lists.length us ms → RuleList lists.length (item ++ us) (ns ++ ms))
    (h : Demands lists (nodes ++ ns) ts sheet) : Demands lists nodes (item ++ ts) sheet := by
  cases lists with
  | nil =>
      obtain ⟨ms, hms, rfl⟩ := h
      exact ⟨ns ++ ms, hitem ts ms hms, by simp⟩
  | cons o os =>
      obtain ⟨body, rb, rest, ms, rfl, hrb, hbody, hout⟩ := h
      exact ⟨item ++ body, rb, rest, ns ++ ms, by simp, hrb, hitem body ms hbody,
        by simpa using hout⟩

/-- A block of declarations starts with no closing brace. So the brace that ends a value is the one
that ends the block. -/
theorem Decls.head_ne_rbrace {ts : List Token} {ds : List Declaration} (h : Decls ts ds) :
    ∀ t ∈ ts.head?, t.kind ≠ .rbrace := by
  intro t ht
  cases h with
  | nil => simp at ht
  | gap hgap _ =>
      obtain rfl : _ = t := by simpa using ht
      rcases hgap with h | h <;> simp [h]
  | declaration hp _ _ _ _ _ =>
      obtain rfl : _ = t := by simpa using ht
      simp [hp]

/-- The gaps that are skipped are gaps. -/
theorem kind_of_mem_takeWhile {t : Token} {ts : List Token}
    (h : t ∈ ts.takeWhile (·.kind = .whitespace)) : t.kind = .whitespace := by
  simpa using List.all_eq_true.1 (List.all_takeWhile (l := ts)) t h

/-- The cases of reading a declaration: the colon behind the spaces, the run of the value, and the
state with what the two declare. A value that comes out empty declares nothing, so the two branches
of the reader are one case here. -/
theorem readDeclaration_cases {eof property : Token} {st st' : Parser.State}
    {b : Parser.OpenBlock} {ts rest : List Token} (hblock : st.block = some b)
    (h : Parser.readDeclaration eof st b property ts = .ok (st', rest)) :
    ∃ colon run tail, Parser.skipSpace ts = colon :: (run ++ tail) ∧ colon.kind = .colon ∧
      takeRun (.value property.value) [] (run ++ tail) = .ok (run, tail) ∧
      rest = Parser.skipSemicolon tail ∧ st'.lists = st.lists ∧ st'.nodes = st.nodes ∧
      st'.block = some { b with decls := b.decls ++ declared property.value run } := by
  unfold Parser.readDeclaration at h
  split at h
  · cases h
  rename_i colon ts₁ hts
  split at h
  · cases h
  rename_i hcolon
  split at h
  · cases h
  rename_i run tail hrun
  -- from here on nothing fails: an empty value is dropped, any other one is kept
  have happ := Token.takeRun_append hrun
  subst happ
  dsimp only at h
  split at h
  · rename_i hempty
    cases h
    exact ⟨colon, run, tail, hts, by simpa using hcolon, hrun, rfl, rfl, rfl, by
      simp [declared, hempty, hblock]⟩
  · rename_i hvalue
    cases h
    exact ⟨colon, run, tail, hts, by simpa using hcolon, hrun, rfl, rfl, rfl, by
      simp [declared, hvalue]⟩

/-- The cases of reading the head of an at-rule, by the token behind its prelude: a semicolon ends a
statement, and a brace opens a list of rules or a block of declarations. -/
theorem readAtRule_cases {st st' : Parser.State} {keyword : Token} {ts rest : List Token}
    (h : Parser.readAtRule st keyword ts = .ok (st', rest)) :
    ∃ pre t, takeRun .prelude [] ts = .ok (pre, t :: rest) ∧
      (t.kind = .semicolon ∧ AtRule.isStatement (atBase keyword) = true ∧
          st' = st.addNode (.statement (atHead keyword pre)) ∨
        t.kind = .lbrace ∧ AtRule.holdsRules (atBase keyword) = true ∧
          st.lists.length < AtRule.maxDepth ∧ st' = st.openList t (atHead keyword pre) ∨
        t.kind = .lbrace ∧ AtRule.declarationNames.contains (atBase keyword) = true ∧
          st' = st.openBlock t (.atRule (atHead keyword pre))) := by
  unfold Parser.readAtRule at h
  dsimp only at h
  split at h
  · cases h
  rename_i pre tail hrun
  split at h
  · cases h
  split at h
  · cases h
  rename_i t tail
  split at h
  · rename_i hsemi
    split at h
    · rename_i hstatement
      cases h
      exact ⟨pre, t, hrun, .inl ⟨hsemi, hstatement, rfl⟩⟩
    · cases h
  split at h
  · cases h
  rename_i hlbrace
  have hlbrace : t.kind = .lbrace := by simpa using hlbrace
  split at h
  · cases h
  rename_i htakes
  split at h
  · rename_i hholds
    split at h
    · cases h
    · rename_i hdepth
      cases h
      exact ⟨pre, t, hrun, .inr (.inl ⟨hlbrace, hholds, by omega, rfl⟩)⟩
  · rename_i hholds
    cases h
    -- a block that holds no rules holds declarations
    have htakes : AtRule.takesBlock (atBase keyword) = true := by
      simpa [atBase, atName] using htakes
    rw [AtRule.takesBlock, Bool.or_eq_true] at htakes
    exact ⟨pre, t, hrun, .inr (.inr ⟨hlbrace, htakes.resolve_left hholds, rfl⟩)⟩

/-- Reading the selectors of a rule: the prelude up to a brace, with at least one selector in it.
All other outcomes are errors. -/
theorem readRule_cases {eof start : Token} {st st' : Parser.State} {ts rest : List Token}
    (h : Parser.readRule eof st start ts = .ok (st', rest)) :
    ∃ pre t, takeRun .prelude [] (start :: ts) = .ok (pre, t :: rest) ∧ t.kind = .lbrace ∧
      splitSelectors pre ≠ [] ∧ st' = st.openBlock t (.rule (splitSelectors pre)) := by
  unfold Parser.readRule at h
  split at h
  · cases h
  · cases h
  rename_i pre t tail hrun
  split at h
  · cases h
  rename_i hlbrace
  split at h
  · cases h
  rename_i hselectors
  cases h
  exact ⟨pre, t, hrun, by simpa using hlbrace, hselectors, rfl⟩

/-- The cases of a step: a gap, the end of a block of declarations, a declaration, the end of a list
of rules, the head of an at-rule, or the selectors of a rule. Every fact about a run is proved from
these cases, and `Parser.step` is opened nowhere else. -/
theorem step_cases {eof t : Token} {st st' : Parser.State} {ts rest : List Token}
    (h : Parser.step eof st t ts = .ok (st', rest)) :
    (IsGap t ∧ st' = st ∧ rest = ts) ∨
    (∃ b, st.block = some b ∧ t.kind = .rbrace ∧ st' = st.closeBlock b ∧ rest = ts) ∨
    (∃ b, st.block = some b ∧ t.kind = .ident ∧
      Parser.readDeclaration eof st b t ts = .ok (st', rest)) ∨
    (∃ o os, st.block = none ∧ t.kind = .rbrace ∧ st.lists = o :: os ∧
      st' = { st with lists := os, nodes := o.before ++ [.block o.head st.nodes []] } ∧ rest = ts) ∨
    (st.block = none ∧ t.kind = .atKeyword ∧ Parser.readAtRule st t ts = .ok (st', rest)) ∨
    (st.block = none ∧ ¬IsGap t ∧ t.kind ≠ .rbrace ∧ t.kind ≠ .atKeyword ∧
      Parser.readRule eof st t ts = .ok (st', rest)) := by
  unfold Parser.step at h
  split at h
  · rename_i hgap
    cases h
    exact .inl ⟨hgap, rfl, rfl⟩
  rename_i hgap
  split at h
  · -- in a block of declarations
    rename_i b hb
    split at h
    · rename_i hrbrace
      cases h
      exact .inr (.inl ⟨b, hb, hrbrace, rfl, rfl⟩)
    split at h
    · rename_i hident
      exact .inr (.inr (.inl ⟨b, hb, hident, h⟩))
    · cases h
  · -- in a list of rules
    rename_i hb
    split at h
    · rename_i hrbrace
      split at h
      · cases h
      · rename_i o os hlists
        cases h
        exact .inr (.inr (.inr (.inl ⟨o, os, hb, hrbrace, hlists, rfl, rfl⟩)))
    rename_i hrbrace
    split at h
    · rename_i hkeyword
      exact .inr (.inr (.inr (.inr (.inl ⟨hb, hkeyword, h⟩))))
    · rename_i hkeyword
      exact .inr (.inr (.inr (.inr (.inr ⟨hb, hgap, hrbrace, hkeyword, h⟩))))

/-- Reading a declaration keeps the demand of a state in a block. The declaration goes in front of
those that the state behind it still asks for. -/
theorem completes_of_readDeclaration {eof property : Token} {st st' : Parser.State}
    {b : Parser.OpenBlock} {ts rest : List Token} {sheet : Stylesheet}
    (hts : ∀ t ∈ ts, t.kind ≠ .eof) (hblock : st.block = some b)
    (hproperty : property.kind = .ident)
    (h : Parser.readDeclaration eof st b property ts = .ok (st', rest))
    (hrest : Completes st' rest sheet) : Completes st (property :: ts) sheet := by
  obtain ⟨colon, run, tail, hskip, hcolon, hrun, rfl, hlists, hnodes, hb⟩ :=
    readDeclaration_cases hblock h
  -- the tokens are the spaces, the colon, the value and the tail
  have hsplit : ts = ts.takeWhile (·.kind = .whitespace) ++ colon :: (run ++ tail) := by
    rw [← hskip]
    exact List.takeWhile_append_dropWhile.symm
  have heof : ∀ t ∈ run ++ tail, t.kind ≠ .eof := fun t ht => by
    refine hts t ?_
    rw [hsplit]
    exact List.mem_append_right _ (List.mem_cons_of_mem _ ht)
  obtain ⟨hclosed, hstops⟩ := closes_of_takeRun heof hrun
  simp only [Completes, hb, hlists, hnodes] at hrest
  obtain ⟨body, rb, out, ds, htail, hrb, hbody, hout⟩ := hrest
  simp only [Completes, hblock]
  -- the semicolon that ends the value, if there is one, is a gap of the block
  have hgap : ∃ body', tail = body' ++ rb :: out ∧ Decls body' ds ∧
      ∀ t ∈ body'.head?, t.kind = .semicolon := by
    cases tail with
    | nil => simp [Parser.skipSemicolon] at htail
    | cons t tail =>
        rcases hstops t (by simp) with hr | hs | ⟨-, hplace⟩
        · have hsame : Parser.skipSemicolon (t :: tail) = t :: tail := by
            simp [Parser.skipSemicolon, hr]
          rw [hsame] at htail
          have hnil : body = [] := by
            cases body with
            | nil => rfl
            | cons u us =>
                obtain ⟨rfl, -⟩ : t = u ∧ _ := by simpa using htail
                exact absurd hr (hbody.head_ne_rbrace t (by simp))
          subst hnil
          exact ⟨[], htail, hbody, by simp⟩
        · have hdrop : Parser.skipSemicolon (t :: tail) = tail := by
            simp [Parser.skipSemicolon, hs]
          rw [hdrop] at htail
          exact ⟨t :: body, by simp [htail], .gap (.inr hs) hbody, by simp [hs]⟩
        · cases hplace
  obtain ⟨body', htail', hbody', hhead⟩ := hgap
  refine ⟨property :: (ts.takeWhile (·.kind = .whitespace) ++ colon :: (run ++ body')), rb, out,
    declared property.value run ++ ds, ?_, hrb,
    .declaration hproperty (fun s hs => kind_of_mem_takeWhile hs) hcolon hclosed hhead hbody', ?_⟩
  · rw [htail'] at hsplit
    simpa using hsplit
  · simpa using hout

/-- Reading the head of an at-rule keeps the demand of a state outside blocks. A statement is an
item by itself; a head that opens a block is an item together with the block, whose end the state
behind it asks for. -/
theorem completes_of_readAtRule {keyword : Token} {st st' : Parser.State}
    {ts rest : List Token} {sheet : Stylesheet} (hts : ∀ t ∈ ts, t.kind ≠ .eof)
    (hblock : st.block = none) (hkeyword : keyword.kind = .atKeyword)
    (h : Parser.readAtRule st keyword ts = .ok (st', rest)) (hrest : Completes st' rest sheet) :
    Completes st (keyword :: ts) sheet := by
  obtain ⟨pre, t, hrun, hcases⟩ := readAtRule_cases h
  have hclosed : ClosedRun pre := (closes_of_takeRun hts hrun).1
  obtain rfl := Token.takeRun_append hrun
  simp only [Completes, hblock]
  rcases hcases with ⟨hsemi, hbase, rfl⟩ | ⟨hlbrace, hbase, hdepth, rfl⟩ | ⟨hlbrace, hbase, rfl⟩
  · simp only [Completes, Parser.State.addNode, hblock] at hrest
    have hitem := Demands.prepend (keyword :: (pre ++ [t])) _
      (fun us ms hms => by
        have := RuleList.statement hkeyword hbase hclosed hsemi hms
        simpa using this) hrest
    simpa using hitem
  · -- the innermost demand is now the block of the at-rule, up to its closing brace
    simp only [Completes, Parser.State.openList, hblock] at hrest
    obtain ⟨body, rb, out, children, rfl, hrb, hbody, hout⟩ := hrest
    have hitem := Demands.prepend (keyword :: (pre ++ t :: (body ++ [rb]))) _
      (fun us ms hms => by
        have := RuleList.ruleBlock hkeyword hbase hdepth hclosed hlbrace hbody hrb hms
        simpa using this) hout
    simpa using hitem
  · simp only [Completes, Parser.State.openBlock] at hrest
    obtain ⟨body, rb, out, ds, rfl, hrb, hbody, hout⟩ := hrest
    have hitem := Demands.prepend (keyword :: (pre ++ t :: (body ++ [rb]))) _
      (fun us ms hms => by
        have := RuleList.declBlock hkeyword hbase hclosed hlbrace hbody hrb hms
        simpa [ownerNode] using this) hout
    simpa using hitem

/-- Reading the selectors of a rule keeps the demand of a state outside blocks. The rule is an item
together with its block. -/
theorem completes_of_readRule {eof start : Token} {st st' : Parser.State}
    {ts rest : List Token} {sheet : Stylesheet} (hts : ∀ t ∈ start :: ts, t.kind ≠ .eof)
    (hblock : st.block = none) (hstart : start.kind ≠ .whitespace ∧ start.kind ≠ .atKeyword)
    (h : Parser.readRule eof st start ts = .ok (st', rest)) (hrest : Completes st' rest sheet) :
    Completes st (start :: ts) sheet := by
  obtain ⟨pre, t, hrun, hlbrace, hselectors, rfl⟩ := readRule_cases h
  have hclosed : ClosedRun pre := (closes_of_takeRun hts hrun).1
  have happ := Token.takeRun_append hrun
  -- the prelude starts with the token that the step has looked at
  have hhead : ∀ u ∈ pre.head?, u.kind ≠ .whitespace ∧ u.kind ≠ .atKeyword := by
    cases pre with
    | nil => simp
    | cons u us =>
        obtain ⟨rfl, -⟩ : u = start ∧ _ := by simpa using happ
        simpa using hstart
  rw [← happ]
  simp only [Completes, hblock]
  simp only [Completes, Parser.State.openBlock] at hrest
  obtain ⟨body, rb, out, ds, rfl, hrb, hbody, hout⟩ := hrest
  have hitem := Demands.prepend (pre ++ t :: (body ++ [rb])) _
    (fun us ms hms => by
      have := RuleList.rule hclosed hhead hselectors hlbrace hbody hrb hms
      simpa [ownerNode] using this) hout
  simpa using hitem

/-- One step keeps the demand: what the state behind the step asks of the rest, the state before it
asks of the tokens with the item in front. -/
theorem completes_of_step {eof t : Token} {st st' : Parser.State} {ts rest : List Token}
    {sheet : Stylesheet} (hts : ∀ u ∈ t :: ts, u.kind ≠ .eof)
    (h : Parser.step eof st t ts = .ok (st', rest)) (hrest : Completes st' rest sheet) :
    Completes st (t :: ts) sheet := by
  have htail : ∀ u ∈ ts, u.kind ≠ .eof := fun u hu => hts u (List.mem_cons_of_mem _ hu)
  rcases step_cases h with ⟨hgap, rfl, rfl⟩ | ⟨b, hb, hrbrace, rfl, rfl⟩ | ⟨b, hb, hident, hread⟩ |
    ⟨o, os, hb, hrbrace, hlists, rfl, rfl⟩ | ⟨hb, hkeyword, hread⟩ |
    ⟨hb, hgap, -, hkeyword, hread⟩
  · -- a gap goes to the front of the innermost list or block
    cases hb : st'.block with
    | none =>
        simp only [Completes, hb] at hrest ⊢
        exact Demands.prepend [t] [] (fun us ms hms => .gap hgap hms)
          (by simpa using hrest)
    | some b =>
        simp only [Completes, hb] at hrest ⊢
        obtain ⟨body, rb, out, ds, rfl, hrb, hbody, hout⟩ := hrest
        exact ⟨t :: body, rb, out, ds, rfl, hrb, .gap hgap hbody, hout⟩
  · -- the closing brace is what the block asks for, with nothing more to declare
    simp only [Completes, hb]
    refine ⟨[], t, rest, [], rfl, hrbrace, .nil, ?_⟩
    cases howner : b.owner <;>
      simpa [Completes, Parser.State.closeBlock, ownerNode, howner] using hrest
  · exact completes_of_readDeclaration htail hb hident hread hrest
  · -- likewise for a list of rules: nothing more is asked for in front of its brace
    simp only [Completes, hb, hlists]
    simp only [Completes, hb] at hrest
    exact ⟨[], t, rest, [], rfl, hrbrace, .nil, by simpa using hrest⟩
  · exact completes_of_readAtRule htail hb hkeyword hread hrest
  · exact completes_of_readRule hts hb ⟨fun hw => hgap (.inl hw), hkeyword⟩ hread hrest

/-- An accepting run from any state meets what the state demands. The induction is on the run: at
its end nothing may be open, and each step is `completes_of_step`. -/
theorem completes_of_run {eof : Token} {st : Parser.State} {ts : List Token}
    {sheet : Stylesheet} (hts : ∀ t ∈ ts, t.kind ≠ .eof)
    (h : (Parser.run eof st ts).result = .ok sheet) : Completes st ts sheet := by
  fun_induction Parser.run eof st ts with
  -- an end that is accepted leaves nothing open, and nothing is demanded
  | case1 st =>
      unfold Parser.State.finish at h
      split at h
      · cases h
      · cases h
      · rename_i hb hl
        cases h
        simp only [Completes, hb, hl]
        exact ⟨[], .nil, by simp⟩
  | case2 st t ts e hstep => cases h
  | case3 st t ts st' rest hstep ih =>
      have hrest : ∀ u ∈ rest, u.kind ≠ .eof := fun u hu =>
        hts u (List.mem_cons_of_mem _ ((Parser.step_suffix hstep).subset hu))
      exact completes_of_step hts hstep (ih hrest h)

/-! ### Completeness

A derivation drives the machine. The record of dropped declarations grows on the way and is of no
interest here, so it is left open in the statements. -/

/-- A run goes on behind a step with the state and the tokens that the step leaves. All later proofs
open `run` through this equation. -/
theorem run_cons_of_step {eof t : Token} {st st' : Parser.State} {ts rest : List Token}
    (h : Parser.step eof st t ts = .ok (st', rest)) :
    Parser.run eof st (t :: ts) = Parser.run eof st' rest := by
  rw [Parser.run]
  split
  · rename_i e he
    rw [h] at he
    cases he
  · rename_i st₁ rest₁ he
    rw [h] at he
    cases he
    rfl

/-- A gap is skipped in any state. -/
theorem step_gap {eof t : Token} {st : Parser.State} {ts : List Token} (h : IsGap t) :
    Parser.step eof st t ts = .ok (st, ts) := by
  unfold IsGap at h
  rw [Parser.step, if_pos h]

/-- In a block, an identifier starts a declaration. -/
theorem step_ident {eof t : Token} {st : Parser.State} {b : Parser.OpenBlock} {ts : List Token}
    (hblock : st.block = some b) (h : t.kind = .ident) :
    Parser.step eof st t ts = Parser.readDeclaration eof st b t ts := by
  rw [Parser.step, if_neg (by simp [h]), hblock]
  dsimp only
  rw [if_neg (by simp [h]), if_pos h]

/-- Outside blocks, a keyword starts an at-rule. -/
theorem step_atKeyword {eof t : Token} {st : Parser.State} {ts : List Token}
    (hblock : st.block = none) (h : t.kind = .atKeyword) :
    Parser.step eof st t ts = Parser.readAtRule st t ts := by
  rw [Parser.step, if_neg (by simp [h]), hblock]
  dsimp only
  rw [if_neg (by simp [h]), if_pos h]

/-- Outside blocks, any other token but a closing brace starts a rule. -/
theorem step_start {eof t : Token} {st : Parser.State} {ts : List Token}
    (hblock : st.block = none) (hgap : ¬IsGap t) (hrbrace : t.kind ≠ .rbrace)
    (hkeyword : t.kind ≠ .atKeyword) :
    Parser.step eof st t ts = Parser.readRule eof st t ts := by
  unfold IsGap at hgap
  rw [Parser.step, if_neg hgap, hblock]
  dsimp only
  rw [if_neg hrbrace, if_neg hkeyword]

/-- The semicolon behind a declaration may be skipped with it or read as a gap. The grammar leaves
it as a gap, and the machine skips it. -/
theorem run_skipSemicolon (eof : Token) (st : Parser.State) (ts : List Token) :
    Parser.run eof st (Parser.skipSemicolon ts) = Parser.run eof st ts := by
  cases ts with
  | nil => rfl
  | cons t ts =>
      by_cases hs : t.kind = .semicolon
      · rw [run_cons_of_step (step_gap (.inr hs))]
        simp [Parser.skipSemicolon, hs]
      · simp [Parser.skipSemicolon, hs]

/-- A declaration is read where its colon and its value stand. Only the record of dropped
declarations depends on whether the value comes out empty. -/
theorem readDeclaration_of_run (eof : Token) {property colon : Token} {st : Parser.State}
    {b : Parser.OpenBlock} {ts run tail : List Token} (hblock : st.block = some b)
    (hskip : Parser.skipSpace ts = colon :: (run ++ tail)) (hcolon : colon.kind = .colon)
    (hrun : takeRun (.value property.value) [] (run ++ tail) = .ok (run, tail)) :
    ∃ dr, Parser.readDeclaration eof st b property ts =
      .ok ({ st with block := some { b with decls := b.decls ++ declared property.value run },
                     dropped := dr }, Parser.skipSemicolon tail) := by
  simp only [Parser.readDeclaration, hskip, hcolon, hrun, ne_eq, not_true_eq_false, if_false]
  by_cases hempty : (splitImportant run).1 = []
  · rw [if_pos hempty]
    refine ⟨st.dropped ++ [⟨property.value, property.loc.line⟩], ?_⟩
    simp [declared, hempty, hblock]
  · rw [if_neg hempty]
    exact ⟨st.dropped, by simp [declared, hempty]⟩

/-- Gaps are skipped up to the first token that is none. -/
theorem skipSpace_append_cons {spaces ts : List Token} {t : Token}
    (hspaces : ∀ s ∈ spaces, s.kind = .whitespace) (ht : t.kind ≠ .whitespace) :
    Parser.skipSpace (spaces ++ t :: ts) = t :: ts := by
  rw [Parser.skipSpace, List.dropWhile_append_of_pos (by simpa using hspaces)]
  simp [ht]

/-- The declarations of a block are read up to its closing brace, which closes the block. The
induction is on the derivation, with the state generalized, since each declaration adds to its
block. -/
theorem run_decls {eof : Token} {body : List Token} {ds : List Declaration} (h : Decls body ds)
    (st : Parser.State) (b : Parser.OpenBlock) (hblock : st.block = some b) {rb : Token}
    (hrb : rb.kind = .rbrace) (rest : List Token) :
    ∃ dr, Parser.run eof st (body ++ rb :: rest) =
      Parser.run eof { st with block := none, dropped := dr,
                               nodes := st.nodes ++ [ownerNode b.owner (b.decls ++ ds)] } rest := by
  induction h generalizing st b with
  | nil =>
      refine ⟨st.dropped, run_cons_of_step ?_⟩
      rw [Parser.step, if_neg (by simp [hrb]), hblock]
      dsimp only
      rw [if_pos hrb, List.append_nil]
      cases howner : b.owner <;> simp [Parser.State.closeBlock, ownerNode, howner]
  | gap hgap _ ih =>
      obtain ⟨dr, hrun⟩ := ih st b hblock
      exact ⟨dr, (run_cons_of_step (step_gap hgap)).trans hrun⟩
  | @declaration property colon spaces value ts ds hp hspaces hcolon hvalue hts _ ih =>
      -- the value stops at the brace of the block or at the semicolon behind it
      have hstops : Stops (.value property.value) (ts ++ rb :: rest) := by
        cases ts with
        | nil => simp [Stops, hrb]
        | cons t ts => simp [Stops, hts t (by simp)]
      have hrun : takeRun (.value property.value) [] (value ++ (ts ++ rb :: rest))
          = .ok (value, ts ++ rb :: rest) := takeRun_append_of_closes _ hvalue hstops
      have hskip : Parser.skipSpace (spaces ++ colon :: (value ++ (ts ++ rb :: rest)))
          = colon :: (value ++ (ts ++ rb :: rest)) :=
        skipSpace_append_cons hspaces (by simp [hcolon])
      obtain ⟨dr, hread⟩ := readDeclaration_of_run eof hblock hskip hcolon hrun
      rw [← step_ident hblock hp] at hread
      obtain ⟨dr', hbody⟩ := ih _ { b with decls := b.decls ++ declared property.value value }
        (rfl : ({ st with block := some _, dropped := dr } : Parser.State).block = some _)
      exact ⟨dr', by simpa [run_cons_of_step hread, run_skipSemicolon] using hbody⟩

/-- No at-rule holds both rules and declarations. -/
theorem holdsRules_of_declarationNames {base : Text}
    (h : AtRule.declarationNames.contains base = true) : AtRule.holdsRules base = false := by
  have hdisjoint : ∀ n ∈ AtRule.declarationNames, AtRule.holdsRules n = false := by decide
  exact hdisjoint base (List.contains_iff_mem.1 h)

/-- The cases of `readAtRule_cases`, read the other way round: a known at-rule whose prelude is
`pre` and ends at `t`. -/
theorem readAtRule_of_run {keyword t : Token} (st : Parser.State) {pre rest : List Token}
    (hpre : ClosedRun pre) :
    (t.kind = .semicolon → AtRule.isStatement (atBase keyword) = true →
      Parser.readAtRule st keyword (pre ++ t :: rest) =
        .ok (st.addNode (.statement (atHead keyword pre)), rest)) ∧
    (t.kind = .lbrace → AtRule.holdsRules (atBase keyword) = true →
      st.lists.length < AtRule.maxDepth →
      Parser.readAtRule st keyword (pre ++ t :: rest) =
        .ok (st.openList t (atHead keyword pre), rest)) ∧
    (t.kind = .lbrace → AtRule.declarationNames.contains (atBase keyword) = true →
      Parser.readAtRule st keyword (pre ++ t :: rest) =
        .ok (st.openBlock t (.atRule (atHead keyword pre)), rest)) := by
  have hrun (h : Stops .prelude (t :: rest)) :
      takeRun .prelude [] (pre ++ t :: rest) = .ok (pre, t :: rest) :=
    takeRun_append_of_closes _ hpre h
  have hbase : atBase keyword = AtRule.baseName (keyword.value.drop 1) := rfl
  -- the mark behind the prelude and the class of the name decide together
  refine ⟨fun ht hs => ?_, fun ht hr hd => ?_, fun ht hn => ?_⟩
  · rw [Parser.readAtRule, hrun (by simp [Stops, ht]), ← hbase]
    simp [hs, ht, atHead, atName]
  · rw [Parser.readAtRule, hrun (by simp [Stops, ht]), ← hbase]
    simp [AtRule.takesBlock, hr, ht, atHead, atName, Nat.not_le.2 hd]
  · rw [Parser.readAtRule, hrun (by simp [Stops, ht]), ← hbase]
    simp only [AtRule.takesBlock, hn, holdsRules_of_declarationNames hn, ht]
    rfl

/-- The selectors of a rule are read where a closed run with selectors stands in front of a
brace. -/
theorem readRule_of_run {eof start lb : Token} (st : Parser.State) {pre ts rest : List Token}
    (hpre : ClosedRun pre) (hlb : lb.kind = .lbrace) (hselectors : splitSelectors pre ≠ [])
    (hstart : start :: ts = pre ++ lb :: rest) :
    Parser.readRule eof st start ts = .ok (st.openBlock lb (.rule (splitSelectors pre)), rest) := by
  have hrun : takeRun .prelude [] (pre ++ lb :: rest) = .ok (pre, lb :: rest) :=
    takeRun_append_of_closes _ hpre (by simp [Stops, hlb])
  rw [Parser.readRule, hstart, hrun]
  simp [hlb, hselectors]

/-- A list of rules is read from any state outside blocks of declarations, and its nodes go behind
the nodes of the state. The induction is on the derivation. The depth of the list is the number of
open at-rules of the state, so the bound on the depth carries over to the machine. -/
theorem run_ruleList (eof : Token) {d : Nat} {ts : List Token} {ns : List Node}
    (h : RuleList d ts ns) (st : Parser.State) (hblock : st.block = none)
    (hdepth : st.lists.length = d) (rest : List Token) :
    ∃ dr, Parser.run eof st (ts ++ rest) =
      Parser.run eof { st with nodes := st.nodes ++ ns, dropped := dr } rest := by
  induction h generalizing st rest with
  | nil => exact ⟨st.dropped, by simp⟩
  | gap hgap _ ih =>
      obtain ⟨dr, hrun⟩ := ih st hblock hdepth rest
      exact ⟨dr, (run_cons_of_step (step_gap hgap)).trans hrun⟩
  | @rule d pre body ts lb rb ds ns hpre hhead hselectors hlb hbody hrb _ ih =>
      -- a prelude with selectors has a first token, and it starts the rule
      obtain ⟨start, pre', rfl⟩ : ∃ start pre', pre = start :: pre' := by
        cases pre with
        | nil => exact absurd rfl hselectors
        | cons start pre' => exact ⟨start, pre', rfl⟩
      obtain ⟨hws, hkeyword⟩ := hhead start (by simp)
      have hfirst : Closes [] (start :: pre') := hpre
      obtain ⟨-, -, hrbrace, hsemi, -⟩ := hfirst
      have hstep : Parser.step eof st start (pre' ++ lb :: (body ++ rb :: (ts ++ rest)))
          = .ok (st.openBlock lb (.rule (splitSelectors (start :: pre'))),
              body ++ rb :: (ts ++ rest)) := by
        rw [step_start hblock (fun hgap => hgap.elim hws fun hs => hsemi hs rfl) hrbrace hkeyword]
        exact readRule_of_run st hpre hlb hselectors rfl
      obtain ⟨dr, hblockRun⟩ := run_decls hbody _ _ (rfl : (st.openBlock lb _).block = some _) hrb
        (ts ++ rest)
      obtain ⟨dr', htail⟩ := ih { st with
        nodes := st.nodes ++ [.rule ⟨splitSelectors (start :: pre'), ds⟩], block := none,
        dropped := dr } rfl hdepth rest
      refine ⟨dr', ?_⟩
      have hall := (run_cons_of_step hstep).trans hblockRun
      simpa [ownerNode, Parser.State.openBlock, hblock] using hall.trans htail
  -- a statement is read in one step
  | @statement d keyword semi pre ts ns hk hbase hpre hsemi _ ih =>
      have hstep : Parser.step eof st keyword (pre ++ semi :: (ts ++ rest)) = _ :=
        (step_atKeyword hblock hk).trans ((readAtRule_of_run st hpre).1 hsemi hbase)
      obtain ⟨dr, htail⟩ := ih (st.addNode _) hblock hdepth rest
      refine ⟨dr, ?_⟩
      have hall := (run_cons_of_step hstep).trans htail
      simpa [Parser.State.addNode] using hall
  | @ruleBlock d keyword lb rb pre body ts children ns hk hbase hd hpre hlb _ hrb _ ihbody ih =>
      have hstep : Parser.step eof st keyword (pre ++ lb :: (body ++ rb :: (ts ++ rest))) = _ :=
        (step_atKeyword hblock hk).trans
          ((readAtRule_of_run st hpre).2.1 hlb hbase (hdepth ▸ hd))
      obtain ⟨dr, hinner⟩ := ihbody (st.openList lb _) hblock
        (by simp [Parser.State.openList, hdepth]) (rb :: (ts ++ rest))
      -- the closing brace puts the children below the at-rule
      have hclose : Parser.step eof { st.openList lb (atHead keyword pre) with
            nodes := (st.openList lb (atHead keyword pre)).nodes ++ children, dropped := dr } rb
            (ts ++ rest)
          = .ok ({ st with nodes := st.nodes ++ [.block (atHead keyword pre) children []],
                           dropped := dr }, ts ++ rest) := by
        rw [Parser.step, if_neg (by simp [hrb])]
        simp [Parser.State.openList, hblock, hrb]
      obtain ⟨dr', htail⟩ := ih { st with
        nodes := st.nodes ++ [.block (atHead keyword pre) children []],
        dropped := dr } hblock hdepth rest
      refine ⟨dr', ?_⟩
      have hall := (run_cons_of_step hstep).trans
        (hinner.trans ((run_cons_of_step hclose).trans htail))
      simpa using hall
  -- as for a rule: the head, then the block of declarations
  | @declBlock d keyword lb rb pre body ts ds ns hk hbase hpre hlb hbody hrb _ ih =>
      have hstep : Parser.step eof st keyword (pre ++ lb :: (body ++ rb :: (ts ++ rest))) = _ :=
        (step_atKeyword hblock hk).trans ((readAtRule_of_run st hpre).2.2 hlb hbase)
      obtain ⟨dr, hblockRun⟩ := run_decls hbody _ _ (rfl : (st.openBlock lb _).block = some _) hrb
        (ts ++ rest)
      obtain ⟨dr', htail⟩ := ih { st with
        nodes := st.nodes ++ [.block (atHead keyword pre) [] ds], block := none,
        dropped := dr } rfl hdepth rest
      refine ⟨dr', ?_⟩
      have hall := (run_cons_of_step hstep).trans hblockRun
      simpa [ownerNode, Parser.State.openBlock, hblock] using hall.trans htail

/-! ### The whole list -/

/-- A list of tokens with its only `eof` token at the end is read as a whole. The tokenizer gives
such lists only. -/
theorem parse_append_eof {ts : List Token} {eof : Token} (heof : eof.kind = .eof)
    (hts : ∀ t ∈ ts, t.kind ≠ .eof) :
    Stylesheet.parse (ts ++ [eof]) = Parser.run eof {} ts := by
  have hfind : (ts ++ [eof]).find? (·.kind = .eof) = some eof := by
    rw [List.find?_append, List.find?_eq_none.2 (by simpa using hts)]
    simp [heof]
  have htake : (ts ++ [eof]).takeWhile (·.kind ≠ .eof) = ts := by
    rw [List.takeWhile_append_of_pos (by simpa using hts)]
    simp [heof]
  rw [Stylesheet.parse, List.getLast?_concat, hfind]
  simp only [heof, if_true]
  rw [htake]

/-- A derivation is found, and the tree returned is the one it stands for. -/
theorem parse_of_ruleList {ts : List Token} {eof : Token} {sheet : Stylesheet}
    (heof : eof.kind = .eof) (hts : ∀ t ∈ ts, t.kind ≠ .eof) (h : RuleList 0 ts sheet) :
    (Stylesheet.parse (ts ++ [eof])).result = .ok sheet := by
  obtain ⟨dr, hrun⟩ := run_ruleList eof h {} rfl rfl []
  rw [parse_append_eof heof hts]
  rw [List.append_nil] at hrun
  rw [hrun, Parser.run]
  rfl

/-- A tree that is returned is the one that a derivation stands for. From the empty state, what is
demanded is a whole list of rules. -/
theorem ruleList_of_parse {ts : List Token} {eof : Token} {sheet : Stylesheet}
    (heof : eof.kind = .eof) (hts : ∀ t ∈ ts, t.kind ≠ .eof)
    (h : (Stylesheet.parse (ts ++ [eof])).result = .ok sheet) : RuleList 0 ts sheet := by
  rw [parse_append_eof heof hts] at h
  obtain ⟨ns, hns, rfl⟩ : ∃ ns, RuleList 0 ts ns ∧ sheet = [] ++ ns := completes_of_run hts h
  exact hns

/-- **The parser accepts exactly the grammar and returns the tree that the grammar gives.** The list
of tokens ends with its only `eof` token. So the grammar is unambiguous: a list of tokens stands for
one tree at most. -/
theorem parse_eq_ok_iff_ruleList (ts : List Token) (eof : Token) (sheet : Stylesheet)
    (heof : eof.kind = .eof) (hts : ∀ t ∈ ts, t.kind ≠ .eof) :
    (Stylesheet.parse (ts ++ [eof])).result = .ok sheet ↔ RuleList 0 ts sheet :=
  ⟨ruleList_of_parse heof hts, parse_of_ruleList heof hts⟩

/-- The tokens of `@media x {a,b{c:(;)d!important}}`: the semicolon in the group is part of the
value, and the mark behind it is not. -/
theorem parse_eq_ok_iff_ruleList_media :
    (Stylesheet.parse ([⟨.atKeyword, "@media", .start⟩, ⟨.whitespace, " ", .start⟩,
        ⟨.ident, "x", .start⟩, ⟨.lbrace, "\x7b", .start⟩, ⟨.ident, "a", .start⟩,
        ⟨.comma, ",", .start⟩, ⟨.ident, "b", .start⟩, ⟨.lbrace, "\x7b", .start⟩,
        ⟨.ident, "c", .start⟩, ⟨.colon, ":", .start⟩, ⟨.lparen, "(", .start⟩,
        ⟨.semicolon, ";", .start⟩, ⟨.rparen, ")", .start⟩, ⟨.ident, "d", .start⟩,
        ⟨.delim, "!", .start⟩, ⟨.ident, "important", .start⟩, ⟨.rbrace, "\x7d", .start⟩,
        ⟨.rbrace, "\x7d", .start⟩] ++ [⟨.eof, [], .start⟩])).result
      = .ok [.block ⟨"media", "x"⟩ [.rule ⟨["a", "b"], [⟨"c", "(;)d", true⟩]⟩] []] := by
  refine (parse_eq_ok_iff_ruleList _ _ _ rfl (by decide)).2 ?_
  -- the semicolon in the brackets is part of the value
  have hvalue := @Decls.declaration ⟨.ident, "c", .start⟩ ⟨.colon, ":", .start⟩ []
    [⟨.lparen, "(", .start⟩, ⟨.semicolon, ";", .start⟩, ⟨.rparen, ")", .start⟩,
      ⟨.ident, "d", .start⟩, ⟨.delim, "!", .start⟩, ⟨.ident, "important", .start⟩] [] []
    rfl (by decide) rfl (by decide) (by decide) .nil
  have hrule := @RuleList.rule 1
    [⟨.ident, "a", .start⟩, ⟨.comma, ",", .start⟩, ⟨.ident, "b", .start⟩] _ []
    ⟨.lbrace, "\x7b", .start⟩ ⟨.rbrace, "\x7d", .start⟩ _ [] (by decide) (by decide) (by decide) rfl
    hvalue rfl .nil
  exact @RuleList.ruleBlock 0 ⟨.atKeyword, "@media", .start⟩ ⟨.lbrace, "\x7b", .start⟩
    ⟨.rbrace, "\x7d", .start⟩ [⟨.whitespace, " ", .start⟩, ⟨.ident, "x", .start⟩] _ [] _ [] rfl
    (by decide) (by decide) (by decide) rfl hrule rfl .nil

end CssHints.Grammar
