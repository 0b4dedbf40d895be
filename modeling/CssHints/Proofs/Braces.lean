import CssHints.Proofs.Cover

/-!
# `CssHints.Proofs.Braces`: braces, and the errors that blame one

A tree is built only from tokens whose braces are balanced. If they are not, the parser may blame a
brace, and `parse_braces` says which one: a closing brace that closes nothing is the first one with
balanced braces in front of it, and an opening brace that is never closed is the innermost such
brace, the one with balanced braces behind it. Every other error points at a token of the list too.

The parser keeps the opening braces of the blocks that it is in (`State.openBraces`). The invariant
is that these are the braces which the tokens read so far leave open, each with balanced tokens
behind it up to the next one (`Unclosed`). A step keeps it (`unclosed_step`), so it holds where a
run stops (`exists_stop_of_run`): behind the last token, or in front of an item that cannot be read.
What an item that cannot be read is blamed for is the subject of the lemmas `blames_of_*`.
-/

set_option autoImplicit false

namespace CssHints

namespace Token

/-! ### Balanced braces -/

/-- How many of the tokens open a block. -/
def openings (ts : List Token) : Nat := ts.countP (·.kind = .lbrace)

/-- How many of the tokens close a block. -/
def closings (ts : List Token) : Nat := ts.countP (·.kind = .rbrace)

/-- The braces among the tokens are balanced: no front part closes more blocks than it opens, and
all in all as many are closed as are opened. -/
structure BraceBalanced (ts : List Token) : Prop where
  front : ∀ pre, pre <+: ts → closings pre ≤ openings pre
  total : openings ts = closings ts

/-- No tokens open nothing. -/
@[simp] theorem openings_nil : openings [] = 0 := rfl

/-- No tokens close nothing. -/
@[simp] theorem closings_nil : closings [] = 0 := rfl

/-- Openings add up. -/
@[simp] theorem openings_append (ts us : List Token) :
    openings (ts ++ us) = openings ts + openings us := List.countP_append

/-- Closings add up. -/
@[simp] theorem closings_append (ts us : List Token) :
    closings (ts ++ us) = closings ts + closings us := List.countP_append

/-- An opening brace adds one to the openings. -/
theorem openings_cons (t : Token) (ts : List Token) :
    openings (t :: ts) = openings ts + if t.kind = .lbrace then 1 else 0 := by
  simp [openings, List.countP_cons]

/-- A closing brace adds one to the closings. -/
theorem closings_cons (t : Token) (ts : List Token) :
    closings (t :: ts) = closings ts + if t.kind = .rbrace then 1 else 0 := by
  simp [closings, List.countP_cons]

/-- The token is no brace. -/
def NoBrace (t : Token) : Prop := t.kind ≠ .lbrace ∧ t.kind ≠ .rbrace

/-- Tokens without braces are balanced. -/
theorem braceBalanced_of_noBrace {ts : List Token} (h : ∀ t ∈ ts, NoBrace t) :
    BraceBalanced ts := by
  have hnone : ∀ us : List Token, (∀ t ∈ us, NoBrace t) → openings us = 0 ∧ closings us = 0 := by
    intro us hus
    rw [openings, closings, List.countP_eq_zero, List.countP_eq_zero]
    exact ⟨fun t ht => by simp [(hus t ht).1], fun t ht => by simp [(hus t ht).2]⟩
  refine ⟨?_, by rw [(hnone ts h).1, (hnone ts h).2]⟩
  intro pre hpre
  rw [(hnone pre fun t ht => h t (hpre.subset ht)).2]
  exact Nat.zero_le _

/-- Balanced tokens in a row are balanced: in front of the second list as many braces are closed as
were opened. -/
theorem BraceBalanced.append {ts us : List Token} (hts : BraceBalanced ts)
    (hus : BraceBalanced us) : BraceBalanced (ts ++ us) := by
  refine ⟨?_, by rw [openings_append, closings_append, hts.total, hus.total]⟩
  intro pre hpre
  -- a front part ends in the first list or goes on into the second
  rcases List.prefix_or_prefix_of_prefix hpre (List.prefix_append ts us) with hin | ⟨more, rfl⟩
  · exact hts.front pre hin
  · have hmore := hus.front more ((List.prefix_append_right_inj ts).1 hpre)
    have htotal := hts.total
    rw [openings_append, closings_append]
    omega

/-- Balanced tokens between two braces are balanced with them. The opening brace is in every front
part but the empty one, so there is something left for the closing brace to close. -/
theorem BraceBalanced.enclose {ts : List Token} (h : BraceBalanced ts) {lb rb : Token}
    (hlb : lb.kind = .lbrace) (hrb : rb.kind = .rbrace) : BraceBalanced (lb :: (ts ++ [rb])) := by
  have hlr : lb.kind ≠ .rbrace := by simp [hlb]
  have hrl : rb.kind ≠ .lbrace := by simp [hrb]
  have htotal := h.total
  refine ⟨?_, ?_⟩
  · intro pre hpre
    cases pre with
    | nil => exact Nat.le_refl _
    | cons t pre =>
        rw [List.cons_prefix_cons] at hpre
        obtain ⟨rfl, hpre⟩ := hpre
        rw [openings_cons, closings_cons, if_pos hlb, if_neg hlr]
        -- a front part reaches the closing brace, or it is a front part of what is enclosed
        rcases List.prefix_concat_iff.1 hpre with rfl | hin
        · rw [openings_append, closings_append, openings_cons, closings_cons, if_neg hrl,
            if_pos hrb, openings_nil, closings_nil]
          omega
        · have := h.front pre hin
          omega
  · rw [openings_cons, closings_cons, openings_append, closings_append, openings_cons,
      closings_cons, if_pos hlb, if_neg hlr, if_neg hrl, if_pos hrb, openings_nil, closings_nil]
    omega

/-- The tokens leave the braces `bs` open, innermost first: behind each there are balanced tokens
up to the next one or to the end. -/
inductive Unclosed : List Token → List Token → Prop
  | none {ts : List Token} : BraceBalanced ts → Unclosed ts []
  | brace {before after bs : List Token} {b : Token} :
      Unclosed before bs → b.kind = .lbrace → BraceBalanced after →
      Unclosed (before ++ b :: after) (b :: bs)

/-- Balanced tokens behind leave open what was open. -/
theorem Unclosed.append {ts us bs : List Token} (h : Unclosed ts bs) (hus : BraceBalanced us) :
    Unclosed (ts ++ us) bs := by
  cases h with
  | none hts => exact .none (hts.append hus)
  | brace hbefore hb hafter =>
      rw [List.append_assoc, List.cons_append]
      exact .brace hbefore hb (hafter.append hus)

/-- An opening brace behind balanced tokens is the innermost one that is open. -/
theorem Unclosed.open {ts us bs : List Token} {b : Token} (h : Unclosed ts bs)
    (hus : BraceBalanced us) (hb : b.kind = .lbrace) : Unclosed (ts ++ (us ++ [b])) (b :: bs) := by
  rw [← List.append_assoc]
  exact .brace (h.append hus) hb (braceBalanced_of_noBrace (by simp))

/-- A closing brace closes the innermost one: what stands between the two is balanced. -/
theorem Unclosed.close {ts bs : List Token} {b rb : Token} (h : Unclosed ts (b :: bs))
    (hrb : rb.kind = .rbrace) : Unclosed (ts ++ [rb]) bs := by
  cases h with
  | brace hbefore hb hafter =>
      rw [List.append_assoc, List.cons_append]
      exact hbefore.append (hafter.enclose hb hrb)

/-- `t` is the first closing brace among the tokens with balanced braces in front of it. -/
def IsFirstStray (ts : List Token) (t : Token) : Prop :=
  ∃ before after, ts = before ++ t :: after ∧ t.kind = .rbrace ∧ BraceBalanced before ∧
    ∀ before' u after', ts = before' ++ u :: after' → u.kind = .rbrace → BraceBalanced before' →
      before.length ≤ before'.length

/-- `t` is the opening brace among the tokens with balanced braces behind it, and there is no
other. -/
def IsInnermostOpen (ts : List Token) (t : Token) : Prop :=
  ∃ before after, ts = before ++ t :: after ∧ t.kind = .lbrace ∧ BraceBalanced after ∧
    ∀ before' u after', ts = before' ++ u :: after' → u.kind = .lbrace → BraceBalanced after' →
      before' = before

/-- Behind balanced tokens a closing brace is the first one that closes nothing: an earlier one has
a brace to close. -/
theorem BraceBalanced.isFirstStray {before after : List Token} {t : Token}
    (h : BraceBalanced before) (ht : t.kind = .rbrace) :
    IsFirstStray (before ++ t :: after) t := by
  refine ⟨before, after, rfl, ht, h, ?_⟩
  intro before' u after' hsplit hu hbalanced
  refine Nat.le_of_not_lt fun hlt => ?_
  -- an earlier one lies in the balanced tokens, and they would close more than they open up to it
  have hfront : before' ++ [u] <+: before := by
    have hboth : before' ++ [u] <+: before ++ t :: after := ⟨after', by simp [hsplit]⟩
    refine List.prefix_of_prefix_length_le hboth (List.prefix_append _ _) ?_
    rw [List.length_append, List.length_singleton]
    exact hlt
  have hle := h.front _ hfront
  have htotal := hbalanced.total
  rw [openings_append, closings_append, openings_cons, closings_cons, if_pos hu,
    if_neg (by simp [hu]), openings_nil, closings_nil] at hle
  omega

/-- What stands between an opening brace and balanced tokens further on, a brace in between, does
not balance it. -/
theorem not_braceBalanced_of_brace {inner after : List Token} {b : Token} (hb : b.kind = .lbrace)
    (hafter : BraceBalanced after) : ¬BraceBalanced (inner ++ b :: after) := by
  intro hall
  have hfront := hall.front inner (List.prefix_append _ _)
  have htotal := hall.total
  have hrest := hafter.total
  rw [openings_append, closings_append, openings_cons, closings_cons, if_pos hb,
    if_neg (by simp [hb])] at htotal
  omega

/-- An opening brace with balanced tokens behind it is the innermost one that is open, and the only
one with balanced tokens behind it. -/
theorem BraceBalanced.isInnermostOpen (before : List Token) {after : List Token} {t : Token}
    (h : BraceBalanced after) (ht : t.kind = .lbrace) :
    IsInnermostOpen (before ++ t :: after) t := by
  refine ⟨before, after, rfl, ht, h, ?_⟩
  intro before' u after' hsplit hu hbalanced
  -- of two different places one lies behind the other, and is not closed there
  rcases List.append_eq_append_iff.1 hsplit with ⟨more, rfl, hmore⟩ | ⟨more, rfl, hmore⟩
  · cases more with
    | nil => simp
    | cons x more =>
        obtain ⟨rfl, rfl⟩ : t = x ∧ after = more ++ u :: after' := by simpa using hmore
        exact absurd h (not_braceBalanced_of_brace hu hbalanced)
  · cases more with
    | nil => simp
    | cons x more =>
        obtain ⟨rfl, rfl⟩ : u = x ∧ after' = more ++ t :: after := by simpa using hmore
        exact absurd hbalanced (not_braceBalanced_of_brace ht h)

/-- The tokens of a run are no braces, since a brace ends a run. -/
theorem noBrace_of_closes {groups : List Kind} {ts : List Token} (h : Grammar.Closes groups ts) :
    ∀ t ∈ ts, NoBrace t := by
  induction ts generalizing groups with
  | nil => simp
  | cons u ts ih =>
      obtain ⟨-, hlbrace, hrbrace, -, hrest⟩ := h
      intro t ht
      rcases List.mem_cons.1 ht with rfl | ht
      · exact ⟨hlbrace, hrbrace⟩
      · exact ih hrest t ht

/-- A gap is no brace. -/
theorem noBrace_of_whitespace {t : Token} (h : t.kind = .whitespace) : NoBrace t := by
  simp [NoBrace, h]

end Token

/-- The fault is a brace that closes nothing, or one that is never closed. -/
def ParseFault.isBrace : ParseFault → Bool
  | .unmatchedBrace | .missingBrace => true
  | _ => false

namespace Parser

open Token (takeRun trackGroups unlessOpen NoBrace BraceBalanced Unclosed braceBalanced_of_noBrace)
open Grammar (IsGap)

/-! ### A step keeps the open braces -/

/-- The opening braces of the blocks that are open, innermost first. -/
def State.openBraces (st : State) : List Token :=
  st.block.toList.map OpenBlock.brace ++ st.lists.map OpenList.brace

/-- In a block of declarations its brace is the innermost one. -/
theorem State.openBraces_of_block {st : State} {b : OpenBlock} (h : st.block = some b) :
    st.openBraces = b.brace :: st.lists.map OpenList.brace := by
  simp [openBraces, h]

/-- Outside such a block the braces are those of the open at-rules. -/
theorem State.openBraces_of_none {st : State} (h : st.block = none) :
    st.openBraces = st.lists.map OpenList.brace := by
  simp [openBraces, h]

section Step

variable {eof : Token} {st st' : State} {ts rest seen : List Token}

/-- A declaration holds no brace, and reading it opens and closes nothing. Its tokens are the
property, gaps, the colon, a closed run and perhaps a semicolon; the run stops in front of any
brace, so none of these is one. -/
theorem exists_item_of_readDeclaration {property : Token} {b : OpenBlock}
    (hts : ∀ u ∈ ts, u.kind ≠ .eof) (hb : st.block = some b) (hk : property.kind = .ident)
    (h : readDeclaration eof st b property ts = .ok (st', rest)) :
    ∃ item, property :: ts = item ++ rest ∧ (∀ t ∈ item, NoBrace t) ∧
      st'.openBraces = st.openBraces := by
  obtain ⟨colon, run, tail, hskip, hcolon, hrun, rfl, hlists, -, hblock⟩ :=
    Grammar.readDeclaration_cases hb h
  -- the gaps in front of the colon
  obtain ⟨spaces, hspaces, hblank⟩ : ∃ spaces, ts = spaces ++ colon :: (run ++ tail) ∧
      ∀ t ∈ spaces, t.kind = .whitespace := by
    refine ⟨ts.takeWhile (·.kind = .whitespace), ?_, fun t => Grammar.kind_of_mem_takeWhile⟩
    rw [← hskip]
    exact List.takeWhile_append_dropWhile.symm
  have hinner : ∀ t ∈ run ++ tail, t.kind ≠ .eof := by
    intro t ht
    refine hts t ?_
    rw [hspaces]
    exact List.mem_append_right _ (List.mem_cons_of_mem _ ht)
  have hclosed := (Grammar.closes_of_takeRun hinner hrun).1
  -- a semicolon behind the value belongs to the declaration
  obtain ⟨semi, hsemi, hend⟩ : ∃ semi, tail = semi ++ skipSemicolon tail ∧
      ∀ t ∈ semi, t.kind = .semicolon := by
    cases tail with
    | nil => exact ⟨[], rfl, by simp⟩
    | cons t tail =>
        by_cases ht : t.kind = .semicolon
        · exact ⟨[t], by simp [skipSemicolon, ht], by simpa using ht⟩
        · exact ⟨[], by simp [skipSemicolon, ht], by simp⟩
  refine ⟨property :: (spaces ++ colon :: (run ++ semi)), ?_, ?_, ?_⟩
  · rw [hspaces]
    conv => lhs; rw [hsemi]
    simp
  · intro t ht
    simp only [List.mem_cons, List.mem_append] at ht
    rcases ht with rfl | ht | rfl | ht | ht
    · simp [NoBrace, hk]
    · exact Token.noBrace_of_whitespace (hblank t ht)
    · simp [NoBrace, hcolon]
    · exact Token.noBrace_of_closes hclosed t ht
    · simp [NoBrace, hend t ht]
  · rw [State.openBraces_of_block hblock, State.openBraces_of_block hb, hlists]

/-- **A step** reads an item, and the braces that are open behind it are those of the state. There
is one case for each item: a closing brace closes the innermost block, the head of an at-rule or a
rule with a brace at its end opens one, and everything else is balanced. -/
theorem unclosed_step {t : Token} (h : Unclosed seen st.openBraces)
    (hts : ∀ u ∈ t :: ts, u.kind ≠ .eof) (hstep : Parser.step eof st t ts = .ok (st', rest)) :
    ∃ item, t :: ts = item ++ rest ∧ Unclosed (seen ++ item) st'.openBraces := by
  have htail : ∀ u ∈ ts, u.kind ≠ .eof := fun u hu => hts u (List.mem_cons_of_mem _ hu)
  rcases Grammar.step_cases hstep with ⟨hgap, rfl, rfl⟩ | ⟨b, hb, hrbrace, rfl, rfl⟩ |
    ⟨b, hb, hident, hread⟩ | ⟨o, os, hb, hrbrace, hlists, rfl, rfl⟩ | ⟨hb, hkeyword, hread⟩ |
    ⟨hb, -, -, -, hread⟩
  · refine ⟨[t], rfl, h.append (braceBalanced_of_noBrace ?_)⟩
    rcases hgap with hk | hk <;> simp [NoBrace, hk]
  · rw [State.openBraces_of_block hb] at h
    exact ⟨[t], rfl, by simpa [State.openBraces, State.closeBlock] using h.close hrbrace⟩
  · obtain ⟨item, hitem, hfree, hsame⟩ := exists_item_of_readDeclaration htail hb hident hread
    rw [hsame]
    exact ⟨item, hitem, h.append (braceBalanced_of_noBrace hfree)⟩
  · rw [State.openBraces_of_none hb, hlists, List.map_cons] at h
    exact ⟨[t], rfl, by simpa [State.openBraces, hb] using h.close hrbrace⟩
  · obtain ⟨pre, u, hrun, hcases⟩ := Grammar.readAtRule_cases hread
    have hclosed := (Grammar.closes_of_takeRun htail hrun).1
    have happ := Token.takeRun_append hrun
    -- the keyword and the prelude hold no brace
    have hfree : BraceBalanced (t :: pre) := by
      refine braceBalanced_of_noBrace fun v hv => ?_
      rcases List.mem_cons.1 hv with rfl | hv
      · simp [NoBrace, hkeyword]
      · exact Token.noBrace_of_closes hclosed v hv
    refine ⟨t :: pre ++ [u], by simp [← happ], ?_⟩
    rw [State.openBraces_of_none hb] at h
    rcases hcases with ⟨hsemi, -, rfl⟩ | ⟨hlbrace, -, -, rfl⟩ | ⟨hlbrace, -, rfl⟩
    · have hu : BraceBalanced [u] := braceBalanced_of_noBrace (by simp [NoBrace, hsemi])
      simpa [State.openBraces, State.addNode, hb] using h.append (hfree.append hu)
    · simpa [State.openBraces, State.openList, hb] using h.open hfree hlbrace
    · simpa [State.openBraces, State.openBlock] using h.open hfree hlbrace
  · obtain ⟨pre, u, hrun, hlbrace, -, rfl⟩ := Grammar.readRule_cases hread
    have hclosed := (Grammar.closes_of_takeRun hts hrun).1
    have hfree : BraceBalanced pre :=
      braceBalanced_of_noBrace (Token.noBrace_of_closes hclosed)
    refine ⟨pre ++ [u], by simp [← Token.takeRun_append hrun], ?_⟩
    rw [State.openBraces_of_none hb] at h
    simpa [State.openBraces, State.openBlock] using h.open hfree hlbrace

/-- **A run** stops behind the last token, or in front of an item that cannot be read. The tokens up
to there leave open what the state holds open. The induction is on the run; the tokens that were
read before are carried along. -/
theorem exists_stop_of_run (eof : Token) (h : Unclosed seen st.openBraces)
    (hts : ∀ u ∈ ts, u.kind ≠ .eof) :
    ∃ read rest st', ts = read ++ rest ∧ Unclosed (seen ++ read) st'.openBraces ∧
      (rest = [] ∧ (run eof st ts).result = st'.finish ∨
        ∃ t us e, rest = t :: us ∧ Parser.step eof st' t us = .error e ∧
          (run eof st ts).result = .error e) := by
  fun_induction run eof st ts generalizing seen with
  | case1 st => exact ⟨[], [], st, rfl, by simpa using h, .inl ⟨rfl, rfl⟩⟩
  | case2 st t ts e hstep =>
      exact ⟨[], t :: ts, st, rfl, by simpa using h, .inr ⟨t, ts, e, rfl, hstep, rfl⟩⟩
  | case3 st t ts st' rest hstep ih =>
      obtain ⟨item, hitem, hseen⟩ := unclosed_step h hts hstep
      have hrest : ∀ u ∈ rest, u.kind ≠ .eof := fun u hu => hts u (by simp [hitem, hu])
      obtain ⟨read, out, st₁, rfl, hread, hstop⟩ := ih hseen hrest
      exact ⟨item ++ read, out, st₁, by simp [hitem], by simpa using hread, hstop⟩

end Step

/-! ### What an error points at -/

/-- The error is about no brace that is missing or too much, and it points at one of the tokens. -/
structure Blames (e : ParseError) (ts : List Token) : Prop where
  other : e.fault.isBrace = false
  place : ∃ t ∈ ts, e.loc = some t.loc

/-- An error that points at one of some tokens points at one of more tokens. -/
theorem Blames.mono {e : ParseError} {ts us : List Token} (h : Blames e ts) (hsub : ts ⊆ us) :
    Blames e us := by
  obtain ⟨t, ht, hloc⟩ := h.place
  exact ⟨h.other, t, hsub ht, hloc⟩

/-- An error at a token points at that token. -/
theorem blames_atToken {fault : ParseFault} {t : Token} {ts : List Token} (ht : t ∈ ts)
    (hother : fault.isBrace = false) : Blames (fault.atToken t) ts := ⟨hother, t, ht, rfl⟩

section Errors

variable {eof : Token} {st : State} {ts : List Token} {e : ParseError}

/-- A run that ends with an open group points at the bracket of that group. -/
theorem blames_of_unlessOpen {α : Type} {place : RunPlace} {groups : List Token} {a : α}
    (h : unlessOpen place groups a = .error e) : Blames e groups := by
  unfold unlessOpen at h
  split at h
  · cases h
  · cases h
    exact blames_atToken List.mem_cons_self rfl

/-- The brackets that are open are tokens that were read, so an error that points at one points into
the run. -/
theorem trackGroups_subset (groups : List Token) (t : Token) :
    trackGroups groups t ⊆ t :: groups := by
  unfold trackGroups
  split
  · exact List.Subset.refl _
  · split
    · exact List.nil_subset _
    · split
      · exact fun u hu => List.mem_cons_of_mem _ (List.mem_cons_of_mem _ hu)
      · exact List.subset_cons_self _ _

/-- A run that cannot be read points at a bracket that is open or at a brace in it. The brackets
that were open before the run count as well, since the induction passes them on from token to
token. -/
theorem blames_of_takeRun {place : RunPlace} {groups : List Token}
    (h : takeRun place groups ts = .error e) : Blames e (groups ++ ts) := by
  induction ts generalizing groups with
  | nil => simpa using blames_of_unlessOpen h
  | cons t ts ih =>
      -- where the run may stop, only an open group is a fault
      have hopen {a : List Token × List Token} (h : unlessOpen place groups a = .error e) :
          Blames e (groups ++ t :: ts) :=
        (blames_of_unlessOpen h).mono (List.subset_append_left _ _)
      unfold takeRun at h
      split at h
      · exact hopen h
      split at h
      · cases h
      split at h
      · split at h
        · exact hopen h
        · cases h
          exact blames_atToken (by simp) rfl
      · cases hrec : takeRun place (trackGroups groups t) ts with
        | ok p => simp [hrec, Except.map] at h
        | error e' =>
            obtain rfl : e' = e := by simpa [hrec, Except.map] using h
            refine (ih hrec).mono fun u hu => ?_
            rcases List.mem_append.1 hu with hu | hu
            · rcases List.mem_cons.1 (trackGroups_subset groups t hu) with rfl | hu
              · simp
              · exact List.mem_append_left _ hu
            · simp [hu]

/-- The head of an at-rule that cannot be read points at its keyword, at the token that ends it, or
at a token of its prelude. -/
theorem blames_of_readAtRule {keyword : Token} (h : readAtRule st keyword ts = .error e) :
    Blames e (keyword :: ts) := by
  unfold readAtRule at h
  dsimp only at h
  split at h
  · rename_i e' hrun
    cases h
    exact (blames_of_takeRun hrun).mono (by simp)
  rename_i run rest hrun
  have happ := Token.takeRun_append hrun
  split at h
  · cases h
    exact blames_atToken List.mem_cons_self rfl
  split at h
  · cases h
    exact blames_atToken List.mem_cons_self rfl
  rename_i t rest
  have ht : t ∈ keyword :: ts := by simp [← happ]
  -- the token behind the prelude is blamed if it does not fit the name, else the name itself
  split at h
  · split at h
    · cases h
    · cases h
      exact blames_atToken ht rfl
  split at h
  · cases h
    exact blames_atToken List.mem_cons_self rfl
  split at h
  · cases h
    exact blames_atToken ht rfl
  split at h
  · split at h
    · cases h
      exact blames_atToken List.mem_cons_self rfl
    · cases h
  · cases h

/-- The selectors of a rule that cannot be read point at one of their tokens, at the token that ends
them, or at the end of the source. -/
theorem blames_of_readRule {start : Token} (h : readRule eof st start ts = .error e) :
    Blames e (start :: ts ++ [eof]) := by
  unfold readRule at h
  split at h
  · rename_i e' hrun
    cases h
    exact (blames_of_takeRun hrun).mono (by simp)
  · cases h
    exact blames_atToken (by simp) rfl
  rename_i run t rest hrun
  -- the run ended in front of `t`, so this token stands among those of the rule
  have ht : t ∈ start :: ts := by simp [← Token.takeRun_append hrun]
  split at h
  · cases h
    exact blames_atToken (List.mem_append_left _ ht) rfl
  split at h
  · cases h
    exact blames_atToken (by simp) rfl
  · cases h

/-- A declaration that cannot be read points at one of its tokens, at the token where its colon
should be, or at the end of the source. -/
theorem blames_of_readDeclaration {b : OpenBlock} {property : Token}
    (h : readDeclaration eof st b property ts = .error e) :
    Blames e (property :: ts ++ [eof]) := by
  unfold readDeclaration at h
  split at h
  · cases h
    exact blames_atToken (by simp) rfl
  rename_i t us hskip
  -- spaces in front of the colon are skipped, and the errors lie behind them
  have hsub : t :: us ⊆ property :: ts ++ [eof] := by
    intro u hu
    rw [← hskip] at hu
    simp [(skipSpace_suffix ts).subset hu]
  split at h
  · cases h
    exact blames_atToken (hsub List.mem_cons_self) rfl
  split at h
  · rename_i e' hrun
    cases h
    exact (blames_of_takeRun hrun).mono fun u hu => hsub (List.mem_cons_of_mem _ hu)
  · dsimp only at h
    split at h <;> cases h

/-- An item that cannot be read is a closing brace outside blocks, or it is blamed for something
else. -/
theorem step_eq_error {t : Token} (h : step eof st t ts = .error e) :
    e = ParseFault.unmatchedBrace.atToken t ∧ t.kind = .rbrace ∧ st.openBraces = [] ∨
      Blames e (t :: ts ++ [eof]) := by
  unfold step at h
  split at h
  · cases h
  split at h
  · split at h
    · cases h
    split at h
    · exact .inr (blames_of_readDeclaration h)
    · cases h
      exact .inr (blames_atToken (by simp) rfl)
  · -- outside blocks a closing brace needs an at-rule to close
    rename_i hblock
    split at h
    · rename_i hrbrace
      split at h
      · rename_i hlists
        cases h
        exact .inl ⟨rfl, hrbrace, by simp [State.openBraces, hblock, hlists]⟩
      · cases h
    split at h
    · exact .inr ((blames_of_readAtRule h).mono (List.subset_append_left _ _))
    · exact .inr (blames_of_readRule h)

end Errors

/-- At the end of the tokens the innermost open brace is blamed, if there is one. A block of
declarations lies inside all open lists, so its brace comes first. -/
theorem State.finish_eq (st : State) :
    st.openBraces = [] ∧ st.finish = .ok st.nodes ∨
      ∃ b bs, st.openBraces = b :: bs ∧ st.finish = .error (ParseFault.missingBrace.atToken b) := by
  unfold State.finish
  split
  · rename_i b hb
    exact .inr ⟨_, _, State.openBraces_of_block hb, rfl⟩
  · rename_i o os hb hlists
    exact .inr ⟨_, _, by rw [State.openBraces_of_none hb, hlists, List.map_cons], rfl⟩
  · rename_i hb hlists
    exact .inl ⟨by rw [State.openBraces_of_none hb, hlists, List.map_nil], rfl⟩

end Parser

/-! ### The whole list -/

/-- The words of an error tell whether it is about a brace that closes nothing. Two characters of
the message are enough to tell it from all others. -/
theorem ParseFault.eq_unmatchedBrace {fault : ParseFault}
    (h : fault.message = "Unmatched closing brace") : fault = .unmatchedBrace := by
  have hfirst : fault.message.head? = some 'U' := by rw [h]; rfl
  have hthird : fault.message[2]? = some 'm' := by rw [h]; rfl
  cases fault with
  | unmatchedBrace => rfl
  | blockRequired _ | blockRefused _ => cases hfirst
  | _ => cases hthird

/-- The words of an error tell whether it is about a brace that is never closed. -/
theorem ParseFault.eq_missingBrace {fault : ParseFault}
    (h : fault.message = "Missing closing brace for block") : fault = .missingBrace := by
  have hfirst : fault.message.head? = some 'M' := by rw [h]; rfl
  cases fault with
  | missingBrace => rfl
  | _ => cases hfirst

open Token (BraceBalanced Unclosed IsFirstStray IsInnermostOpen braceBalanced_of_noBrace tokenize)

/-- What the parser says of the braces among the tokens `ts`. -/
structure BraceReport (ts : List Token) (result : Except ParseError Stylesheet) : Prop where
  /-- A tree is built from balanced braces only. -/
  balanced : ∀ sheet, result = .ok sheet → BraceBalanced ts
  unmatched : ∀ e, result = .error e → e.fault.message = "Unmatched closing brace" →
    ∃ t, IsFirstStray ts t ∧ e.loc = some t.loc
  missing : ∀ e, result = .error e → e.fault.message = "Missing closing brace for block" →
    ∃ t, IsInnermostOpen ts t ∧ e.loc = some t.loc
  place : ∀ e, result = .error e → ∃ t ∈ ts, e.loc = some t.loc

section Report

variable {ts : List Token}

/-- A tree from balanced braces is a right report. -/
theorem BraceReport.of_balanced (h : BraceBalanced ts) (sheet : Stylesheet) :
    BraceReport ts (.ok sheet) :=
  ⟨fun _ _ => h, nofun, nofun, nofun⟩

/-- So is an error at the first brace that closes nothing: its words are those for such a brace, and
not those for one that is left open. -/
theorem BraceReport.of_isFirstStray {t : Token} (h : IsFirstStray ts t) :
    BraceReport ts (.error (ParseFault.unmatchedBrace.atToken t)) := by
  refine ⟨nofun, ?_, ?_, ?_⟩
  · rintro e ⟨⟩ -
    exact ⟨t, h, rfl⟩
  · rintro e ⟨⟩ hmessage
    cases ParseFault.eq_missingBrace hmessage
  · rintro e ⟨⟩
    obtain ⟨before, after, rfl, -⟩ := h
    exact ⟨t, by simp, rfl⟩

/-- So is an error at the innermost brace that is open: its words are those for a brace that is left
open. -/
theorem BraceReport.of_isInnermostOpen {t : Token} (h : IsInnermostOpen ts t) :
    BraceReport ts (.error (ParseFault.missingBrace.atToken t)) := by
  refine ⟨nofun, ?_, ?_, ?_⟩
  · rintro e ⟨⟩ hmessage
    cases ParseFault.eq_unmatchedBrace hmessage
  · rintro e ⟨⟩ -
    exact ⟨t, h, rfl⟩
  · rintro e ⟨⟩
    obtain ⟨before, after, rfl, -⟩ := h
    exact ⟨t, by simp, rfl⟩

/-- So is any other error at a token, since its words are not those about braces. -/
theorem BraceReport.of_blames {e : ParseError} (h : Parser.Blames e ts) :
    BraceReport ts (.error e) := by
  have hother := h.other
  refine ⟨nofun, ?_, ?_, ?_⟩
  · rintro e ⟨⟩ hmessage
    rw [ParseFault.eq_unmatchedBrace hmessage] at hother
    cases hother
  · rintro e ⟨⟩ hmessage
    rw [ParseFault.eq_missingBrace hmessage] at hother
    cases hother
  · rintro e ⟨⟩
    exact h.place

end Report

/-- **Errors about braces point at the right one.** Only balanced braces give a tree. A brace that
closes nothing is the first one behind balanced braces, and one that is never closed is the one in
front of balanced braces. Every error points at a token. -/
theorem parse_braces {source : Text} {ts : List Token} (h : tokenize source = .ok ts) :
    BraceReport ts (Stylesheet.parse ts).result := by
  obtain ⟨body, rfl, hbody⟩ := (Token.lies_of_tokenize h).exists_eof
  rw [Grammar.parse_append_eof rfl hbody]
  have hstart : Unclosed [] (Parser.State.openBraces {}) :=
    .none (braceBalanced_of_noBrace (by simp))
  have hend : BraceBalanced [⟨.eof, [], .after .start source⟩] :=
    braceBalanced_of_noBrace (by simp [Token.NoBrace])
  obtain ⟨read, rest, st, rfl, hread, ⟨rfl, hresult⟩ | ⟨t, us, e, rfl, hstep, hresult⟩⟩ :=
    Parser.exists_stop_of_run ⟨.eof, [], .after .start source⟩ hstart hbody
  · -- all tokens were read, and what is still open decides
    rw [List.nil_append] at hread
    rw [hresult, List.append_nil]
    rcases st.finish_eq with ⟨hopen, hfinish⟩ | ⟨b, bs, hopen, hfinish⟩
    · rw [hopen] at hread
      cases hread with
      | none hbalanced =>
          rw [hfinish]
          exact BraceReport.of_balanced (hbalanced.append hend) st.nodes
    · rw [hopen] at hread
      cases hread with
      | @brace before after _ _ _ hb hafter =>
          have hinner := (hafter.append hend).isInnermostOpen before hb
          rw [hfinish, List.append_assoc, List.cons_append]
          exact BraceReport.of_isInnermostOpen hinner
  · -- the item at `t` cannot be read
    rw [hresult, List.append_assoc, List.cons_append]
    rcases Parser.step_eq_error hstep with ⟨rfl, hrbrace, hopen⟩ | hblames
    · rw [hopen] at hread
      cases hread with
      | none hbalanced =>
          rw [List.nil_append] at hbalanced
          exact BraceReport.of_isFirstStray (hbalanced.isFirstStray hrbrace)
    · exact BraceReport.of_blames (hblames.mono (List.subset_append_right _ _))

/-- In `@media x{a{b:c}` the outer brace is blamed, since the inner block is closed. -/
theorem parse_braces_media :
    ∃ ts, tokenize "@media x\x7ba\x7bb:c\x7d".toList = .ok ts ∧
      (Stylesheet.parse ts).result = .error ⟨.missingBrace, some ⟨8, 1, 9⟩⟩ ∧
      ∃ t, IsInnermostOpen ts t ∧ some ⟨8, 1, 9⟩ = some t.loc := by
  have htokens : tokenize "@media x\x7ba\x7bb:c\x7d".toList = .ok
      ([⟨.atKeyword, "@media".toList, ⟨0, 1, 1⟩⟩, Token.space ⟨6, 1, 7⟩, ⟨.ident, ['x'], ⟨7, 1, 8⟩⟩,
        ⟨.lbrace, ['\x7b'], ⟨8, 1, 9⟩⟩, ⟨.ident, ['a'], ⟨9, 1, 10⟩⟩,
        ⟨.lbrace, ['\x7b'], ⟨10, 1, 11⟩⟩, ⟨.ident, ['b'], ⟨11, 1, 12⟩⟩,
        ⟨.colon, [':'], ⟨12, 1, 13⟩⟩, ⟨.ident, ['c'], ⟨13, 1, 14⟩⟩,
        ⟨.rbrace, ['\x7d'], ⟨14, 1, 15⟩⟩] ++ [⟨.eof, [], ⟨15, 1, 16⟩⟩]) :=
    Token.tokenize_eq_ok_iff.2 (by decide +kernel)
  have hstep {eof t : Token} {st st' : Parser.State} {us rest : List Token}
      {r : Except ParseError Stylesheet} (h : Parser.step eof st t us = .ok (st', rest))
      (hrest : (Parser.run eof st' rest).result = r) :
      (Parser.run eof st (t :: us)).result = r := by
    rw [Grammar.run_cons_of_step h, hrest]
  have hreport := parse_braces htokens
  refine ⟨_, htokens, (fun hresult => ⟨hresult, hreport.missing _ hresult rfl⟩) ?_⟩
  rw [Grammar.parse_append_eof rfl (by decide)]
  -- four items: the head of the at-rule, the head of the rule, its declaration and its brace
  refine hstep rfl (hstep rfl (hstep rfl (hstep rfl ?_)))
  rw [Parser.run]
  rfl

end CssHints
