import CssHints.Proofs.Chunk

/-!
# `CssHints.Proofs.Cover`: the tokens of a source lie along it

The tokens of a source, spaces and the end apart, are slices of the source, one behind the other,
and what is left of the source between them is blanks and comments. `tokenize_covers` says so by
the places of the tokens: where each token stands, what stands there in the source, and what the
stretches between the tokens are made of.

The argument goes along the source with a relation of its own, `Lies`: tokens lie along a text if
the text is a gap, a lexeme, a gap, a lexeme and so on, and each token stands where its part of the
text starts. A gap has at most one space, and it has one if there is a blank in it (`Gap`). What
the tokenizer makes of pieces lies along their text (`lies_ofPieces`), and every fact about places
is an induction on `Lies`.
-/

set_option autoImplicit false

namespace CssHints

namespace Location

/-- The line is one more than the number of line feeds before the place. -/
theorem line_after (l : Location) (s : Text) : (l.after s).line = l.line + s.count '\n' := by
  induction s generalizing l with
  | nil => simp
  | cons c s ih =>
      rw [after_cons, ih, next]
      by_cases hc : c = '\n'
      · simp [hc]
        omega
      · simp [hc]

/-- The column goes on from the column of the place, or from one behind the last line feed. The two
cases are told apart by whether the text has a line feed. -/
theorem column_after (l : Location) (s : Text) :
    '\n' ∉ s ∧ (l.after s).column = l.column + s.length ∨
      ∃ k, 0 < k ∧ k ≤ s.length ∧ s[k - 1]? = some '\n' ∧ '\n' ∉ s.drop k ∧
        (l.after s).column = s.length - k + 1 := by
  induction s generalizing l with
  | nil => exact .inl (by simp)
  | cons c s ih =>
      rw [after_cons]
      rcases ih (l.next c) with ⟨hfree, hcolumn⟩ | ⟨k, hpos, hle, hfeed, hfree, hcolumn⟩
      · -- no line feed behind this character, so it is the last one if it is one
        by_cases hc : c = '\n'
        · refine .inr ⟨1, by omega, by simp, by simp [hc], by simpa using hfree, ?_⟩
          rw [hcolumn, next, if_pos hc, List.length_cons]
          dsimp only
          omega
        · refine .inl ⟨by simpa [Ne.symm hc] using hfree, ?_⟩
          rw [hcolumn, next, if_neg hc, List.length_cons]
          dsimp only
          omega
      · refine .inr ⟨k + 1, by omega, by simpa using hle, ?_, by simpa using hfree, ?_⟩
        · obtain ⟨j, rfl⟩ := Nat.exists_eq_succ_of_ne_zero (Nat.ne_of_gt hpos)
          simpa using hfeed
        · rw [hcolumn, List.length_cons]
          omega

end Location

namespace Token

/-! ### What stands between tokens -/

/-- The text is a single blank. -/
def IsBlankPart (p : Text) : Prop := ∃ c, p = [c] ∧ isBlank c = true

/-- The text is a complete comment, which ends at its first end mark. -/
def IsComment (p : Text) : Prop :=
  ∃ body, p = ['/', '*'] ++ body ++ ['*', '/'] ∧ ¬['*', '/'] <:+: body

/-- The text between two tokens, at `loc`, is made up of blanks and complete comments. It has at
most one space, which starts with one of these parts, and it has one if there is a blank. -/
structure Gap (loc : Location) (s : Text) (spaces : List Token) (parts : List Text) : Prop where
  text : s = parts.flatten
  each : ∀ p ∈ parts, IsBlankPart p ∨ IsComment p
  atMostOne : spaces.length ≤ 1
  ofBlank : (∃ p ∈ parts, IsBlankPart p) → spaces.length = 1
  starts : ∀ t ∈ spaces, ∃ before p behind, parts = before ++ p :: behind ∧
    t = space (loc.after before.flatten)

/-- The tokens lie along a text that starts at `loc`: in turn a gap with its space and a lexeme, and
at last the end. -/
inductive Lies : Location → Text → List Token → Prop
  | ending {loc : Location} {gap : Text} {spaces : List Token} {parts : List Text} :
      Gap loc gap spaces parts → Lies loc gap (spaces ++ [⟨.eof, [], loc.after gap⟩])
  | lexeme {loc : Location} {gap : Text} {spaces : List Token} {parts : List Text} {k : Kind}
      {v s : Text} {ts : List Token} :
      Gap loc gap spaces parts → k ≠ .whitespace → k ≠ .eof → v ≠ [] →
      Lies ((loc.after gap).after v) s ts →
      Lies loc (gap ++ (v ++ s)) (spaces ++ ⟨k, v, loc.after gap⟩ :: ts)

/-! ### Gaps -/

section Gaps

variable {loc : Location} {s : Text} {spaces : List Token} {parts more : List Text}

/-- No text is a gap without a space. -/
theorem Gap.nil (loc : Location) : Gap loc [] [] [] := by
  refine ⟨rfl, by simp, by simp, ?_, by simp⟩
  rintro ⟨p, hp, -⟩
  cases hp

/-- The space of a gap is a space. -/
theorem Gap.kind (h : Gap loc s spaces parts) {t : Token} (ht : t ∈ spaces) :
    t.kind = .whitespace := by
  obtain ⟨_, _, _, _, rfl⟩ := h.starts t ht
  rfl

/-- A gap goes on with further blanks and comments. If there is a blank among them, the gap must
have its space already. -/
theorem Gap.append (h : Gap loc s spaces parts) (hmore : ∀ p ∈ more, IsBlankPart p ∨ IsComment p)
    (hblank : (∃ p ∈ more, IsBlankPart p) → spaces.length = 1) :
    Gap loc (s ++ more.flatten) spaces (parts ++ more) := by
  refine ⟨by rw [h.text, List.flatten_append], ?_, h.atMostOne, ?_, ?_⟩
  · intro p hp
    rcases List.mem_append.1 hp with hp | hp
    · exact h.each p hp
    · exact hmore p hp
  · rintro ⟨p, hp, hpart⟩
    rcases List.mem_append.1 hp with hp | hp
    · exact h.ofBlank ⟨p, hp, hpart⟩
    · exact hblank ⟨p, hp, hpart⟩
  · intro t ht
    obtain ⟨before, p, behind, rfl, hplace⟩ := h.starts t ht
    exact ⟨before, p, behind ++ more, by simp, hplace⟩

/-- The first space of a gap starts with the parts that come next. Comments that left nothing may
stand in front of it, and these belong to the gap as well. -/
theorem Gap.append_space (h : Gap loc s [] parts) (hne : more ≠ [])
    (hmore : ∀ p ∈ more, IsBlankPart p ∨ IsComment p) :
    Gap loc (s ++ more.flatten) [space (loc.after s)] (parts ++ more) := by
  obtain ⟨q, qs, rfl⟩ := List.exists_cons_of_ne_nil hne
  refine ⟨by rw [h.text, List.flatten_append], ?_, by simp, by simp, ?_⟩
  · intro p hp
    rcases List.mem_append.1 hp with hp | hp
    · exact h.each p hp
    · exact hmore p hp
  · intro t ht
    exact ⟨parts, q, qs, rfl, by rw [List.mem_singleton.1 ht, h.text]⟩

end Gaps

/-! ### The pieces of a source -/

/-- The piece has the form of a piece that was read. -/
def Piece.IsRead : Piece → Prop
  | .blanks w => w ≠ [] ∧ ∀ c ∈ w, isBlank c = true
  | .comment w => IsComment w
  | .lexeme k v => v ≠ [] ∧ k ≠ .whitespace ∧ k ≠ .eof

/-- A comment is taken up to its first end mark. What stands before the mark holds no other one; the
star of the opening mark is not part of it. -/
theorem exists_of_takeComment {s b r : Text} (h : takeComment s = some (b, r)) :
    ∃ body, b = body ++ ['*', '/'] ∧ ¬['*', '/'] <:+: body := by
  fun_induction takeComment s generalizing b r with
  | case1 => cases h
  | case2 c s hc =>
      cases h
      exact ⟨[], by rw [hc.1]; rfl, by simp⟩
  | case3 c s hc ih =>
      obtain ⟨q, hq, he⟩ := Option.map_eq_some_iff.1 h
      cases he
      obtain ⟨body, hbody, hfree⟩ := ih hq
      refine ⟨c :: body, by rw [hbody]; rfl, ?_⟩
      rw [List.infix_cons_iff, not_or]
      refine ⟨?_, hfree⟩
      -- an end mark at the start would have been taken
      rintro ⟨u, hu⟩
      obtain ⟨rfl, rfl⟩ : '*' = c ∧ '/' :: u = body := by simpa using hu
      refine hc ⟨rfl, ?_⟩
      rw [← takeComment_append hq, hbody]
      rfl

/-- A comment that was read is a complete one. -/
theorem isComment_of_next {c : Char} {s w rest : Text} (h : next c s = .ok (.comment w, rest)) :
    IsComment w := by
  obtain ⟨-, t, body, -, rfl, hbody⟩ := of_next_comment h
  obtain ⟨inner, rfl, hfree⟩ := exists_of_takeComment hbody
  exact ⟨inner, rfl, hfree⟩

/-- Each piece of a source has the form of a piece that was read. -/
theorem isRead_of_mem_cut {s : Text} {p : Piece} (hp : p ∈ (cut s).pieces) : p.IsRead := by
  obtain ⟨c, t, rest, hnext⟩ := next_of_mem_cut hp
  cases p with
  | blanks w =>
      obtain ⟨u, rfl, -, hblank, -⟩ := blanks_of_next hnext
      exact ⟨by simp, hblank⟩
  | comment w => exact isComment_of_next hnext
  | lexeme k v => exact ⟨next_text_ne_nil hnext, kind_of_mem_cut hp⟩

/-- The tokens of pieces lie along their text. The induction carries the gap in front of the pieces:
its parts so far, and its space if it has one already. The class `last` tells the tokenizer the
same, so the two are tied together. -/
theorem lies_ofPieces {ps : List Piece} (hps : ∀ p ∈ ps, p.IsRead) {loc : Location} {gap : Text}
    {spaces : List Token} {parts : List Text} (hgap : Gap loc gap spaces parts)
    {last : Option Kind} (hlast : last = some .whitespace ↔ spaces ≠ []) :
    Lies loc (gap ++ ps.flatMap Piece.text)
      (spaces ++ (ofPieces last (loc.after gap) ps ++
        [⟨.eof, [], loc.after (gap ++ ps.flatMap Piece.text)⟩])) := by
  induction ps generalizing loc gap spaces parts last with
  | nil => simpa [ofPieces] using Lies.ending hgap
  | cons p ps ih =>
      have ih := @ih fun q hq => hps q (List.mem_cons_of_mem _ hq)
      have hp := hps p List.mem_cons_self
      cases p with
      | blanks w =>
          obtain ⟨hne, hw⟩ := hp
          -- each blank of the run is a part of the gap by itself
          have hflat : w = (w.map fun c => [c]).flatten := by
            rw [← List.flatMap_def, List.flatMap_singleton']
          have hparts : ∀ q ∈ w.map fun c => [c], IsBlankPart q := by
            intro q hq
            obtain ⟨c, hc, rfl⟩ := List.mem_map.1 hq
            exact ⟨c, rfl, hw c hc⟩
          rw [ofPieces]
          split
          · -- the gap has its space already
            rename_i hws
            have hone : spaces.length = 1 := by
              have := List.length_pos_iff.2 (hlast.1 hws)
              have := hgap.atMostOne
              omega
            have hgap' := hgap.append (fun q hq => .inl (hparts q hq)) fun _ => hone
            rw [← hflat] at hgap'
            simpa [Piece.text] using ih hgap' hlast
          · rename_i hws
            obtain rfl : spaces = [] := by simpa [hws] using hlast
            have hgap' := hgap.append_space (by simpa using hne) fun q hq => .inl (hparts q hq)
            rw [← hflat] at hgap'
            simpa [Piece.text] using ih hgap' (show some Kind.whitespace = _ ↔ _ by simp)
      | comment w =>
          have hparts : ∀ q ∈ [w], IsBlankPart q ∨ IsComment q := by
            intro q hq
            rw [List.mem_singleton.1 hq]
            exact .inr hp
          rw [ofPieces]
          split
          · -- a space never runs into what follows, so the gap has none yet
            rename_i hjoins
            have hws : last ≠ some .whitespace := by
              rintro rfl
              cases ps <;> cases hjoins
            obtain rfl : spaces = [] := by simpa [hws] using hlast
            have hgap' := hgap.append_space (by simp) hparts
            simpa [Piece.text] using ih hgap' (show some Kind.whitespace = _ ↔ _ by simp)
          · have hblank : ¬∃ q ∈ [w], IsBlankPart q := by
              rintro ⟨q, hq, c, hc, hb⟩
              obtain ⟨body, hbody, -⟩ := hp
              rw [List.mem_singleton.1 hq, hbody] at hc
              simp at hc
            have hgap' := hgap.append hparts fun h => absurd h hblank
            simpa [Piece.text] using ih hgap' hlast
      | lexeme k v =>
          obtain ⟨hne, hspace, heof⟩ := hp
          have hrest := ih (Gap.nil ((loc.after gap).after v))
            (show some k = some .whitespace ↔ _ by simpa using hspace)
          simpa [ofPieces, Piece.text] using Lies.lexeme hgap hspace heof hne hrest

/-- The tokens of a source, if its pieces all have an end, and then the end of the source behind
them. -/
theorem tokenize_eq_ok_iff {source : Text} {ts : List Token} :
    tokenize source = .ok ts ↔ (cut source).stuck = none ∧
      ts = ofPieces none .start (cut source).pieces ++ [⟨.eof, [], .after .start source⟩] := by
  rw [tokenize]
  cases hstuck : (cut source).stuck with
  | some f => simp
  | none =>
      rw [flatMap_text_cut hstuck]
      simp [eq_comm]

/-- The tokens of a source lie along it. -/
theorem lies_of_tokenize {source : Text} {ts : List Token} (h : tokenize source = .ok ts) :
    Lies .start source ts := by
  obtain ⟨hstuck, rfl⟩ := tokenize_eq_ok_iff.1 h
  have hsource := flatMap_text_cut hstuck
  have hread : ∀ p ∈ (cut source).pieces, p.IsRead := fun p => isRead_of_mem_cut
  have hlies := lies_ofPieces hread (Gap.nil .start)
    (show (none : Option Kind) = _ ↔ _ by simp)
  simpa [hsource] using hlies

/-! ### Where each token stands -/

/-- What the text from the place of a token on has to be. -/
structure Stands (t : Token) (rest : Text) : Prop where
  space : t.kind = .whitespace →
    t.value = [' '] ∧ ∃ p tail, (IsBlankPart p ∨ IsComment p) ∧ rest = p ++ tail
  ending : t.kind = .eof → t.value = [] ∧ rest = []
  slice : t.kind ≠ .whitespace → t.kind ≠ .eof → t.value ≠ [] ∧ t.value <+: rest

section Along

variable {loc : Location} {s gap : Text} {ts spaces : List Token} {parts : List Text}

/-- A space stands at a place within its gap, on a blank or on a comment. The text that the space
has need not be there: it may stand for any blanks, or for a comment. -/
theorem Gap.stands (h : Gap loc gap spaces parts) (s : Text) {t : Token} (ht : t ∈ spaces) :
    ∃ pre rest, gap ++ s = pre ++ rest ∧ pre.length < gap.length ∧ t.loc = loc.after pre ∧
      Stands t rest := by
  obtain ⟨before, p, behind, hparts, rfl⟩ := h.starts t ht
  have hp : IsBlankPart p ∨ IsComment p := h.each p (by simp [hparts])
  have hpos : 0 < p.length := by
    rcases hp with ⟨c, rfl, -⟩ | ⟨body, rfl, -⟩ <;> simp
  refine ⟨before.flatten, p ++ (behind.flatten ++ s), by simp [h.text, hparts], ?_, rfl, ?_⟩
  · simp [h.text, hparts]
    omega
  · exact ⟨fun _ => ⟨rfl, p, _, hp, rfl⟩, nofun, fun hws => absurd rfl hws⟩

/-- Each token stands at a place of the text, and the text goes on there as the token says. The
induction is on `Lies`: a token is in the first gap, the first lexeme, or behind it. -/
theorem Lies.stands (h : Lies loc s ts) {t : Token} (ht : t ∈ ts) :
    ∃ pre rest, s = pre ++ rest ∧ t.loc = loc.after pre ∧ Stands t rest := by
  induction h with
  | @ending loc gap spaces parts hgap =>
      -- a space in the last gap, or the `eof` token, which stands at the end of the text
      rcases List.mem_append.1 ht with ht | ht
      · obtain ⟨pre, rest, happ, -, hplace, hstands⟩ := hgap.stands [] ht
        exact ⟨pre, rest, by simpa using happ, hplace, hstands⟩
      · rw [List.mem_singleton.1 ht]
        exact ⟨gap, [], by simp, rfl, nofun, fun _ => ⟨rfl, rfl⟩, fun _ heof => absurd rfl heof⟩
  | @lexeme loc gap spaces parts k v s ts hgap hspace heof hne _ ih =>
      -- a space in the gap, the lexeme itself, or a token of the text behind it
      rcases List.mem_append.1 ht with ht | ht
      · obtain ⟨pre, rest, happ, -, hplace, hstands⟩ := hgap.stands (v ++ s) ht
        exact ⟨pre, rest, happ, hplace, hstands⟩
      · rcases List.mem_cons.1 ht with rfl | ht
        · exact ⟨gap, v ++ s, rfl, rfl, fun hk => absurd hk hspace, fun hk => absurd hk heof,
            fun _ _ => ⟨hne, List.prefix_append v s⟩⟩
        · obtain ⟨pre, rest, rfl, hplace, hstands⟩ := ih ht
          exact ⟨gap ++ (v ++ pre), rest, by simp, by simp [hplace], hstands⟩

/-- No token stands before the start of the text. -/
theorem Lies.offset_le (h : Lies loc s ts) {t : Token} (ht : t ∈ ts) :
    loc.offset ≤ t.loc.offset := by
  obtain ⟨pre, rest, -, hplace, -⟩ := h.stands ht
  rw [hplace, Location.offset_after]
  omega

/-- The offset just behind the text of the token. -/
def stop (t : Token) : Nat := t.loc.offset + t.value.length

/-- The token starts before the other one and, unless it is a space, ends before it too. -/
def Precedes (t u : Token) : Prop :=
  t.loc.offset < u.loc.offset ∧ (t.kind ≠ .whitespace → t.stop ≤ u.loc.offset)

/-- A space comes before all tokens behind its gap. Nothing is said about its end, since its text is
not the text of the gap. -/
theorem Gap.pairwise (h : Gap loc gap spaces parts)
    (hts : ∀ t ∈ ts, loc.offset + gap.length ≤ t.loc.offset) (hpair : ts.Pairwise Precedes) :
    (spaces ++ ts).Pairwise Precedes := by
  refine List.pairwise_append.2 ⟨?_, hpair, ?_⟩
  · -- there is one space at most
    match spaces, h.atMostOne with
    | [], _ => exact .nil
    | [t], _ => exact List.pairwise_singleton _ t
  · intro t ht u hu
    obtain ⟨pre, rest, -, hlt, hplace, -⟩ := h.stands [] ht
    have hle := hts u hu
    refine ⟨?_, fun hk => absurd (h.kind ht) hk⟩
    rw [hplace, Location.offset_after]
    omega

/-- Tokens stand in the order of the text, and lexemes do not overlap. Each token behind a lexeme
starts at or behind the end of its text, and that text is not empty. -/
theorem Lies.pairwise (h : Lies loc s ts) : ts.Pairwise Precedes := by
  induction h with
  | ending hgap => exact hgap.pairwise (by simp) (List.pairwise_singleton _ _)
  | @lexeme loc gap spaces parts k v s ts hgap _ _ hne hrest ih =>
      -- what comes behind the lexeme starts behind its text
      have hbehind : ∀ u ∈ ts, loc.offset + gap.length + v.length ≤ u.loc.offset := by
        intro u hu
        simpa using hrest.offset_le hu
      have hpos : 0 < v.length := List.length_pos_iff.2 hne
      refine hgap.pairwise ?_ (List.pairwise_cons.2 ⟨?_, ih⟩)
      · intro t ht
        rcases List.mem_cons.1 ht with rfl | ht
        · simp
        · have := hbehind t ht
          omega
      · intro u hu
        have hle := hbehind u hu
        refine ⟨?_, fun _ => ?_⟩
        · rw [Location.offset_after]
          omega
        · rw [stop, Location.offset_after]
          exact hle

/-- The end comes last, behind the whole text, and there is no other. Gaps and lexemes are of other
classes. -/
theorem Lies.exists_eof (h : Lies loc s ts) :
    ∃ body, ts = body ++ [⟨.eof, [], loc.after s⟩] ∧ ∀ t ∈ body, t.kind ≠ .eof := by
  induction h with
  | ending hgap => exact ⟨_, rfl, fun t ht => by simp [hgap.kind ht]⟩
  | @lexeme loc gap spaces parts k v s ts hgap _ heof _ _ ih =>
      obtain ⟨body, rfl, hbody⟩ := ih
      refine ⟨spaces ++ ⟨k, v, loc.after gap⟩ :: body, by simp, ?_⟩
      intro t ht
      rcases List.mem_append.1 ht with ht | ht
      · simp [hgap.kind ht]
      · rcases List.mem_cons.1 ht with rfl | ht
        · exact heof
        · exact hbody t ht

/-- No two spaces stand side by side. Behind a gap there is a lexeme or the end, and a gap has one
space at most. -/
theorem Lies.apart (h : Lies loc s ts) {t u : Token} (hside : [t, u] <:+: ts)
    (ht : t.kind = .whitespace) : u.kind ≠ .whitespace := by
  -- a space stands alone in its gap, and a lexeme or the end comes behind it
  have hstep : ∀ {spaces ts : List Token} {x : Token}, spaces.length ≤ 1 →
      x.kind ≠ .whitespace → [t, u] <:+: spaces ++ x :: ts →
      u.kind ≠ .whitespace ∨ [t, u] <:+: ts := by
    intro spaces ts x hone hx hside
    have hbehind : [t, u] <:+: x :: ts → [t, u] <:+: ts := by
      intro hin
      rcases List.infix_cons_iff.1 hin with hin | hin
      · rw [List.cons_prefix_cons] at hin
        exact absurd (hin.1 ▸ ht) hx
      · exact hin
    match spaces, hone with
    | [], _ => exact .inr (hbehind hside)
    | [y], _ =>
        rw [List.singleton_append] at hside
        rcases List.infix_cons_iff.1 hside with hin | hin
        · rw [List.cons_prefix_cons, List.cons_prefix_cons] at hin
          exact .inl (hin.2.1 ▸ hx)
        · exact .inr (hbehind hin)
  induction h with
  | ending hgap =>
      rcases hstep hgap.atMostOne (show Kind.eof ≠ .whitespace by decide) hside with hu | hin
      · exact hu
      · simp at hin
  | lexeme hgap hspace _ _ _ ih =>
      rcases hstep hgap.atMostOne hspace hside with hu | hin
      · exact hu
      · exact ih hin

end Along

/-! ### The stretches outside the tokens -/

/-- A stretch of a source outside its tokens, with the spaces that stand for it. -/
structure Stretch where
  start : Nat
  stop : Nat
  spaces : List Token

/-- The stretches in front of tokens: each goes from the end of a token, spaces left out, to the
start of the next. The first one starts at `start`, behind the spaces `spaces`. -/
def stretchesFrom (start : Nat) (spaces : List Token) : List Token → List Stretch
  | [] => []
  | t :: ts =>
    if t.kind = .whitespace then stretchesFrom start (spaces ++ [t]) ts
    else ⟨start, t.loc.offset, spaces⟩ :: stretchesFrom t.stop [] ts

/-- The stretches of a source outside its tokens. -/
def stretches (ts : List Token) : List Stretch := stretchesFrom 0 [] ts

/-- Spaces in front of tokens belong to the first stretch. -/
theorem stretchesFrom_append {spaces : List Token} (hs : ∀ t ∈ spaces, t.kind = .whitespace)
    (start : Nat) (before ts : List Token) :
    stretchesFrom start before (spaces ++ ts) = stretchesFrom start (before ++ spaces) ts := by
  induction spaces generalizing before with
  | nil => simp
  | cons t spaces ih =>
      rw [List.cons_append, stretchesFrom, if_pos (hs t (by simp)),
        ih fun u hu => hs u (List.mem_cons_of_mem _ hu), List.append_assoc, List.singleton_append]

/-- The stretch of the source is a gap with the spaces of the stretch. -/
def Stretch.IsGap (source : Text) (st : Stretch) : Prop :=
  st.start ≤ st.stop ∧
    ∃ parts, Gap (Location.start.after (source.take st.start))
      ((source.drop st.start).take (st.stop - st.start)) st.spaces parts

/-- A gap between a text in front and a text behind, as a stretch of the whole. -/
theorem Gap.isGap {pre gap s : Text} {spaces : List Token} {parts : List Text}
    (h : Gap (Location.start.after pre) gap spaces parts) :
    Stretch.IsGap (pre ++ (gap ++ s)) ⟨pre.length, pre.length + gap.length, spaces⟩ := by
  refine ⟨by simp, parts, ?_⟩
  simpa using h

/-- Every stretch is a gap. The text that comes before grows along the tokens, so it is
generalized. -/
theorem Lies.isGap {loc : Location} {pre s : Text} {ts : List Token} (h : Lies loc s ts)
    (hloc : loc = Location.start.after pre) {st : Stretch}
    (hst : st ∈ stretchesFrom pre.length [] ts) : st.IsGap (pre ++ s) := by
  induction h generalizing pre with
  | @ending loc gap spaces parts hgap =>
      subst hloc
      rw [stretchesFrom_append fun t => hgap.kind, stretchesFrom, if_neg nofun, stretchesFrom,
        List.mem_singleton] at hst
      subst hst
      simpa [Location.start] using hgap.isGap (s := [])
  | @lexeme loc gap spaces parts k v s ts hgap hspace _ _ _ ih =>
      subst hloc
      rw [stretchesFrom_append fun t => hgap.kind, stretchesFrom, if_neg hspace,
        List.mem_cons] at hst
      -- the gap in front of this lexeme, or one behind it, where the text before is longer
      rcases hst with rfl | hst
      · simpa [Location.start] using hgap.isGap (s := v ++ s)
      · have hloc : ((Location.start.after pre).after gap).after v =
            Location.start.after (pre ++ (gap ++ v)) := by simp
        have hgo := ih hloc (by simpa [stop, Location.start, Nat.add_assoc] using hst)
        simpa using hgo

/-! ### The cover of a source -/

/-- `k` is the offset just behind the last line feed of the text, or zero if there is none. -/
def IsLineStart (s : Text) (k : Nat) : Prop :=
  k ≤ s.length ∧ (k = 0 ∨ s[k - 1]? = some '\n') ∧ '\n' ∉ s.drop k

/-- The tokens are a faithful cover of the source, in its order. -/
structure Covers (source : Text) (ts : List Token) : Prop where
  /-- Tokens are in order, and the texts of two of them, spaces apart, do not overlap. -/
  ordered : ts.Pairwise Precedes
  /-- The only end is the last token, behind the whole source. -/
  ending : ∃ body loc, ts = body ++ [⟨.eof, [], loc⟩] ∧ loc.offset = source.length ∧
    ∀ t ∈ body, t.kind ≠ .eof
  /-- A token with a text of its own is a slice of the source. -/
  slices : ∀ t ∈ ts, t.kind ≠ .whitespace → t.kind ≠ .eof →
    t.value ≠ [] ∧ (source.drop t.loc.offset).take t.value.length = t.value
  /-- A space starts on a blank or on a comment. -/
  spaces : ∀ t ∈ ts, t.kind = .whitespace → t.value = [' '] ∧
    ∃ p tail, (IsBlankPart p ∨ IsComment p) ∧ source.drop t.loc.offset = p ++ tail
  /-- No two spaces stand side by side. -/
  apart : ∀ t u, [t, u] <:+: ts → t.kind = .whitespace → u.kind ≠ .whitespace
  /-- Outside the slices the source is made up of blanks and complete comments. A stretch with a
  blank has one space in it, and no stretch has two. A blank inside a comment is part of it. -/
  outside : ∀ st ∈ stretches ts, st.IsGap source
  line : ∀ t ∈ ts, t.loc.line = 1 + (source.take t.loc.offset).count '\n'
  column : ∀ t ∈ ts, ∃ k, IsLineStart (source.take t.loc.offset) k ∧
    t.loc.column = t.loc.offset - k + 1

/-- The column at a place counts from the last line start before it. -/
theorem exists_column (s : Text) :
    ∃ k, IsLineStart s k ∧ (Location.start.after s).column = s.length - k + 1 := by
  rcases Location.column_after .start s with ⟨hfree, hcolumn⟩ | ⟨k, -, hle, hfeed, hfree, hcolumn⟩
  · refine ⟨0, ⟨by omega, .inl rfl, by simpa using hfree⟩, ?_⟩
    rw [hcolumn, Location.start]
    dsimp only
    omega
  · exact ⟨k, ⟨hle, .inr hfeed, hfree⟩, hcolumn⟩

/-- **The tokens of a source cover it.** Each stands where its text is, in order and without
overlap, and what is between them is blanks and comments. Lines and columns are those of the
source. -/
theorem tokenize_covers {source : Text} {ts : List Token} (h : tokenize source = .ok ts) :
    Covers source ts := by
  have hlies := lies_of_tokenize h
  -- the place of a token, as the text in front of it
  have hplace : ∀ t ∈ ts, t.loc = Location.start.after (source.take t.loc.offset) ∧
      t.loc.offset ≤ source.length ∧ Stands t (source.drop t.loc.offset) := by
    intro t ht
    obtain ⟨pre, rest, rfl, hloc, hstands⟩ := hlies.stands ht
    have hoffset : t.loc.offset = pre.length := by simp [hloc, Location.start]
    rw [hoffset, List.take_left, List.drop_left]
    exact ⟨hloc, by simp, hstands⟩
  refine ⟨hlies.pairwise, ?_, ?_, ?_, fun t u => hlies.apart, ?_, ?_, ?_⟩
  · obtain ⟨body, hbody, hfree⟩ := hlies.exists_eof
    exact ⟨body, _, hbody, by simp [Location.start], hfree⟩
  · intro t ht hspace heof
    obtain ⟨hne, hslice⟩ := (hplace t ht).2.2.slice hspace heof
    exact ⟨hne, (List.prefix_iff_eq_take.1 hslice).symm⟩
  · intro t ht hspace
    exact (hplace t ht).2.2.space hspace
  · intro st hst
    exact hlies.isGap (show Location.start = Location.start.after [] from rfl) hst
  · intro t ht
    have hline := Location.line_after .start (source.take t.loc.offset)
    rw [← (hplace t ht).1] at hline
    exact hline
  · intro t ht
    obtain ⟨k, hk, hcolumn⟩ := exists_column (source.take t.loc.offset)
    rw [← (hplace t ht).1, List.length_take, Nat.min_eq_left (hplace t ht).2.1] at hcolumn
    exact ⟨k, hk, hcolumn⟩

/-- A comment between two words leaves a space, and one next to a blank does not: the blank has the
space already. -/
theorem tokenize_covers_comments :
    Covers "a/* b */c\n/**/ 1".toList
      [⟨.ident, ['a'], ⟨0, 1, 1⟩⟩, space ⟨1, 1, 2⟩, ⟨.ident, ['c'], ⟨8, 1, 9⟩⟩,
        space ⟨9, 1, 10⟩, ⟨.number, ['1'], ⟨15, 2, 6⟩⟩, ⟨.eof, [], ⟨16, 2, 7⟩⟩] :=
  tokenize_covers (tokenize_eq_ok_iff.2 (by decide +kernel))

end Token

end CssHints
